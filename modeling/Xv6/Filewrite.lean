-- What `filewrite` does to a regular file: a write is made in pieces of `maxWrite` bytes, and each
-- of them is written or refused. One call is all or nothing unless it meets the largest file size
-- after its first piece. Calls that share an open file take turns piece by piece.
import Xv6.Exec
import Xv6.FsFull
import Xv6.FsState
import Xv6.Sections
import Xv6.Runs

open List bytes WP

namespace xv6.sysfile

open dir

open fs

/-! ## One piece -/

/-- Entry `k` of the inode cache is for inode `i`, which is a file with contents. -/
structure On (R : Nat → Prop) (k i : Nat) (x : fs.File) (s : Fs) : Prop where
  good : Good R s
  entry : ∃ e, s.entry k = some e ∧ e.inum = i
  file : s.file i = some x
  type : x.type ≠ T_DEV

variable {R : Nat → Prop} {k i off n j : Nat} {x y : fs.File} {src : Nat → UInt8} {s : Fs}

/-- A piece is written as a whole, or it does not fit and the file is what it was. -/
theorem On.writeChunk (h : On R k i x s) (hn : n < 2 ^ 32) :
      spec (writeChunk k src off n : FsM Int) s (fun r u => off ≤ x.size ∧
        off + n ≤ MAXFILE * BSIZE ∧ r = n ∧ On R k i (x.write off n src) u ∨
        ¬ (off ≤ x.size ∧ off + n ≤ MAXFILE * BSIZE) ∧ r = -1 ∧ On R k i x u)
      (fun _ _ => True) := by
  obtain ⟨e, he, rfl⟩ := h.entry
  have hl := live_of_file h.file
  have hst : Stands R False s.sb.ninodes s.file s.entry s := h.good.stands False.elim
  unfold sysfile.writeChunk
  rw [spec_bind]
  refine hst.begin_op (fun s1 h1 => ?_) trivial
  rw [spec_bind]
  refine h1.ilock he ⟨hl.1, hl.2.1⟩ (fun s2 _ _ _ h2 => ?_) fun _ _ _ => trivial
  rw [spec_bind]
  have he2 := Function.update_self k (some { e with busy := true, valid := true }) s.entry
  -- what is left after the write only unlocks
  have hrest : ∀ (r : Int) (s3 : Fs) (z : fs.File) (F : Nat → Option fs.File), F e.inum = some z →
      z.type ≠ T_DEV →
      Stands R False s.sb.ninodes F
        (Function.update s.entry k (some { e with busy := true, valid := true })) s3 →
      spec (do iunlock k; end_op; pure r : FsM Int) s3 (fun r' u => r' = r ∧ On R k e.inum z u)
        (fun _ _ => True) := by
    intro r s3 z F hz hty h3
    rw [spec_bind]
    refine h3.iunlock he2 rfl fun s4 h4 => ?_
    rw [spec_bind]
    refine h4.end_op fun s5 h5 => ?_
    rw [spec_pure]
    refine ⟨rfl, h5.good, ⟨{ e with busy := false, valid := true }, ?_, rfl⟩,
      by rw [h5.file, hz], hty⟩
    rw [h5.entry]
    exact Function.update_self ..
  refine h2.writei he2 rfl h.file h.type hn (fun s3 hoff hmax h3 => ?_) (fun hno => ?_)
    fun _ _ _ _ => trivial
  · refine spec_mono (hrest _ s3 (x.write off n src) _ (Function.update_self ..) h.type h3)
      (fun r u hu => Or.inl ⟨hoff, hmax, hu⟩) fun _ _ _ => trivial
  · exact spec_mono (hrest _ s2 x _ h.file h.type h2) (fun r u hu => Or.inr ⟨hno, hu⟩)
      fun _ _ _ => trivial

/-! ## One call -/

/-- The first `i` bytes are in the file, which was `x` before and is `y` now. -/
structure Reached (x : fs.File) (off n : Nat) (src : Nat → UInt8) (i : Nat) (y : fs.File) :
    Prop where
  le : i ≤ n
  bytes : i = 0 ∧ y = x ∨ off ≤ x.size ∧ off + i ≤ MAXFILE * BSIZE ∧ y = x.write off i src
  pieces : 0 < i → i < n → maxWrite ≤ i

theorem write_append (x : fs.File) (off i n : Nat) (src : Nat → UInt8) :
    (x.write off i src).write (off + i) n (fun a => src (i + a)) = x.write off (i + n) src := by
  unfold fs.File.write
  congr 1
  · simp only
    omega
  · funext b
    simp only
    split_ifs <;> first | rfl | omega | (congr 1; omega)

theorem write_zero (x : fs.File) (src : Nat → UInt8) (h : off ≤ x.size) :
    x.write off 0 src = x := by
  unfold fs.File.write
  rw [Nat.add_zero, Nat.max_eq_left h]
  congr 1
  funext b
  rw [if_neg (by omega)]

/-- The next piece fits if the file is not too large with it. -/
theorem Reached.fits (h : Reached x off n src j y) (hn : off + j ≤ y.size) : off ≤ x.size := by
  rcases h.bytes with ⟨rfl, rfl⟩ | ⟨hoff, _, _⟩
  · exact hn
  · exact hoff

theorem Reached.size (h : Reached x off n src j y) (hoff : off ≤ x.size) : off + j ≤ y.size := by
  rcases h.bytes with ⟨rfl, rfl⟩ | ⟨_, _, rfl⟩
  · exact hoff
  · exact Nat.le_max_right ..

theorem Reached.next (h : Reached x off n src j y) (hlt : j < n) (hfit : off + j ≤ y.size)
    (hmax : off + j + min (n - j) maxWrite ≤ MAXFILE * BSIZE) :
    Reached x off n src (j + min (n - j) maxWrite)
      (y.write (off + j) (min (n - j) maxWrite) fun a => src (j + a)) := by
  refine ⟨by omega, Or.inr ⟨h.fits hfit, by omega, ?_⟩, fun _ hmore => by omega⟩
  rcases h.bytes with ⟨rfl, rfl⟩ | ⟨_, _, rfl⟩
  · rw [← write_append, write_zero y src (show off ≤ y.size from hfit)]
  · exact write_append ..

/-- The loop ends when every byte is written, or at a piece that does not fit. -/
theorem writeFrom_spec (x : fs.File) (off n : Nat) (src : Nat → UInt8) (fuel : Nat) :
    ∀ (j : Nat) (y : fs.File) (s : Fs), n - j ≤ fuel → On R k i y s → Reached x off n src j y →
    spec (writeFrom k src n fuel j (off + j) : FsM (Nat × Nat)) s
      (fun r u => ∃ y, On R k i y u ∧ r.2 = off + r.1 ∧ Reached x off n src r.1 y ∧
        (r.1 < n → ¬ (off ≤ x.size ∧ off + r.1 + min (n - r.1) maxWrite ≤ MAXFILE * BSIZE)))
      (fun _ _ => True) := by
  induction fuel with
  | zero =>
    intro j y s hfuel hon h
    rw [writeFrom, spec_pure]
    exact ⟨y, hon, rfl, h, fun hlt => by omega⟩
  | succ fuel ih =>
    intro j y s hfuel hon h
    rw [writeFrom]
    by_cases hlt : j < n
    · rw [if_pos hlt, spec_bind]
      have hn1 : min (n - j) maxWrite < 2 ^ 32 :=
        Nat.lt_of_le_of_lt (Nat.min_le_right ..) (by decide)
      have hpos : 0 < maxWrite := by decide
      refine spec_mono (hon.writeChunk hn1) (fun r u hr => ?_) fun _ _ _ => trivial
      rcases hr with ⟨hoff, hmax, rfl, hu⟩ | ⟨hno, rfl, hu⟩
      · have huint : uint (off + j + min (n - j) maxWrite) = off + (j + min (n - j) maxWrite) := by
          rw [uint, Nat.mod_eq_of_lt (Nat.lt_of_le_of_lt hmax (by decide)), Nat.add_assoc]
        rw [if_neg (by omega), if_neg (by simp), huint]
        exact ih _ _ u (by omega) hu (h.next hlt hoff hmax)
      · rw [if_pos (by decide), spec_pure]
        exact ⟨y, hu, rfl, h, fun _ hfit => hno ⟨h.size hfit.1, hfit.2⟩⟩
    · rw [if_neg hlt, spec_pure]
      exact ⟨y, hon, rfl, h, fun h => absurd h hlt⟩

/-- What a caller of `filewrite` may count on: `r` was returned, file `x` is now `y`, and the offset
went from `off` to `off'`. -/
def AllOrNothing (x : fs.File) (off : Nat) (src : Nat → UInt8) (n r : Int) (y : fs.File)
    (off' : Nat) :
    Prop :=
  (0 ≤ n → r = n → (∀ a < n.toNat, off + a < y.size ∧ y.data (off + a) = src a) ∧
  off' = off + n.toNat) ∧
  (r = -1 → y.size = x.size ∧ (∀ a < x.size, y.data a = x.data a) ∧ off' = off)

/-- The write goes over the largest file size, and its first piece does not. -/
def Cut (x : fs.File) (off : Nat) (n : Int) : Prop :=
  (maxWrite : Int) < n ∧ off ≤ x.size ∧ off + maxWrite ≤ MAXFILE * BSIZE ∧
    ((MAXFILE * BSIZE : Nat) : Int) < off + n

theorem Reached.allOrNothing_iff {n : Int} (h : Reached x off n.toNat src j y)
      (hstop : j < n.toNat →
      ¬ (off ≤ x.size ∧ off + j + min (n.toNat - j) maxWrite ≤ MAXFILE * BSIZE)) :
    AllOrNothing x off src n (if (j : Int) = n then n else -1) y (off + j) ↔ ¬ Cut x off n := by
  unfold Cut
  have hle := h.le
  have hpos : 0 < maxWrite := by decide
  by_cases hj : (j : Int) = n
  · obtain rfl : j = n.toNat := by omega
    rw [if_pos hj]
    refine iff_of_true ⟨fun _ _ => ⟨fun a ha => ?_, rfl⟩, fun hr => by omega⟩ ?_
    · rcases h.bytes with ⟨h0, _⟩ | ⟨_, _, rfl⟩
      · omega
      refine ⟨Nat.lt_of_lt_of_le (by omega) (Nat.le_max_right ..), ?_⟩
      simp only [fs.File.write]
      rw [if_pos ⟨by omega, by omega⟩, Nat.add_sub_cancel_left]
    · rintro ⟨h1, _, _, h4⟩
      rcases h.bytes with ⟨h0, _⟩ | ⟨_, hmax, _⟩ <;> omega
  · rw [if_neg hj]
    constructor
    · rintro ⟨_, hfail⟩ ⟨h1, h2, h3, h4⟩
      obtain rfl : j = 0 := by
        have := (hfail rfl).2.2
        omega
      exact hstop (by omega) ⟨h2, by omega⟩
    · intro hcut
      have hzero : j = 0 ∧ y = x := by
        rcases h.bytes with hb | ⟨hoff, hmax, rfl⟩
        · exact hb
        · by_cases h0 : j = 0
          · exact ⟨h0, by rw [h0]; exact write_zero x src hoff⟩
          · have hpiece := h.pieces (by omega) (by omega)
            have hover : MAXFILE * BSIZE < off + j + min (n.toNat - j) maxWrite :=
              Nat.lt_of_not_le fun hfit => hstop (by omega) ⟨hoff, hfit⟩
            refine (hcut ⟨by omega, hoff, Nat.le_trans (Nat.add_le_add_left hpiece off) hmax,
              ?_⟩).elim
            generalize MAXFILE * BSIZE = M at hover
            clear hcut hmax hstop
            omega
      obtain ⟨rfl, rfl⟩ := hzero
      exact ⟨fun hn hr => by omega, fun _ => ⟨rfl, fun _ _ => rfl, rfl⟩⟩

theorem filewrite_spec {t : Tables} {f : Nat} {n piped : Int}
    (hopen : (t.ftable f).type = .FD_INODE) (h : On R (t.ftable f).ip i x s) :
    spec (filewrite t f src n piped : FsM (Int × Tables)) s (fun r u => (∃ y, u.file i = some y ∧
        AllOrNothing x (t.ftable f).off src n r.1 y (r.2.ftable f).off) ↔
          ¬ ((t.ftable f).writable = true ∧ Cut x (t.ftable f).off n)) (fun _ _ => True) := by
  unfold filewrite
  by_cases hw : (t.ftable f).writable = true
  · simp only [hw, not_true_eq_false, if_false, hopen, true_and, spec_bind]
    refine spec_mono (writeFrom_spec x (t.ftable f).off n.toNat src n.toNat 0 x s (Nat.sub_le ..) h
      ⟨Nat.zero_le _, Or.inl ⟨rfl, rfl⟩, fun h0 => absurd h0 (Nat.lt_irrefl 0)⟩) (fun a u ha => ?_)
      fun _ _ _ => trivial
    obtain ⟨y, hu, hoff, hr, hstop⟩ := ha
    rw [spec_pure, hu.file, ← hr.allOrNothing_iff hstop, ← hoff]
    simp [Tables.setFile]
  · simp only [hw, Bool.false_eq_true, not_false_eq_true, if_true, spec_pure]
    exact iff_of_true ⟨x, h.file, fun hn hr => by omega, fun _ => ⟨rfl, fun _ _ => rfl, rfl⟩⟩
      fun hc => absurd hc.1 (by decide)

/-- A call of `filewrite` on a regular file is all or nothing, unless it is cut by the largest file
size after its first piece. -/
theorem filewrite_is_all_or_nothing_unless_cut {t t' : Tables} {f : Nat} {n piped r : Int} {u : Fs}
    (hopen : (t.ftable f).type = .FD_INODE) (h : On R (t.ftable f).ip i x s)
    (hrun : (filewrite t f src n piped : FsM (Int × Tables)) s = .ok (r, t') u) :
    (∃ y, u.file i = some y ∧ AllOrNothing x (t.ftable f).off src n r y (t'.ftable f).off) ↔
      ¬ ((t.ftable f).writable = true ∧ Cut x (t.ftable f).off n) := by
  have hall := of_spec (filewrite_spec hopen h) hrun
  exact hall

theorem smallFs_on : ∃ x, On (· < 8) 1 2 x smallFs ∧ x.type = T_FILE := by
  obtain ⟨e, he, hi, _⟩ := sections.smallFs_idle.entry
  obtain ⟨x, hx, hty⟩ := sections.smallFs_idle.file
  exact ⟨x, ⟨smallFs_good, ⟨e, he, hi⟩, hx, by rw [hty]; decide⟩, hty⟩

/-- Three bytes are written to a file of ten. -/
theorem three_bytes_are_all_written : ∃ x r t' u, On (· < 8) 1 2 x smallFs ∧ x.type = T_FILE ∧
    (filewrite sections.tenOpen 0 (fun _ => 7) 3 0 : FsM (Int × Tables)) smallFs = .ok (r, t') u ∧
    ((∃ y, u.file 2 = some y ∧ AllOrNothing x 0 (fun _ => 7) 3 r y (t'.ftable 0).off) ↔
      ¬ ((sections.tenOpen.ftable 0).writable = true ∧ Cut x 0 3)) := by
  obtain ⟨x, hx, hty⟩ := smallFs_on
  obtain ⟨⟨r, t'⟩, u, hrun⟩ :=
    stopped_eq_none (r := (filewrite sections.tenOpen 0 (fun _ => 7) 3 0 :
    FsM (Int × Tables)) smallFs) (by decide +kernel)
  exact ⟨x, r, t', u, hx, hty, hrun, filewrite_is_all_or_nothing_unless_cut rfl hx hrun⟩

/-- A file of the largest size is open, one piece before its end. -/
def fullOpen : Tables :=
  { ftable := fun _ => { type := .FD_INODE, ref := 1, readable := true, writable := true, pipe := 0,
                         ip := 0, off := MAXFILE * BSIZE - maxWrite }
    procs := fun _ => none }

/-- One byte more than a piece: the piece is written and the offset goes on, and
the call returns -1. -/
theorem a_write_is_cut : ∃ x t' u, On (· < 8) 0 1 x (fullFs T_FILE fun _ => 0) ∧ x.type = T_FILE ∧
    (filewrite fullOpen 0 (fun _ => 7) (maxWrite + 1) 0 : FsM (Int × Tables))
      (fullFs T_FILE fun _ => 0) = .ok (-1, t') u ∧
    (t'.ftable 0).off = (fullOpen.ftable 0).off + maxWrite := by
  obtain ⟨x, hx, hty, _⟩ := fullFs_file (fun _ => 0) (show T_FILE ≠ 0 by decide)
  obtain ⟨⟨r, t'⟩, u, hrun⟩ := stopped_eq_none (r := (filewrite fullOpen 0 (fun _ => 7)
    (maxWrite + 1) 0 : FsM (Int × Tables)) (fullFs T_FILE fun _ => 0)) (by decide +kernel)
  have hends : (match (filewrite fullOpen 0 (fun _ => 7) (maxWrite + 1) 0 :
      FsM (Int × Tables)) (fullFs T_FILE fun _ => 0) with
      | .ok a _ => (a.1, (a.2.ftable 0).off)
      | .error _ _ => (0, 0)) = ((-1 : Int), (fullOpen.ftable 0).off + maxWrite) := by
    decide +kernel
  rw [hrun] at hends
  obtain ⟨rfl, hoff⟩ := Prod.mk.inj hends
  exact ⟨x, t', u, ⟨fullFs_good (by decide), ⟨⟨1, 1, false, true⟩, by decide, rfl⟩, hx, by
    rw [hty]; decide⟩, hty, hrun, hoff⟩

/-! ## A shared open file -/

/-- A process that writes: the buffers of its calls, of which the first is under way, and
`i` of that call. -/
structure Writer where
  calls : List (List UInt8)
  i : Nat

/-- The file system, the offset of the open file, and the `m` processes that share it. -/
structure Shared (m : Nat) where
  fs : Fs
  off : Nat
  writers : Fin m → Writer

variable {m : Nat}

/-- Process `p` takes one turn of the loop of `filewrite` on entry `ip`, or its call returns. The
piece is written under the lock of the inode. There is no step in which a piece is refused, since
the calls succeed. -/
def Shared.step (ip : Nat) (s : Shared m) (p : Fin m) : Option (Shared m) :=
  match s.writers p with
  | ⟨[], _⟩ => none
  | ⟨buf :: calls, i⟩ =>
    if i < buf.length then
      let n1 := min (buf.length - i) maxWrite
      match (writeChunk ip (fun a => buf.getD (i + a) 0) s.off n1 : FsM Int) s.fs with
      | .ok r fs =>
        if r = n1 then
          some { fs := fs, off := uint (s.off + n1),
                 writers := Function.update s.writers p ⟨buf :: calls, i + n1⟩ }
        else none
      | .error _ _ => none
    else some { s with writers := Function.update s.writers p ⟨calls, 0⟩ }

/-- The bytes that are still to write. -/
def Writer.left (w : Writer) : List UInt8 := w.calls.flatten.drop w.i

/-- The bytes of the pieces. -/
def bytesOf (cs : List (Fin m × List UInt8)) : List UInt8 := (cs.map Prod.snd).flatten

/-- The bytes of the pieces of process `p`. -/
def bytesBy (p : Fin m) (cs : List (Fin m × List UInt8)) : List UInt8 :=
  bytesOf (cs.filter (·.1 = p))

theorem bytesOf_snoc (cs : List (Fin m × List UInt8)) (c : Fin m × List UInt8) :
    bytesOf (cs ++ [c]) = bytesOf cs ++ c.2 := by
  simp [bytesOf]

theorem bytesBy_snoc (p q : Fin m) (cs : List (Fin m × List UInt8)) (bs : List UInt8) :
    bytesBy p (cs ++ [(q, bs)]) = bytesBy p cs ++ if q = p then bs else [] := by
  by_cases hq : q = p
  · simp [bytesBy, bytesOf, hq]
  · simp [bytesBy, bytesOf, hq]

/-- The piece is one that `filewrite` makes of the buffer. -/
def IsPiece (buf bs : List UInt8) : Prop :=
  ∃ i < buf.length, maxWrite ∣ i ∧ bs = (buf.drop i).take maxWrite

/-- Process `w0` has written the bytes `bs` and is now `w`. -/
structure Progress (w0 : Writer) (bs : List UInt8) (w : Writer) : Prop where
  bytes : bs ++ w.left = w0.left
  calls : w.calls <:+ w0.calls
  turn : ∀ buf calls, w.calls = buf :: calls →
    w.i ≤ buf.length ∧ (w.i < buf.length → maxWrite ∣ w.i)

/-- Since `s0` the pieces `cs` were written, and the file is now `y`. -/
structure Wrote (R : Nat → Prop) (k i : Nat) (s0 : Shared m) (cs : List (Fin m × List UInt8))
    (y : fs.File) (s : Shared m) : Prop where
  on : On R k i y s.fs
  off : s.off = s0.off + (bytesOf cs).length
  bytes : slice y.data s0.off (bytesOf cs).length = bytesOf cs
  size : bytesOf cs ≠ [] → s.off ≤ y.size
  progress : ∀ p, Progress (s0.writers p) (bytesBy p cs) (s.writers p)
  pieces : ∀ c ∈ cs, ∃ buf ∈ (s0.writers c.1).calls, IsPiece buf c.2

theorem Shared.step_cases {s s' : Shared m} {p : Fin m} (h : Shared.step k s p = some s') :
    ∃ buf calls i, s.writers p = ⟨buf :: calls, i⟩ ∧
      ((i < buf.length ∧ ∃ (n : Nat) (fs : Fs), n = min (buf.length - i) maxWrite ∧
        (writeChunk k (fun a => buf.getD (i + a) 0) s.off n : FsM Int) s.fs = .ok (n : Int) fs ∧
        s' = { fs := fs, off := uint (s.off + n),
               writers := Function.update s.writers p ⟨buf :: calls, i + n⟩ }) ∨
      (buf.length ≤ i ∧ s' = { s with writers := Function.update s.writers p ⟨calls, 0⟩ })) := by
  unfold Shared.step at h
  split at h
  · cases h
  · rename_i buf calls i hw
    refine ⟨buf, calls, i, hw, ?_⟩
    split at h
    · rename_i hlt
      dsimp only at h
      split at h
      · rename_i r fs hr
        split at h
        · rename_i heq
          exact Or.inl ⟨hlt, _, fs, rfl, heq ▸ hr, (Option.some.inj h).symm⟩
        · cases h
      · cases h
    · rename_i hge
      exact Or.inr ⟨Nat.le_of_not_lt hge, (Option.some.inj h).symm⟩

section Wrote

variable {s0 t t' : Shared m} {cs : List (Fin m × List UInt8)} {p : Fin m} {buf bs : List UInt8}
  {calls : List (List UInt8)} {w0 : Writer}

theorem Progress.write (h : Progress w0 bs ⟨buf :: calls, j⟩) (hlt : j < buf.length)
    (hn : n = min (buf.length - j) maxWrite) :
    Progress w0 (bs ++ (buf.drop j).take n) ⟨buf :: calls, j + n⟩ := by
  obtain ⟨hle, hdvd⟩ := h.turn buf calls rfl
  refine ⟨?_, h.calls, fun b cs' hq => ?_⟩
  · rw [← h.bytes]
    simp only [Writer.left, flatten_cons, append_assoc]
    rw [drop_append_of_le_length hle, drop_append_of_le_length (by omega),
      ← append_assoc _ _ calls.flatten, ← drop_drop, take_append_drop]
  · obtain ⟨rfl, rfl⟩ := List.cons.inj hq
    refine ⟨by show j + n ≤ _; omega, fun hmore => ?_⟩
    obtain rfl : n = maxWrite := by
      have hmore : j + n < buf.length := hmore
      omega
    exact (Nat.dvd_add_self_right).mpr (hdvd hlt)

theorem Progress.ret (h : Progress w0 bs ⟨buf :: calls, j⟩) (hge : buf.length ≤ j) :
    Progress w0 bs ⟨calls, 0⟩ := by
  have hj : j = buf.length := Nat.le_antisymm (h.turn buf calls rfl).1 hge
  refine ⟨?_, (suffix_cons buf calls).trans h.calls,
    fun _ _ _ => ⟨Nat.zero_le _, fun _ => dvd_zero _⟩⟩
  rw [← h.bytes, hj]
  simp [Writer.left]

theorem Progress.isPiece (h : Progress w0 bs ⟨buf :: calls, j⟩) (hlt : j < buf.length)
    (hn : n = min (buf.length - j) maxWrite) : ∃ b ∈ w0.calls, IsPiece b ((buf.drop j).take n) := by
  refine ⟨buf, h.calls.subset mem_cons_self, j, hlt, (h.turn buf calls rfl).2 hlt, ?_⟩
  rw [hn, ← length_drop, Nat.min_comm, ← take_eq_take_min]

/-- The pieces after one more is written at the offset. -/
theorem Wrote.write (h : Wrote R k i s0 cs y t) (hw : t.writers p = ⟨buf :: calls, j⟩)
    (hlt : j < buf.length) (hn : n = min (buf.length - j) maxWrite) {fs : Fs}
    (hmax : t.off + n ≤ MAXFILE * BSIZE)
    (hon : On R k i (y.write t.off n fun a => buf.getD (j + a) 0) fs) :
    Wrote R k i s0 (cs ++ [(p, (buf.drop j).take n)]) (y.write t.off n fun a => buf.getD (j + a) 0)
      { fs := fs, off := uint (t.off + n),
        writers := Function.update t.writers p ⟨buf :: calls, j + n⟩ } := by
  have hlen : ((buf.drop j).take n).length = n := by
    simp
    omega
  have huint : uint (t.off + n) = t.off + n :=
    Nat.mod_eq_of_lt (Nat.lt_of_le_of_lt hmax (by decide))
  have hprog := h.progress p
  rw [hw] at hprog
  refine ⟨hon, ?_, ?_, fun _ => ?_, fun q => ?_, fun c hc => ?_⟩
  · rw [bytesOf_snoc, length_append, hlen]
    show uint (t.off + n) = _
    rw [huint, h.off, Nat.add_assoc]
  · rw [bytesOf_snoc, length_append, hlen, slice_append, ← h.off, slice_write_self,
      map_getD_range buf j n (by omega), slice_write_other (Or.inl (Nat.le_of_eq h.off.symm)),
      h.bytes]
  · show uint (t.off + n) ≤ _
    rw [huint]
    exact Nat.le_max_right ..
  · rw [bytesBy_snoc]
    by_cases hq : p = q
    · subst hq
      simp only [Function.update_self, if_true]
      exact hprog.write hlt hn
    · simp only [Function.update_of_ne (Ne.symm hq), if_neg hq, append_nil]
      exact h.progress q
  · rcases mem_append.mp hc with hc | hc
    · exact h.pieces c hc
    · obtain rfl := mem_singleton.mp hc
      exact hprog.isPiece hlt hn

/-- The pieces after a call returns. -/
theorem Wrote.ret (h : Wrote R k i s0 cs y t) (hw : t.writers p = ⟨buf :: calls, j⟩)
    (hge : buf.length ≤ j) :
    Wrote R k i s0 cs y { t with writers := Function.update t.writers p ⟨calls, 0⟩ } := by
  refine ⟨h.on, h.off, h.bytes, h.size, fun q => ?_, h.pieces⟩
  by_cases hq : q = p
  · subst hq
    have hprog := h.progress q
    rw [hw] at hprog
    simp only [Function.update_self]
    exact hprog.ret hge
  · simp only [Function.update_of_ne hq]
    exact h.progress q

theorem Wrote.step (h : ∃ cs y, Wrote R k i s0 cs y t) (hs : Shared.step k t p = some t') :
    ∃ cs y, Wrote R k i s0 cs y t' := by
  obtain ⟨cs, y, h⟩ := h
  obtain ⟨buf, calls, j, hw, ⟨hlt, n, fs, hn, hrun, rfl⟩ | ⟨hge, rfl⟩⟩ := Shared.step_cases hs
  · have hn32 : n < 2 ^ 32 := Nat.lt_of_le_of_lt (hn ▸ Nat.min_le_right ..) (by decide)
    rcases of_spec (h.on.writeChunk hn32) hrun with ⟨_, hmax, _, hon⟩ | ⟨_, hno, _⟩
    · exact ⟨_, _, h.write hw hlt hn hmax hon⟩
    · omega
  · exact ⟨cs, y, h.ret hw hge⟩

end Wrote

/-- Whatever the order in which the processes take their turns, the offset ends after all bytes that
were written, and there the file holds the pieces one after another, those of each process in the
order of its calls. -/
theorem shared_offset_loses_no_update {t t' : Shared m} {ps : List (Fin m)} (h : On R k i x t.fs)
    (hstart : ∀ p, (t.writers p).i = 0)
    (hrun : runs.run (Shared.step k) t ps = some t') (hend : ∀ p, (t'.writers p).calls = []) :
    ∃ (cs : List (Fin m × List UInt8)) (y : fs.File), t'.fs.file i = some y ∧
      t'.off = t.off + (bytesOf cs).length ∧ (bytesOf cs ≠ [] → t'.off ≤ y.size) ∧
      slice y.data t.off (t'.off - t.off) = bytesOf cs ∧
      (∀ p, bytesBy p cs = (t.writers p).calls.flatten) ∧
      ∀ c ∈ cs, ∃ buf ∈ (t.writers c.1).calls, IsPiece buf c.2 := by
  have hinit : Wrote R k i t [] x t := by
    refine ⟨h, rfl, rfl, fun hne => absurd rfl hne,
      fun p => ⟨rfl, List.suffix_refl _, fun _ _ _ => ?_⟩, fun c hc => absurd hc List.not_mem_nil⟩
    rw [hstart p]
    exact ⟨Nat.zero_le _, fun _ => dvd_zero _⟩
  obtain ⟨cs, y, hw⟩ := runs.inv_of_run (fun _ _ _ => Wrote.step) ⟨[], x, hinit⟩ hrun
  refine ⟨cs, y, hw.on.file, hw.off, hw.size, ?_, fun p => ?_, hw.pieces⟩
  · rw [hw.off, Nat.add_sub_cancel_left]
    exact hw.bytes
  · have hbytes := (hw.progress p).bytes
    rwa [Writer.left, hend p, Writer.left, hstart p, List.flatten_nil, List.drop_nil,
      List.append_nil, List.drop_zero] at hbytes

/-- Two processes at the end of the file: one writes a byte more than a piece,
the other one byte. -/
def twoWriters : Shared 2 :=
  { fs := smallFs, off := 10,
    writers := fun p => if p = 0 then ⟨[List.replicate (maxWrite + 1) 1], 0⟩ else ⟨[[4]], 0⟩ }

theorem two_writers_share_an_offset :
    ∃ x t', On (· < 8) 1 2 x smallFs ∧ x.type = T_FILE ∧
      runs.run (Shared.step 1) twoWriters [0, 1, 0, 1, 0] = some t' ∧
      (∀ p, (t'.writers p).calls = []) ∧
      ∃ (cs : List (Fin 2 × List UInt8)) (y : fs.File), t'.fs.file 2 = some y ∧
        t'.off = 10 + (bytesOf cs).length ∧ (bytesOf cs ≠ [] → t'.off ≤ y.size) ∧
        slice y.data 10 (t'.off - 10) = bytesOf cs ∧
        (∀ p, bytesBy p cs = (twoWriters.writers p).calls.flatten) ∧
        ∀ c ∈ cs, ∃ buf ∈ (twoWriters.writers c.1).calls, IsPiece buf c.2 := by
  obtain ⟨x, hx, hty⟩ := smallFs_on
  obtain ⟨t', hrun, hend⟩ : ∃ t', runs.run (Shared.step 1) twoWriters [0, 1, 0, 1, 0] = some t' ∧
      ∀ p, (t'.writers p).calls = [] := by decide +kernel
  exact ⟨x, t', hx, hty, hrun, hend, shared_offset_loses_no_update hx (by decide) hrun hend⟩

end xv6.sysfile
