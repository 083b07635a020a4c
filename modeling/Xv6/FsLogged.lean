-- Which blocks the functions of fs.c log. On a disk with one block of bitmap, writei logs the
-- blocks that its bytes go to, the bitmap if one of them is new, the indirect block if a new one is
-- behind it, and the block of the inode if the file grows.
import Mathlib.Order.Interval.Finset.Nat
import Xv6.FsGood

open List bytes WP

namespace xv6.fs

/-! ## Blocks that are logged -/

/-- From `s` to `u`, the blocks with `X` are logged, and no other ones. -/
structure Logs (s : Fs) (X : Nat → Prop) (u : Fs) : Prop where
  mem : ∀ b, b ∈ u.lh ↔ b ∈ s.lh ∨ X b
  nodup : s.lh.Nodup → u.lh.Nodup

section Logs

variable {s t u : Fs} {X Y : Nat → Prop}

theorem logs_none (h : ∀ b, ¬ X b) : Logs s X s :=
  ⟨fun b => by simp [h b], id⟩

theorem logs_logged (s : Fs) (b : Nat) (data : Block) : Logs s (· = b) (s.logged b data) :=
  ⟨log.mem_absorb s.lh b, log.nodup_absorb b⟩

theorem Logs.trans (h1 : Logs s X t) (h2 : Logs t Y u) : Logs s (fun b => X b ∨ Y b) u :=
  ⟨fun b => by rw [h2.mem, h1.mem, or_assoc], fun h => h2.nodup (h1.nodup h)⟩

theorem Logs.congr (h : Logs s X u) (hXY : ∀ b, X b ↔ Y b) : Logs s Y u :=
  ⟨fun b => by rw [h.mem, hXY], h.nodup⟩

/-- A change of other parts of the state logs nothing. -/
theorem Logs.of_lh (h : Logs s X t) (hlh : u.lh = t.lh) : Logs s X u :=
  ⟨fun b => by rw [hlh, h.mem], fun hn => by rw [hlh]; exact h.nodup hn⟩

end Logs

theorem noRoom (s : Fs) (U : Finset Nat) (m : Nat) : Enough False s U m :=
  ⟨⟨False.elim, False.elim, False.elim⟩, False.elim⟩

/-! ## Programs that log nothing -/

/-- Only the inode cache differs. -/
def SameDisk (s u : Fs) : Prop := ∃ c, u = { s with icache := c }

theorem SameDisk.trans {s t u : Fs} (h1 : SameDisk s t) (h2 : SameDisk t u) : SameDisk s u := by
  obtain ⟨c, rfl⟩ := h1
  obtain ⟨c', rfl⟩ := h2
  exact ⟨c', rfl⟩

/-- A program that changes the inode cache only, however it ends. -/
def Quiet {α : Type} (x : FsM α) : Prop := ∀ s, spec x s (fun _ => SameDisk s) (fun _ => SameDisk s)

section Quiet

variable {α β : Type} {x : FsM α} {f : α → FsM β}

theorem quiet_pure (a : α) : Quiet (pure a : FsM α) := fun s => (spec_pure a).mpr ⟨s.icache, rfl⟩

theorem quiet_throw (e : Stop) : Quiet (throw e : FsM α) := fun s =>
  (spec_throw e).mpr ⟨s.icache, rfl⟩

theorem quiet_get : Quiet (get : FsM Fs) := fun s => spec_get.mpr ⟨s.icache, rfl⟩

theorem Quiet.bind (h : Quiet x) (hf : ∀ a, Quiet (f a)) : Quiet (x >>= f) := by
  intro s
  rw [spec_bind]
  apply spec_mono (h s) _ fun _ _ he => he
  intro a t ht
  exact spec_mono (hf a t) (fun _ _ hu => ht.trans hu) (fun _ _ hu => ht.trans hu)

theorem quiet_ite {p : Prop} [Decidable p] {y : FsM α} (h1 : Quiet x) (h2 : Quiet y) :
    Quiet (if p then x else y) := by
  split
  · exact h1
  · exact h2

theorem quiet_setInode (k : Nat) (f : Inode → Inode) : Quiet (setInode k f) := fun s => by
  unfold setInode
  exact (spec_modify _).mpr ⟨_, rfl⟩

theorem quiet_bread (b : Nat) : Quiet (bread b) := quiet_get.bind fun _ => quiet_pure _

theorem quiet_iget (dev inum : Nat) : Quiet (iget dev inum) := by
  refine quiet_get.bind fun s => ?_
  split
  · exact (quiet_setInode _ _).bind fun _ => quiet_pure _
  · split
    · exact quiet_throw _
    · exact (quiet_setInode _ _).bind fun _ => quiet_pure _

theorem quiet_idup (k : Nat) : Quiet (idup k) := (quiet_setInode _ _).bind fun _ => quiet_pure _

theorem quiet_ilock (k : Nat) : Quiet (ilock k) := by
  refine quiet_get.bind fun s => quiet_ite (quiet_throw _) (quiet_ite (quiet_throw _) ?_)
  refine (quiet_setInode _ _).bind fun _ => quiet_ite ?_ (quiet_pure _)
  refine (quiet_bread _).bind fun b => (quiet_setInode _ _).bind fun _ => ?_
  exact quiet_ite (quiet_throw _) (quiet_pure _)

theorem quiet_iunlock (k : Nat) : Quiet (iunlock k) :=
  quiet_get.bind fun _ => quiet_ite (quiet_throw _) (quiet_setInode _ _)

end Quiet

section Bmap

variable {R : Nat → Prop} {s : Fs} {k bn : Nat}

theorem log_write_logs (b : Nat) (data : Block) :
    spec (log_write b data) s (fun _ u => u = s.logged b data) (fun _ _ => True) :=
  spec_mono (log_write_spec (noRoom s ∅ 0).toRoom b data) (fun _ _ h => h) (fun _ _ _ => trivial)

theorem ballocFrom_logs (sb : Superblock) (n q : Nat) : spec (ballocFrom sb n (q * BPB)) s
      (fun b u => Logs s (fun x => x = BBLOCK b sb ∨ x = b) u) (fun _ _ => True) := by
  induction n generalizing q with
  | zero => exact (spec_throw _).mpr trivial
  | succ n ih =>
    rw [ballocFrom, spec_bind]
    simp only [bread, spec_bind, spec_get, spec_pure]
    cases hf : freeBit (s.blocks (BBLOCK (q * BPB) sb)) sb.size (q * BPB) BPB 0 with
    | some bi =>
      obtain ⟨_, hlt, _⟩ := freeBit_eq_some hf
      have hblk : BBLOCK (q * BPB + bi) sb = BBLOCK (q * BPB) sb := by
        simp only [BBLOCK, BPB, BSIZE] at *
        omega
      simp only [spec_bind, bzero]
      apply spec_mono (log_write_logs _ _) _ (fun _ _ _ => trivial)
      rintro _ t rfl
      apply spec_mono (log_write_logs _ _) _ (fun _ _ _ => trivial)
      rintro _ u rfl
      rw [spec_pure, hblk]
      exact (logs_logged ..).trans (logs_logged ..)
    | none =>
      have hnext := ih (q + 1)
      rw [Nat.succ_mul] at hnext
      exact hnext

theorem balloc_logs : spec balloc s (fun b u => Logs s (fun x => x = BBLOCK b s.sb ∨ x = b) u)
    (fun _ _ => True) := by
  unfold balloc
  rw [spec_bind, spec_get]
  have hfrom := ballocFrom_logs (s := s) s.sb ((s.sb.size + BPB - 1) / BPB) 0
  rwa [Nat.zero_mul] at hfrom

/-- A disk with one block of bitmap. -/
theorem BBLOCK_of_one {sb : Superblock} {b : Nat} (hone : sb.size ≤ BPB) (hb : b < sb.size) :
    BBLOCK b sb = sb.bmapstart := by
  unfold BBLOCK
  rw [Nat.div_eq_of_lt (Nat.lt_of_lt_of_le hb hone), Nat.zero_add]

/-- What `balloc` takes and what it logs. -/
theorem balloc_took (h : Opened R s k) (hone : s.sb.size ≤ BPB) :
    spec balloc s (fun b u => Took s b u ∧ Logs s (fun x => x = s.sb.bmapstart ∨ x = b) u)
      (fun _ _ => True) := by
  apply spec_mono (spec_and (balloc_spec (P := False) (U := ∅) (m := 0) h.blocks.geometry
    h.blocks.bit_meta (noRoom ..)) balloc_logs) _ (fun _ _ _ => trivial)
  rintro b u ⟨⟨ht, _⟩, hl⟩
  rw [BBLOCK_of_one hone ht.lt] at hl
  exact ⟨ht, hl⟩

/-- A new block for an entry of `addrs`. -/
theorem baddr_logs (h : Opened R s k) (hone : s.sb.size ≤ BPB) {i : Nat} (hi : i ≤ NDIRECT)
    (h0 : (s.icache k).din.addr i = 0) : spec (baddr k i) s
      (fun a u => ∃ t, Took s a t ∧ u = t.withDin k ((s.icache k).din.setAddr i a) ∧
        Opened R u k ∧ (u.icache k).din.addr i = a ∧
        Logs s (fun x => x = s.sb.bmapstart ∨ x = a) u) (fun _ _ => True) := by
  unfold baddr
  simp only [spec_bind, spec_get, if_pos h0, spec_pure, spec_setDin]
  apply spec_mono (balloc_took h hone) _ (fun _ _ _ => trivial)
  rintro a t ⟨ht, hl⟩
  rw [ht.frame.icache]
  refine ⟨t, ht, rfl, (h.setAddr hi h0 ht).1, ?_, hl.of_lh rfl⟩
  simp only [Fs.withDin, Function.update_self]
  exact Dinode.addr_setAddr_self (ht.lt_uint h.blocks.geometry)

/-- A new block for an entry of the indirect block. -/
theorem bentry_logs (h : Opened R s k) (hone : s.sb.size ≤ BPB) {j : Nat} (hj : j < NINDIRECT)
    (hind : (s.icache k).din.addr NDIRECT ≠ 0)
    (hnone : s.places k ((s.icache k).inum, .entry j) = none) :
    spec (bentry ((s.icache k).din.addr NDIRECT) j) s
      (fun a u => u.icache = s.icache ∧ Logs s (fun x => x = s.sb.bmapstart ∨ x = a ∨
        x = (s.icache k).din.addr NDIRECT) u) (fun _ _ => True) := by
  have h0 : word (s.blocks ((s.icache k).din.addr NDIRECT)) j = 0 := by
    rw [h.places_entry hj hind] at hnone
    by_contra hne
    simp [nonzero, hne] at hnone
  unfold bentry
  simp only [bread, spec_bind, spec_get, spec_pure, if_pos h0]
  apply spec_mono (balloc_took h hone) _ (fun _ _ _ => trivial)
  rintro a t ⟨ht, hl⟩
  apply spec_mono (log_write_logs _ _) _ (fun _ _ _ => trivial)
  rintro _ u rfl
  exact ⟨ht.frame.icache, (hl.trans (logs_logged ..)).congr fun b => or_assoc⟩

/-- The blocks that `bmap` of block `bn` logs when it returns `a` and leaves `u`. -/
def mapLogs (s : Fs) (k bn a : Nat) (u : Fs) (x : Nat) : Prop :=
  s.places k ((s.icache k).inum, place bn) = none ∧
    (x = s.sb.bmapstart ∨ x = a ∨ NDIRECT ≤ bn ∧ x = (u.icache k).din.addr NDIRECT)

theorem bmap_logs (h : Opened R s k) (hone : s.sb.size ≤ BPB) (hlt : bn < MAXFILE) :
    spec (bmap k bn) s (fun a u => Logs s (mapLogs s k bn a u) u) (fun _ _ => True) := by
  cases hp : s.places k ((s.icache k).inum, place bn) with
  | some a =>
    rw [bmap_mapped h hlt hp]
    exact logs_none fun b hb => absurd (hp.symm.trans hb.1) (by simp)
  | none =>
    have hself := h.places_self (place bn)
    rw [hp] at hself
    unfold bmap
    by_cases hbn : bn < NDIRECT
    · have h0 : (s.icache k).din.addr bn = 0 := by
        rw [show place bn = .addr bn from if_pos hbn] at hself
        simp only [Dinode.holds, if_pos (Nat.le_of_lt hbn)] at hself
        by_contra hne
        simp [nonzero, hne] at hself
      rw [if_pos hbn]
      apply spec_mono (baddr_logs h hone (Nat.le_of_lt hbn) h0) _ (fun _ _ _ => trivial)
      rintro a u ⟨t, _, _, _, _, hl⟩
      apply hl.congr fun x => ?_
      simp [mapLogs, hp, Nat.not_le.mpr hbn]
    · have hj : bn - NDIRECT < NINDIRECT := by grind
      have hplace : place bn = .entry (bn - NDIRECT) := if_neg hbn
      rw [if_neg hbn, if_pos hj, spec_bind]
      by_cases h0 : (s.icache k).din.addr NDIRECT = 0
      · -- the indirect block is new, and has no entries
        apply spec_mono (baddr_logs h hone (Nat.le_refl _) h0) _ (fun _ _ _ => trivial)
        rintro ind t ⟨t', ht, hteq, ho, rfl, hl⟩
        have hsb : t.sb = s.sb := by
          rw [hteq]
          exact ht.frame.sb
        have hne : (t.icache k).din.addr NDIRECT ≠ 0 := ht.ne_zero h.blocks.geometry
        have hin : (t.icache k).inum = (s.icache k).inum := by
          rw [hteq]
          simp [Fs.withDin, ht.frame.icache]
        have hnone : t.places k ((t.icache k).inum, .entry (bn - NDIRECT)) = none := by
          rw [hin, hteq, places_setAddr h (Nat.le_refl _) h0 ht,
            Function.update_of_ne (by simp), ← hplace]
          exact hp
        apply spec_mono (bentry_logs ho (hsb ▸ hone) hj hne hnone) _ (fun _ _ _ => trivial)
        rintro a u ⟨hic, hl'⟩
        apply (hl.trans hl').congr fun x => ?_
        simp only [mapLogs, hp, hic, hsb, Nat.not_lt.mp hbn, true_and]
        tauto
      · unfold baddr
        simp only [spec_bind, spec_get, if_neg h0, spec_pure]
        rw [hplace] at hp
        apply spec_mono (bentry_logs h hone hj h0 hp) _ (fun _ _ _ => trivial)
        rintro a u ⟨hic, hl⟩
        apply hl.congr fun x => ?_
        simp only [mapLogs, hplace, hp, hic, Nat.not_lt.mp hbn, true_and]

end Bmap

/-! ## writei -/

/-- Block `bn` of a file has bytes among the `n` at `off`. -/
def spans (off n bn : Nat) : Prop := ∃ x, off ≤ x ∧ x < off + n ∧ x / BSIZE = bn

theorem spans_zero (off bn : Nat) : ¬ spans off 0 bn := by
  rintro ⟨x, h1, h2, _⟩
  omega

/-- The bytes of one more block. -/
theorem spans_add {off done m bn : Nat} (h0 : 0 < m) (hm : m ≤ BSIZE - (off + done) % BSIZE) :
    spans off (done + m) bn ↔ spans off done bn ∨ bn = (off + done) / BSIZE := by
  constructor
  · rintro ⟨x, h1, h2, rfl⟩
    by_cases hx : x < off + done
    · exact Or.inl ⟨x, h1, hx, rfl⟩
    · grind
  · rintro (⟨x, h1, h2, rfl⟩ | rfl)
    · exact ⟨x, h1, by omega, rfl⟩
    · exact ⟨off + done, by omega, by omega, rfl⟩

theorem spans_append {off a b bn : Nat} :
    spans off (a + b) bn ↔ spans off a bn ∨ spans (off + a) b bn := by
  constructor
  · rintro ⟨x, h1, h2, rfl⟩
    by_cases hx : x < off + a
    · exact Or.inl ⟨x, h1, hx, rfl⟩
    · exact Or.inr ⟨x, by omega, by omega, rfl⟩
  · rintro (⟨x, h1, h2, rfl⟩ | ⟨x, h1, h2, rfl⟩)
    · exact ⟨x, h1, by omega, rfl⟩
    · exact ⟨x, by omega, by omega, rfl⟩

section WriteLoop

variable {R : Nat → Prop} {s0 s t u : Fs} {k off done n : Nat} {src : Nat → UInt8}

/-- What the loop of `writei` logged when `done` bytes at `off` are written. -/
def loopLogs (s0 : Fs) (k off done : Nat) (s : Fs) (x : Nat) : Prop :=
  ∃ bn, spans off done bn ∧
    (s.places k ((s0.icache k).inum, place bn) = some x ∨
      s0.places k ((s0.icache k).inum, place bn) = none ∧
        (x = s0.sb.bmapstart ∨ NDIRECT ≤ bn ∧ x = (s.icache k).din.addr NDIRECT))

/-- A block behind the indirect block is there with it. -/
theorem Opened.indirect_ne (h : Opened R s k) {bn : Nat} (hbn : NDIRECT ≤ bn)
    (hp : s.places k ((s.icache k).inum, place bn) ≠ none) : (s.icache k).din.addr NDIRECT ≠ 0 := by
  rw [h.places_self, show place bn = .entry (bn - NDIRECT) from if_neg (Nat.not_lt.mpr hbn)] at hp
  intro h0
  simp [Dinode.holds, h0] at hp

/-- An indirect block stays. -/
theorem Grew.indirect {T : Place → Prop} (hg : Grew s k T t) (h : Opened R s k) (ht : Opened R t k)
    (h0 : (s.icache k).din.addr NDIRECT ≠ 0) :
    (t.icache k).din.addr NDIRECT = (s.icache k).din.addr NDIRECT := by
  have hkeep := hg.keep _ _ (h.places_indirect h0)
  rw [← hg.slot.inum, ht.places_self] at hkeep
  simp only [Dinode.holds, Nat.le_refl, if_true] at hkeep
  exact (nonzero_eq_some.mp hkeep).1

/-- One turn of the loop. -/
theorem Written.turn_logs {a m : Nat} {data : Block} (hw : Written R s0 k src off done s)
    (hlog : Logs s0 (loopLogs s0 k off done s) s)
    (hm : Mapped R False s k ((off + done) / BSIZE) ∅ 0 a t)
    (hmap : Logs s (mapLogs s k ((off + done) / BSIZE) a t) t) (h0 : 0 < m)
    (hle : m ≤ BSIZE - (off + done) % BSIZE) :
    Logs s0 (loopLogs s0 k off (done + m) (t.logged a data)) (t.logged a data) := by
  have hin := hw.slot.inum
  have hti : (t.icache k).inum = (s.icache k).inum := hm.grew.slot.inum
  have ha : t.places k ((t.icache k).inum, place ((off + done) / BSIZE)) = some a := by
    rw [hti]
    exact hm.place
  have hat : t.places k ((s0.icache k).inum, place ((off + done) / BSIZE)) = some a := by
    rw [← hin]
    exact hm.place
  have hplaces : ∀ q, (t.logged a data).places k q = t.places k q := places_overwrite hm.opened ha
  -- the blocks of the bytes before are where they were
  have hkeep : ∀ bn, spans off done bn → t.places k ((s0.icache k).inum, place bn) =
      s.places k ((s0.icache k).inum, place bn) := by
    rintro bn ⟨x, h1, h2, rfl⟩
    obtain ⟨b, hb⟩ := Option.ne_none_iff_exists'.mp (hw.filled x h1 h2)
    rw [hb, hm.grew.keep _ b hb]
  have hind : ∀ bn, spans off done bn → NDIRECT ≤ bn →
      (t.icache k).din.addr NDIRECT = (s.icache k).din.addr NDIRECT := by
    rintro bn ⟨x, h1, h2, rfl⟩ hbn
    apply hm.grew.indirect hw.opened hm.opened (hw.opened.indirect_ne hbn _)
    rw [hin]
    exact hw.filled x h1 h2
  have hnew : s.places k ((s0.icache k).inum, place ((off + done) / BSIZE)) = none →
      s0.places k ((s0.icache k).inum, place ((off + done) / BSIZE)) = none := by
    intro hs
    cases hs0 : s0.places k ((s0.icache k).inum, place ((off + done) / BSIZE)) with
    | none => rfl
    | some b => rw [hw.keep _ b hs0] at hs; cases hs
  -- a block that was not there and is now was one of those before
  have hold : s0.places k ((s0.icache k).inum, place ((off + done) / BSIZE)) = none →
      s.places k ((s0.icache k).inum, place ((off + done) / BSIZE)) ≠ none →
      spans off done ((off + done) / BSIZE) := by
    intro hs0 hs
    obtain ⟨b, hb⟩ := Option.ne_none_iff_exists'.mp hs
    obtain ⟨_, x, h1, h2, h3⟩ := hw.fresh _ b hs0 hb
    rcases h3 with h3 | ⟨_, h3⟩
    · exact ⟨x, h1, h2, (place_inj h3).symm⟩
    · exact absurd h3 (place_ne_indirect _)
  have hold_logs : ∀ x bn, spans off done bn →
        ((s.places k ((s0.icache k).inum, place bn) = some x ∨
        s0.places k ((s0.icache k).inum, place bn) = none ∧
          (x = s0.sb.bmapstart ∨ NDIRECT ≤ bn ∧ x = (s.icache k).din.addr NDIRECT)) ↔
      (t.places k ((s0.icache k).inum, place bn) = some x ∨
        s0.places k ((s0.icache k).inum, place bn) = none ∧
          (x = s0.sb.bmapstart ∨ NDIRECT ≤ bn ∧ x = (t.icache k).din.addr NDIRECT))) := by
    intro x bn hsp
    rw [hkeep bn hsp]
    refine or_congr_right (and_congr_right fun _ => or_congr_right (and_congr_right fun hbn => ?_))
    rw [hind bn hsp hbn]
  apply ((hlog.trans hmap).trans (logs_logged t a data)).congr fun x => ?_
  unfold loopLogs mapLogs
  simp only [hplaces, spans_add h0 hle, hin, hw.slot.sb]
  constructor
  · rintro ((⟨bn, hsp, hx⟩ | ⟨hs, hx⟩) | rfl)
    · exact ⟨bn, Or.inl hsp, (hold_logs x bn hsp).mp hx⟩
    · refine ⟨_, Or.inr rfl, ?_⟩
      rcases hx with hx | rfl | hx
      · exact Or.inr ⟨hnew hs, Or.inl hx⟩
      · exact Or.inl hat
      · exact Or.inr ⟨hnew hs, Or.inr hx⟩
    · exact ⟨_, Or.inr rfl, Or.inl hat⟩
  · rintro ⟨bn, hsp | rfl, hx⟩
    · exact Or.inl (Or.inl ⟨bn, hsp, (hold_logs x bn hsp).mpr hx⟩)
    · rcases hx with hx | ⟨hs0, hx⟩
      · grind
      · by_cases hs : s.places k ((s0.icache k).inum, place ((off + done) / BSIZE)) = none
        · refine Or.inl (Or.inr ⟨hs, ?_⟩)
          rcases hx with hx | hx
          · exact Or.inl hx
          · exact Or.inr (Or.inr hx)
        · have hsp := hold hs0 hs
          exact Or.inl (Or.inl ⟨_, hsp, (hold_logs x _ hsp).mpr (Or.inr ⟨hs0, hx⟩)⟩)

theorem writeLoop_logs (hone : s0.sb.size ≤ BPB) (fuel : Nat) : ∀ (done left : Nat) (s : Fs),
    left ≤ fuel → off + done + left ≤ MAXFILE * BSIZE → Written R s0 k src off done s →
    Logs s0 (loopLogs s0 k off done s) s →
    spec (writeLoop k src fuel done (off + done) left) s
        (fun _ u => Written R s0 k src off (done + left) u ∧
        Logs s0 (loopLogs s0 k off (done + left) u) u) (fun _ _ => True) := by
  induction fuel with
  | zero =>
    intro done left s hfuel _ hw hlog
    obtain rfl : left = 0 := by omega
    rw [writeLoop, spec_pure]
    exact ⟨hw, hlog⟩
  | succ fuel ih =>
    intro done left s hfuel hmax hw hlog
    rw [writeLoop, spec_ite]
    refine ⟨fun h0 => ?_, fun h0 => ?_⟩
    · grind [spec_pure]
    · have hbn : (off + done) / BSIZE < MAXFILE := by grind
      have hm0 : 0 < min left (BSIZE - (off + done) % BSIZE) := by
        simp only [BSIZE]
        omega
      simp only [bread, spec_bind, spec_get, spec_pure]
      apply spec_mono (spec_and (bmap_spec (P := False) (U := ∅) (m := 0) hw.opened hbn
        (Or.inl (noRoom ..))) (bmap_logs hw.opened (hw.slot.sb ▸ hone) hbn)) _
        (fun _ _ _ => trivial)
      rintro a t ⟨hm, hmap⟩
      apply spec_mono (log_write_logs _ _) _ (fun _ _ _ => trivial)
      rintro _ u rfl
      rw [Nat.add_assoc]
      apply spec_mono (ih _ (left - min left (BSIZE - (off + done) % BSIZE)) _ (by omega) (by omega)
        (hw.turn hm hm0 (Nat.min_le_right ..) hbn)
        (hw.turn_logs hlog hm hmap hm0 (Nat.min_le_right ..))) _ (fun _ _ _ => trivial)
      rintro _ u ⟨hw', hlog'⟩
      rw [Nat.add_assoc, Nat.add_sub_cancel' (Nat.min_le_left ..)] at hw' hlog'
      exact ⟨hw', hlog'⟩

/-- A changed copy is stored. -/
theorem store_logs (d : Dinode) : spec (iupdate k) (t.withDin k d)
    (fun _ u => Logs t (· = IBLOCK (t.icache k).inum t.sb) u) (fun _ _ => True) := by
  have hinum : ((t.withDin k d).icache k).inum = (t.icache k).inum := by simp [Fs.withDin]
  unfold iupdate
  simp only [bread, spec_bind, spec_get, spec_pure, hinum]
  apply spec_mono (log_write_logs _ _) _ (fun _ _ _ => trivial)
  rintro _ u rfl
  exact ⟨log.mem_absorb t.lh _, log.nodup_absorb _⟩

/-- The blocks are where they were after the new size is stored. -/
theorem Written.loopLogs_stored (hw : Written R s0 k src off n t)
    (hst : Stored (t.withDin k ((t.icache k).din.sized (off + n))) (t.icache k).inum
      ((t.icache k).din.sized (off + n)) u) (x : Nat) :
    loopLogs s0 k off n u x ↔ loopLogs s0 k off n t x := by
  have haddrs : ((t.icache k).din.sized (off + n)).addrs = (t.icache k).din.addrs := rfl
  have hic := (view_stored hw.opened hst).1
  unfold loopLogs
  simp only [places_stored hw.opened haddrs hw.opened.type_ne hst, hic]
  rfl

/-- The blocks that `writei` logs when it leaves `u`. -/
def writeLogs (s : Fs) (k off n : Nat) (u : Fs) (x : Nat) : Prop :=
  loopLogs s k off n u x ∨
    (s.icache k).din.size.toNat < off + n ∧ x = IBLOCK (s.icache k).inum s.sb

/-- `writei` where it does not return -1, on a disk with one block of bitmap. -/
theorem writei_logs (h : Opened R s k) (hone : s.sb.size ≤ BPB)
    (hty : (s.icache k).din.type ≠ T_DEV) (hn : 0 < n) (hoff : off ≤ (s.icache k).din.size.toNat)
    (hmax : off + n ≤ MAXFILE * BSIZE) :
    spec (writei k src off n) s
      (fun r u => r = n ∧ Wrote R s k src off n u ∧ Logs s (writeLogs s k off n u) u)
      (fun _ _ => True) := by
  have hlt : off + n < 2 ^ 32 := by grind
  have huint : uint (off + n) = off + n := Nat.mod_eq_of_lt hlt
  unfold writei
  simp only [spec_bind, spec_get]
  rw [if_neg hty, if_neg (by omega), huint, if_neg (Nat.not_lt.mpr hmax)]
  simp only [spec_bind]
  apply spec_mono (writeLoop_logs hone n 0 n s (Nat.le_refl _) hmax (Written.start h src off)
    (logs_none fun x hx => spans_zero off _ hx.choose_spec.1)) _ (fun _ _ _ => trivial)
  rintro _ t ⟨hw, hlog⟩
  rw [Nat.zero_add] at hw hlog
  simp only [spec_ite, spec_bind, spec_pure, spec_setDin]
  refine ⟨fun hgrow => ?_, fun hsame => ⟨trivial, Or.inl ⟨by omega, hw⟩, ?_⟩⟩
  · apply spec_mono (spec_and (store_spec (P := False) (U := ∅) (m := 0) hw.opened _ False.elim
      (noRoom ..)) (store_logs _)) _ (fun _ _ _ => trivial)
    rintro _ u ⟨⟨hst, _⟩, hl⟩
    refine ⟨trivial, Or.inr ⟨hgrow.2, t, hw, hst⟩, (hlog.trans hl).congr fun x => ?_⟩
    rw [hw.slot.inum, hw.slot.sb]
    exact or_congr (hw.loopLogs_stored hst x).symm (and_iff_right hgrow.2).symm
  · apply hlog.congr fun x => ?_
    have hle : ¬ (s.icache k).din.size.toNat < off + n := fun hc => hsame ⟨hn, hc⟩
    simp [writeLogs, hle]

end WriteLoop

/-! ## How many blocks -/

/-- The blocks of a file that the `n` bytes at `off` are in. -/
def spanBlocks (off n : Nat) : List Nat := List.range' (off / BSIZE) (spanned off n)

theorem mem_spanBlocks {off n bn : Nat} : bn ∈ spanBlocks off n ↔ spans off n bn := by
  unfold spanBlocks spans spanned
  rw [mem_range'_1]
  constructor
  · intro h
    refine ⟨max off (bn * BSIZE), ?_⟩
    simp only [BSIZE] at *
    split at h <;> omega
  · grind

theorem length_spanBlocks (off n : Nat) : (spanBlocks off n).length = spanned off n :=
  length_range'

/-- How many blocks a write of `n` bytes at `off` logs, in a file of `size` bytes without
the blocks that `absent` says: those of the bytes, the bitmap, the indirect block and the
block of the inode. -/
def writeCost (absent : Nat → Bool) (size off n : Nat) : Nat :=
  spanned off n + (if (spanBlocks off n).any absent then 1 else 0) +
    (if (spanBlocks off n).any fun bn => decide (NDIRECT ≤ bn) && absent bn then 1 else 0) +
    (if size < off + n then 1 else 0)

/-- A file ends at or after the bytes that come before. -/
theorem writeCost_max {absent : Nat → Bool} {size off n : Nat} (hn : 0 < n) :
    writeCost absent (max size off) off n = writeCost absent size off n := by
  unfold writeCost
  have : max size off < off + n ↔ size < off + n := by omega
  simp only [this]

section Count

variable {R : Nat → Prop} {s u : Fs} {k off n : Nat} {src : Nat → UInt8}

/-- What is held after `writei`. -/
theorem Wrote.places (hw : Wrote R s k src off n u) : ∃ t, Written R s k src off n t ∧
    (∀ q, u.places k q = t.places k q) ∧ Opened R u k ∧
    (u.icache k).inum = (s.icache k).inum ∧ u.sb = s.sb := by
  rcases hw with ⟨_, hw⟩ | ⟨_, t, hw, hst⟩
  · exact ⟨u, hw, fun _ => rfl, hw.opened, hw.slot.inum, hw.slot.sb⟩
  · have haddrs : ((t.icache k).din.sized (off + n)).addrs = (t.icache k).din.addrs := rfl
    refine ⟨t, hw, places_stored hw.opened haddrs hw.opened.type_ne hst,
      hw.opened.stored haddrs hw.opened.type_ne hst, ?_, hst.frame.sb.trans hw.slot.sb⟩
    rw [(view_stored hw.opened hst).1]
    exact hw.slot.inum

/-- `b`, if there is a reason for it. -/
def oneIf (c : Prop) [Decidable c] (b : Nat) : List Nat := if c then [b] else []

theorem mem_oneIf {c : Prop} [Decidable c] {b x : Nat} : x ∈ oneIf c b ↔ c ∧ x = b := by
  unfold oneIf
  split <;> simp_all

theorem nodup_oneIf {c : Prop} [Decidable c] {b : Nat} : (oneIf c b).Nodup := by
  unfold oneIf
  split <;> simp

theorem length_oneIf {c : Prop} [Decidable c] {b : Nat} :
    (oneIf c b).length = if c then 1 else 0 := by
  unfold oneIf
  split <;> rfl

/-- The blocks of the file, the indirect block, the bitmap and the block of the inode are different
ones. -/
theorem Opened.nodup_blocks (h : Opened R u k) (bns : List Nat) (hbns : bns.Nodup)
    (hfilled : ∀ bn ∈ bns, u.places k ((u.icache k).inum, place bn) ≠ none)
    {c d e : Prop} [Decidable c] [Decidable d] [Decidable e]
    (hind : d → (u.icache k).din.addr NDIRECT ≠ 0) :
    (bns.map (fun bn => (u.places k ((u.icache k).inum, place bn)).getD 0) ++
      (oneIf c u.sb.bmapstart ++ (oneIf d ((u.icache k).din.addr NDIRECT) ++
        oneIf e (IBLOCK (u.icache k).inum u.sb)))).Nodup := by
  have hmeta := h.blocks.geometry.bmapstart_lt
  have hib := h.blocks.geometry.IBLOCK_lt h.live.2.1
  have hsome : ∀ bn ∈ bns, u.places k ((u.icache k).inum, place bn) =
      some ((u.places k ((u.icache k).inum, place bn)).getD 0) := by
    intro bn hbn
    obtain ⟨b, hb⟩ := Option.ne_none_iff_exists'.mp (hfilled bn hbn)
    rw [hb]
    rfl
  have hdata : ∀ bn ∈ bns, u.sb.nmeta ≤ (u.places k ((u.icache k).inum, place bn)).getD 0 :=
    fun bn hbn => (h.blocks.range (hsome bn hbn)).1
  have hindirect : d → u.sb.nmeta ≤ (u.icache k).din.addr NDIRECT :=
    fun hc => (h.blocks.range (h.places_indirect (hind hc))).1
  rw [nodup_append, nodup_append, nodup_append]
  refine ⟨hbns.map_on fun bn hbn bn' hbn' e => ?_,
    ⟨nodup_oneIf, ⟨nodup_oneIf, nodup_oneIf, ?_⟩, ?_⟩, ?_⟩
  · have h1 := hsome bn hbn
    rw [e] at h1
    have := h.blocks.exact.once _ _ _ h1 (hsome bn' hbn')
    exact place_inj (congrArg Prod.snd this)
  · intro x hx y hy
    obtain ⟨hc, rfl⟩ := mem_oneIf.mp hx
    obtain ⟨_, rfl⟩ := mem_oneIf.mp hy
    have := hindirect hc
    omega
  · intro x hx y hy
    obtain ⟨_, rfl⟩ := mem_oneIf.mp hx
    rcases mem_append.mp hy with hy | hy
    · obtain ⟨hc, rfl⟩ := mem_oneIf.mp hy
      have := hindirect hc
      omega
    · obtain ⟨_, rfl⟩ := mem_oneIf.mp hy
      omega
  · intro x hx y hy
    obtain ⟨bn, hbn, rfl⟩ := mem_map.mp hx
    have hd := hdata bn hbn
    rcases mem_append.mp hy with hy | hy
    · obtain ⟨_, rfl⟩ := mem_oneIf.mp hy
      omega
    · rcases mem_append.mp hy with hy | hy
      · obtain ⟨hc, rfl⟩ := mem_oneIf.mp hy
        intro e
        have h1 := hsome bn hbn
        rw [e] at h1
        have := h.blocks.exact.once _ _ _ h1 (h.places_indirect (hind hc))
        exact place_ne_indirect bn (congrArg Prod.snd this)
      · obtain ⟨_, rfl⟩ := mem_oneIf.mp hy
        omega

/-- How many blocks `writei` logs in a transaction of its own. -/
theorem Wrote.length_lh (hw : Wrote R s k src off n u) (hlog : Logs s (writeLogs s k off n u) u)
    (hlh : s.lh = []) : u.lh.length = writeCost
      (fun bn => (s.places k ((s.icache k).inum, place bn)).isNone) (s.icache k).din.size.toNat
      off n := by
  obtain ⟨t, hwt, hplaces, ho, hin, hsb⟩ := hw.places
  have hfilled : ∀ bn, spans off n bn → u.places k ((s.icache k).inum, place bn) ≠ none := by
    rintro bn ⟨x, h1, h2, rfl⟩
    rw [hplaces]
    exact hwt.filled x h1 h2
  let absent := fun bn => (s.places k ((s.icache k).inum, place bn)).isNone
  have hind : ((spanBlocks off n).any fun bn => decide (NDIRECT ≤ bn) && absent bn) = true →
      (u.icache k).din.addr NDIRECT ≠ 0 := by
    intro hc
    obtain ⟨bn, hbn, hc⟩ := any_eq_true.mp hc
    rw [Bool.and_eq_true, decide_eq_true_eq] at hc
    apply ho.indirect_ne hc.1
    rw [hin]
    exact hfilled bn (mem_spanBlocks.mp hbn)
  have hnodup := ho.nodup_blocks (spanBlocks off n)
    (c := (spanBlocks off n).any absent = true) (e := (s.icache k).din.size.toNat < off + n)
    nodup_range' (fun bn hbn => by rw [hin]; exact hfilled bn (mem_spanBlocks.mp hbn)) hind
  have hperm := (perm_ext_iff_of_nodup (hlog.nodup (by simp [hlh])) hnodup).mpr fun x => ?_
  · rw [hperm.length_eq]
    simp only [length_append, length_map, length_oneIf, length_spanBlocks, writeCost, absent,
      Nat.add_assoc]
  · rw [hlog.mem, hlh]
    simp only [not_mem_nil, false_or, mem_append, mem_map, mem_oneIf, writeLogs,
      loopLogs, hin, hsb, any_eq_true, mem_spanBlocks, Bool.and_eq_true, decide_eq_true_eq,
      absent, Option.isNone_iff_eq_none, ← or_assoc]
    refine or_congr ?_ Iff.rfl
    constructor
    · rintro ⟨bn, hsp, hx | ⟨h0, rfl | ⟨hbn, rfl⟩⟩⟩
      · exact Or.inl (Or.inl ⟨bn, hsp, by rw [hx]; rfl⟩)
      · exact Or.inl (Or.inr ⟨⟨bn, hsp, h0⟩, rfl⟩)
      · exact Or.inr ⟨⟨bn, hsp, hbn, h0⟩, rfl⟩
    · rintro ((⟨bn, hsp, rfl⟩ | ⟨⟨bn, hsp, h0⟩, rfl⟩) | ⟨⟨bn, hsp, hbn, h0⟩, rfl⟩)
      · obtain ⟨b, hb⟩ := Option.ne_none_iff_exists'.mp (hfilled bn hsp)
        exact ⟨bn, hsp, Or.inl (by rw [hb]; rfl)⟩
      · exact ⟨bn, hsp, Or.inr ⟨h0, Or.inl rfl⟩⟩
      · exact ⟨bn, hsp, Or.inr ⟨h0, Or.inr ⟨hbn, rfl⟩⟩⟩

end Count

end xv6.fs
