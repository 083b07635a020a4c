-- The transactions of a system call: the blocks that were logged between each begin_op and its
-- end_op. A write of many bytes is cut into transactions by the number of bytes; how many blocks
-- each of them logs depends on where the bytes go.
import Xv6.Exec
import Xv6.FsLogged
import Xv6.FsSmall

open bytes WP

namespace xv6.sections

open dir fs sysfile
open sysread (OpenFile)

/-! ## The machine -/

/-- The file system, and the header of the log at each `end_op`, the first one first. -/
structure Traced where
  fs : Fs
  ended : List (List Nat)

abbrev TracedM := EStateM Stop Traced

def onFs {α : Type} (x : FsM α) : TracedM α := zoom Traced.fs (fun t s => { s with fs := t }) x

def end_op : TracedM Unit := do
  modify fun s => { s with ended := s.ended ++ [s.fs.lh] }
  onFs fs.end_op

instance : Inodes TracedM where
  iget dev inum := onFs (iget dev inum)
  idup k := onFs (idup k)
  ilock k := onFs (ilock k)
  iunlock k := onFs (iunlock k)
  iput k := onFs (iput k)
  ialloc dev type := onFs (ialloc dev type)
  readi k off n := onFs (readi k off n)
  writei k src off n := onFs (writei k src off n)
  stat k := onFs (stat k)
  update k g := onFs (Inodes.update k g)
  begin_op := onFs begin_op
  end_op := end_op
  panic msg := throw (.panic msg)

/-! ## One transaction of filewrite -/

end xv6.sections

namespace xv6.fs

/-- Block `bn` of inode `i` is not there. -/
def Fs.absent (s : Fs) (i bn : Nat) : Bool := (held s.sb s.blocks s.dinode (i, place bn)).isNone

/-- Inode `i` is a regular file that is open in entry `k` of the cache. Nobody has it locked, and no
transaction is under way. The bitmap is one block. -/
structure Idle (R : Nat → Prop) (s : Fs) (k i : Nat) : Prop where
  good : Good R s
  one : s.sb.size ≤ BPB
  entry : ∃ e, s.entry k = some e ∧ e.inum = i ∧ e.busy = false
  file : ∃ f, s.file i = some f ∧ f.type = T_FILE
  lh : s.lh = []
  outstanding : s.outstanding = 0

section Section

variable {R : Nat → Prop} {s t u : Fs} {k i off n : Nat} {src : Nat → UInt8}

theorem Idle.begin_op (h : Idle R s k i) {Q : Unit → Fs → Prop} {E : Stop → Fs → Prop}
    (hQ : Q () { s with outstanding := 1 }) : spec begin_op s Q E := by
  unfold fs.begin_op
  simp only [spec_bind, spec_get]
  rw [if_neg (by rw [h.lh, h.outstanding]; decide), spec_modify, h.outstanding]
  exact hQ

theorem SameDisk.absent (h : SameDisk s u) : u.absent = s.absent := by
  obtain ⟨c, rfl⟩ := h
  rfl

theorem SameDisk.dinode (h : SameDisk s u) : u.dinode = s.dinode := by
  obtain ⟨c, rfl⟩ := h
  rfl

/-- The file is locked, in a transaction that logged nothing yet. -/
structure Locked (R : Nat → Prop) (s : Fs) (k i : Nat) (t : Fs) : Prop where
  good : Good R t
  entry : ∃ e, t.entry k = some e ∧ e.inum = i ∧ e.busy = true ∧ e.valid = true
  file : t.file = s.file
  disk : SameDisk { s with outstanding := 1 } t

theorem Idle.ilock (h : Idle R s k i) :
    spec (ilock k) { s with outstanding := 1 } (fun _ t => Locked R s k i t) (fun _ _ => True) := by
  obtain ⟨e, he, rfl, _⟩ := h.entry
  obtain ⟨f, hf, _⟩ := h.file
  have hl := live_of_file hf
  have hg : Good R { s with outstanding := 1 } :=
    h.good.of_disk rfl rfl ⟨h.good.valid, h.good.unique, h.good.dev, h.good.nonneg⟩
  apply spec_mono (spec_and (ilock_spec (hg.sound 0) he hl.1 hl.2.1) (quiet_ilock k _)) _
    (fun _ _ _ => trivial)
  rintro _ t ⟨⟨_, _, hsh⟩, hsame⟩
  refine ⟨hsh.good.toGood, ⟨{ e with busy := true, valid := true }, ?_, rfl, rfl, rfl⟩,
    hsh.file, hsame⟩
  rw [hsh.entry, Function.update_self]

/-- What one transaction of `filewrite` does: it writes, or it is refused and logs nothing. -/
structure Section (R : Nat → Prop) (s : Fs) (k i off n : Nat) (r : Int) (u : Fs) : Prop where
  good : Good R u
  entry : ∃ e, u.entry k = some e ∧ e.inum = i ∧ e.busy = false
  file : ∃ f, u.file i = some f ∧ f.type = T_FILE
  sb : u.sb = s.sb
  outstanding : u.outstanding = 1
  wrote : off ≤ (s.dinode i).size.toNat → off + n ≤ MAXFILE * BSIZE → r = n ∧
    u.lh.length = writeCost (s.absent i) (s.dinode i).size.toNat off n ∧
    (u.dinode i).size.toNat = max (s.dinode i).size.toNat (off + n) ∧
    ∀ bn, u.absent i bn = (s.absent i bn && !(spanBlocks off n).contains bn)
  refused : ¬ (off ≤ (s.dinode i).size.toNat ∧ off + n ≤ MAXFILE * BSIZE) → r = -1 ∧ u.lh = []

/-- The blocks that are there after a write. -/
theorem Wrote.absent (hg : Good R t) (hk : InUse t k) (hwhole : Whole R t k)
    (hw : Wrote R t k src off n u) (bn : Nat) : u.absent (t.icache k).inum bn =
      (t.absent (t.icache k).inum bn && !(spanBlocks off n).contains bn) := by
  obtain ⟨t', hwt, hplaces, _, _, hsb⟩ := hw.places
  have hu : held u.sb u.blocks u.dinode = t'.places k := by grind [Fs.places, hw.view]
  have ht : held t.sb t.blocks t.dinode = t.places k := by
    funext q
    rw [hg.places_eq hk]
  unfold Fs.absent
  rw [hu, ht]
  by_cases hsp : spans off n bn
  · have hmem : (spanBlocks off n).contains bn = true := by simpa using mem_spanBlocks.mpr hsp
    obtain ⟨x, h1, h2, rfl⟩ := hsp
    rw [hmem, Bool.not_true, Bool.and_false, Option.isNone_eq_false_iff, Option.isSome_iff_ne_none]
    exact hwt.filled x h1 h2
  · have hmem : (spanBlocks off n).contains bn = false := by
      simpa using fun hc => hsp (mem_spanBlocks.mp hc)
    rw [hmem, Bool.not_false, Bool.and_true]
    cases hp : t.places k ((t.icache k).inum, place bn) with
    | some b => rw [hwt.keep _ b hp]
    | none =>
      cases hp' : t'.places k ((t.icache k).inum, place bn) with
      | none => rfl
      | some b =>
        obtain ⟨_, x, h1, h2, hx⟩ := hwt.fresh _ b hp hp'
        rcases hx with hx | ⟨_, hx⟩
        · exact absurd ⟨x, h1, h2, (place_inj hx).symm⟩ hsp
        · exact absurd hx (place_ne_indirect bn)

/-- The locked file, in the terms of its entry. -/
theorem Locked.whole (h : Idle R s k i) (ht : Locked R s k i t) : InUse t k ∧ Whole R t k ∧
    (t.icache k).inum = i ∧ (t.icache k).din = s.dinode i ∧
    ∃ f, t.file (t.icache k).inum = some f ∧ f.type = T_FILE ∧
    f.size = (s.dinode i).size.toNat := by
  obtain ⟨e, he, rfl, _, hv⟩ := ht.entry
  obtain ⟨f, hf, hty⟩ := h.file
  have hk := Good.inUse he hv
  obtain ⟨_, _, rfl⟩ := entry_eq_some.mp he
  rw [← ht.file] at hf
  have hdin : (t.icache k).din = s.dinode (t.icache k).inum := by
    rw [(ht.good.valid k hk.lt hk.ref hk.valid).2, ht.disk.dinode]
    rfl
  have hsize : f.size = (s.dinode (t.icache k).inum).size.toNat := by
    have hf' := ht.good.file_eq hk
    rw [hf, hdin] at hf'
    rw [Option.some.inj hf']
    rfl
  exact ⟨hk, ht.good.whole hk hf (by rw [hty]; decide), rfl, hdin, f, hf, hty, hsize⟩

/-- Unlock the file after its inode was written. -/
theorem iunlock_section (hg : Good R u)
    (he : ∃ e, u.entry k = some e ∧ e.inum = i ∧ e.busy = true) :
    spec (iunlock k) u (fun _ v => Good R v ∧
      (∃ e, v.entry k = some e ∧ e.inum = i ∧ e.busy = false) ∧
      v.file = u.file ∧ SameDisk u v) (fun _ _ => True) := by
  obtain ⟨e, he, hi, hb⟩ := he
  apply spec_mono (spec_and (iunlock_spec (E := fun _ _ => True) (hg.sound 0) he hb)
    (quiet_iunlock k u)) _ (fun _ _ _ => trivial)
  rintro _ v ⟨hsh, hsame⟩
  refine ⟨hsh.good.toGood, ⟨{ e with busy := false }, ?_, hi, rfl⟩, hsh.file, hsame⟩
  rw [hsh.entry, Function.update_self]

theorem Locked.write (h : Idle R s k i) (ht : Locked R s k i t) (hn : 0 < n) (hn32 : n < 2 ^ 32) :
    spec (writei k src off n) t (fun r u => spec (iunlock k) u
      (fun _ v => Section R s k i off n r v) (fun _ _ => True)) (fun _ _ => True) := by
  obtain ⟨hk, hwhole, hinum, hdin, f, hf, hty, hsize⟩ := ht.whole h
  obtain ⟨e, he, hi, hb, hv⟩ := ht.entry
  have hsb : t.sb = s.sb := by
    obtain ⟨c, rfl⟩ := ht.disk
    rfl
  have hlh : t.lh = [] := by
    obtain ⟨c, rfl⟩ := ht.disk
    exact h.lh
  have hout : t.outstanding = 1 := by
    obtain ⟨c, rfl⟩ := ht.disk
    rfl
  have habsent : t.absent = s.absent := by
    rw [ht.disk.absent]
    rfl
  by_cases hc : off ≤ (s.dinode i).size.toNat ∧ off + n ≤ MAXFILE * BSIZE
  · obtain ⟨hoff, hmax⟩ := hc
    have hlt : off + n < 2 ^ 32 := by grind
    apply spec_mono (writei_logs hwhole.opened (hsb ▸ h.one) hwhole.type hn
      (by rw [hdin]; exact hoff) hmax) _ (fun _ _ _ => trivial)
    rintro r u ⟨rfl, hw, hlog⟩
    have hch := hw.changed ht.good hk hf (by rw [hty]; decide) (hsize ▸ hoff) hlt
    have hsh := hch.shift he (noRoom u _ 0)
    have hcount := hw.length_lh hlog hlh
    have habs := hw.absent ht.good hk hwhole
    have hdinu : u.dinode i = (u.icache k).din := by
      have hview := hw.view ht.good hk hwhole
      obtain ⟨_, _, _, _, hin, _⟩ := hw.places
      rw [← hview, ← hinum, ← hin, view_self]
    have hnew := (hw.whole hwhole (by rw [hdin]; exact hoff) hlt).2.size
    apply spec_mono (iunlock_section (i := i) hch.good ⟨e, by rw [hsh.entry]; exact he, hi, hb⟩) _
      (fun _ _ _ => trivial)
    rintro _ v ⟨hg, hent, hfile, hsame⟩
    refine ⟨hg, hent, ⟨f.write off n src, ?_, hty⟩, ?_, ?_, fun _ _ => ⟨rfl, ?_, ?_, fun bn => ?_⟩,
      fun hc => absurd ⟨hoff, hmax⟩ hc⟩
    · rw [hfile, hch.file, if_pos hinum.symm]
    · obtain ⟨c, rfl⟩ := hsame
      exact hsh.kept.sb.trans hsb
    · obtain ⟨c, rfl⟩ := hsame
      exact hsh.kept.outstanding.trans hout
    · obtain ⟨c, rfl⟩ := hsame
      rw [← habsent]
      rw [hdin, hinum] at hcount
      refine hcount.trans (congrArg (fun a => writeCost a _ off n) (funext fun bn => ?_))
      unfold Fs.absent
      rw [ht.good.places_eq hk]
    · rw [hsame.dinode, hdinu, hnew, hdin]
    · rw [hsame.absent, ← hinum, habs, habsent]
  · have hspec : spec (writei k src off n) t (fun r u => r = -1 ∧ u = t) fun _ _ => True := by
      unfold writei
      simp only [spec_bind, spec_get, hdin]
      rw [if_neg (by rw [← hdin]; exact hwhole.type)]
      simp only [spec_ite, spec_pure, true_and, implies_true]
      intro h1 h2
      exfalso
      unfold uint at h1 h2
      have hle := le_of_full hwhole.full
      rw [hdin] at hle
      simp only [MAXFILE, NDIRECT, NINDIRECT, BSIZE] at hc h2 hle
      omega
    apply spec_mono hspec _ (fun _ _ _ => trivial)
    rintro r u ⟨rfl, rfl⟩
    apply spec_mono (iunlock_section (i := i) ht.good ⟨e, he, hi, hb⟩) _ (fun _ _ _ => trivial)
    rintro _ v ⟨hg, hent, hfile, hsame⟩
    refine ⟨hg, hent, ⟨f, ?_, hty⟩, ?_, ?_, fun h1 h2 => absurd ⟨h1, h2⟩ hc, fun _ => ⟨rfl, ?_⟩⟩
    · rw [hfile, ← hinum]
      exact hf
    · obtain ⟨c, rfl⟩ := hsame
      exact hsb
    · obtain ⟨c, rfl⟩ := hsame
      exact hout
    · obtain ⟨c, rfl⟩ := hsame
      exact hlh

/-- The transaction ends, and the file is as it was between transactions. -/
theorem Section.idle (h : Idle R s k i) {r : Int} (hs : Section R s k i off n r u) :
    Idle R { u with outstanding := 0, lh := [] } k i :=
  ⟨hs.good.of_disk rfl rfl ⟨hs.good.valid, hs.good.unique, hs.good.dev, hs.good.nonneg⟩,
    hs.sb ▸ h.one, hs.entry, hs.file, rfl, rfl⟩

end Section

end xv6.fs

namespace xv6.sections

open dir fs sysfile
open sysread (OpenFile)

/-! ## filewrite -/

section Filewrite

variable {R : Nat → Prop} {s : Fs} {k i off n j : Nat} {src : Nat → UInt8}

/-- How many blocks the `j`-th transaction of a write of `n` bytes at `off` logs. Blocks that the
transactions before it wrote are there. -/
def chunkCost (s : Fs) (i off n j : Nat) : Nat :=
  writeCost (fun bn => s.absent i bn && !(spanBlocks off (j * maxWrite)).contains bn)
    (s.dinode i).size.toNat (off + j * maxWrite) (min (n - j * maxWrite) maxWrite)

/-- Transaction `j` is there, and it is not refused. -/
def Runs (s : Fs) (i off n j : Nat) : Prop :=
  j * maxWrite < n ∧ off ≤ (s.dinode i).size.toNat ∧
    off + j * maxWrite + min (n - j * maxWrite) maxWrite ≤ MAXFILE * BSIZE

/-- The state after `j` transactions of a write at `off`, all of them full. -/
structure After (R : Nat → Prop) (s : Fs) (k i off j : Nat) (t : Fs) : Prop where
  idle : Idle R t k i
  inside : 0 < j → off ≤ (s.dinode i).size.toNat
  size : (t.dinode i).size.toNat =
    if j = 0 then (s.dinode i).size.toNat else max (s.dinode i).size.toNat (off + j * maxWrite)
  absent : ∀ bn, t.absent i bn = (s.absent i bn && !(spanBlocks off (j * maxWrite)).contains bn)

section After

variable {t u : Fs}

theorem After.zero (h : Idle R s k i) : After R s k i off 0 s := by
  refine ⟨h, fun h0 => absurd h0 (Nat.lt_irrefl 0), rfl, fun bn => ?_⟩
  have hnone : (spanBlocks off (0 * maxWrite)).contains bn = false := by
    simpa using fun hc => spans_zero off bn (by simpa using mem_spanBlocks.mp hc)
  rw [hnone, Bool.not_false, Bool.and_true]

/-- Where the next transaction begins, the file has bytes before. -/
theorem After.le_size (h : After R s k i off j t) (hoff : off ≤ (s.dinode i).size.toNat) :
    off + j * maxWrite ≤ (t.dinode i).size.toNat := by
  rw [h.size]
  split
  · grind
  · exact Nat.le_max_right ..

theorem After.off_le (h : After R s k i off j t)
    (hin : off + j * maxWrite ≤ (t.dinode i).size.toNat) : off ≤ (s.dinode i).size.toNat := by
  rcases Nat.eq_zero_or_pos j with rfl | hj
  · rwa [h.size, if_pos rfl, Nat.zero_mul] at hin
  · exact h.inside hj

theorem After.cost (h : After R s k i off j t) (hn : j * maxWrite < n) :
    writeCost (t.absent i) (t.dinode i).size.toNat (off + j * maxWrite)
      (min (n - j * maxWrite) maxWrite) = chunkCost s i off n j := by
  have hpos : 0 < min (n - j * maxWrite) maxWrite :=
    Nat.lt_min.mpr ⟨Nat.sub_pos_of_lt hn, by decide⟩
  rw [funext h.absent, h.size]
  unfold chunkCost
  split
  · rfl
  · rw [writeCost_max hpos]

/-- One more full transaction. -/
theorem After.next (h : After R s k i off j t) {r : Int} (hoff : off ≤ (s.dinode i).size.toNat)
    (hmax : off + j * maxWrite + maxWrite ≤ MAXFILE * BSIZE)
    (hu : Section R t k i (off + j * maxWrite) maxWrite r u) :
    After R s k i off (j + 1) { u with outstanding := 0, lh := [] } := by
  obtain ⟨_, _, hsize, habs⟩ := hu.wrote (h.le_size hoff) hmax
  refine ⟨hu.idle h.idle, fun _ => hoff, ?_, fun bn => ?_⟩
  · have hle := h.le_size hoff
    rw [if_neg (Nat.succ_ne_zero j)]
    refine hsize.trans ?_
    rw [h.size, Nat.succ_mul, ← Nat.add_assoc]
    split
    · rfl
    · omega
  · refine (habs bn).trans ?_
    rw [h.absent, Bool.and_assoc, ← Bool.not_or, Nat.succ_mul]
    congr 2
    rw [Bool.eq_iff_iff]
    simp only [Bool.or_eq_true, List.contains_iff_mem, mem_spanBlocks, spans_append]

end After

theorem spec_end_op {w : Traced} (h : w.fs.outstanding = 1) {Q : Unit → Traced → Prop}
    {E : Stop → Traced → Prop} : spec end_op w Q E ↔
      Q () ⟨{ w.fs with outstanding := 0, lh := [] }, w.ended ++ [w.fs.lh]⟩ := by
  unfold sections.end_op fs.end_op onFs
  simp only [spec_bind, spec_zoom, spec_modify, h]
  exact Iff.rfl

theorem writeFrom_done {fuel turn : Nat} (h : n ≤ turn) {Q : Nat × Nat → Traced → Prop}
    {E : Stop → Traced → Prop} {w : Traced} :
    spec (writeFrom k src n fuel turn off : TracedM (Nat × Nat)) w Q E ↔ Q (turn, off) w := by
  cases fuel with
  | zero => rw [writeFrom, spec_pure]
  | succ fuel => rw [writeFrom, if_neg (Nat.not_lt.mpr h), spec_pure]

/-- No transaction begins when all bytes are written. -/
theorem no_more {j' : Nat} (h : n ≤ j * maxWrite) (hj : j ≤ j') : ¬ Runs s i off n j' := by
  rintro ⟨hlt, _⟩
  have := Nat.mul_le_mul_right maxWrite hj
  omega

theorem chunk_le {a b len size limit : Nat} (h : a + size ≤ b)
    (hb : off + b + min (len - b) size ≤ limit) : off + a + min (len - a) size ≤ limit := by
  omega

theorem turns_le {a len size fuel : Nat} (hsize : 0 < size) (h : len - a ≤ fuel + 1) :
    len - (a + size) ≤ fuel := by
  omega

/-- A transaction that is refused is the last one. -/
theorem After.refused_last {t : Fs} (h : After R s k i off j t) {j' : Nat} (hj : j ≤ j')
    (hc : ¬ (off + j * maxWrite ≤ (t.dinode i).size.toNat ∧
      off + j * maxWrite + min (n - j * maxWrite) maxWrite ≤ MAXFILE * BSIZE)) :
    ¬ Runs s i off n j' := by
  rintro ⟨hlt, hoff, hmax⟩
  refine hc ⟨h.le_size hoff, ?_⟩
  rcases Nat.eq_or_lt_of_le hj with rfl | hj
  · exact hmax
  · have hnext := Nat.mul_le_mul_right maxWrite hj
    rw [Nat.succ_mul] at hnext
    exact chunk_le hnext hmax

/-- The transactions from the `j`-th on. -/
theorem writeFrom_ended (off n : Nat) (src : Nat → UInt8) (fuel : Nat) :
    ∀ (j : Nat) (w : Traced), n - j * maxWrite ≤ fuel → After R s k i off j w.fs →
    spec (writeFrom k src n fuel (j * maxWrite) (off + j * maxWrite) : TracedM (Nat × Nat)) w
      (fun _ w' => ∃ new, w'.ended = w.ended ++ new ∧ ((∀ l ∈ new, l.length ≤ MAXOPBLOCKS) ↔
        ∀ j' ≥ j, Runs s i off n j' → chunkCost s i off n j' ≤ MAXOPBLOCKS)) (fun _ _ => True) := by
  induction fuel with
  | zero =>
    intro j w hfuel _
    have hle : n ≤ j * maxWrite := by omega
    rw [writeFrom_done hle]
    exact ⟨[], by simp, iff_of_true (by simp) fun j' hj hr => absurd hr (no_more hle hj)⟩
  | succ fuel ih =>
    intro j w hfuel h
    by_cases hlt : j * maxWrite < n
    · have hpos : 0 < min (n - j * maxWrite) maxWrite :=
        Nat.lt_min.mpr ⟨Nat.sub_pos_of_lt hlt, by decide⟩
      have h32 : min (n - j * maxWrite) maxWrite < 2 ^ 32 :=
        Nat.lt_of_le_of_lt (Nat.min_le_right ..) (by decide)
      rw [writeFrom, if_pos hlt]
      simp only [writeChunk, spec_bind, spec_pure, Inodes.begin_op, Inodes.ilock, Inodes.writei,
        Inodes.iunlock, Inodes.end_op, onFs, spec_zoom]
      apply h.idle.begin_op
      apply spec_mono h.idle.ilock _ (fun _ _ _ => trivial)
      intro _ t ht
      apply spec_mono (ht.write h.idle hpos h32) _ (fun _ _ _ => trivial)
      intro r u hu
      apply spec_mono hu _ (fun _ _ _ => trivial)
      intro _ v hv
      rw [spec_end_op hv.outstanding]
      by_cases hc : off + j * maxWrite ≤ (w.fs.dinode i).size.toNat ∧
          off + j * maxWrite + min (n - j * maxWrite) maxWrite ≤ MAXFILE * BSIZE
      · obtain ⟨hin, hmax⟩ := hc
        obtain ⟨rfl, hlen, _⟩ := hv.wrote hin hmax
        have hoff := h.off_le hin
        have hruns : Runs s i off n j := ⟨hlt, hoff, hmax⟩
        rw [h.cost hlt] at hlen
        have huint : uint (off + j * maxWrite + min (n - j * maxWrite) maxWrite) =
            off + j * maxWrite + min (n - j * maxWrite) maxWrite :=
          Nat.mod_eq_of_lt (Nat.lt_of_le_of_lt hmax (by decide))
        rw [if_neg (Int.not_lt.mpr (Int.natCast_nonneg _)), if_neg (not_not.mpr rfl), huint]
        -- the blocks of this transaction, and those of the ones after it
        have hcons : ∀ new : List (List Nat), ((∀ l ∈ new, l.length ≤ MAXOPBLOCKS) ↔
            ∀ j' ≥ j + 1, Runs s i off n j' → chunkCost s i off n j' ≤ MAXOPBLOCKS) →
            ((∀ l ∈ v.lh :: new, l.length ≤ MAXOPBLOCKS) ↔
              ∀ j' ≥ j, Runs s i off n j' → chunkCost s i off n j' ≤ MAXOPBLOCKS) := by
          intro new hnew
          rw [List.forall_mem_cons, hnew, hlen]
          constructor
          · grind
          · grind
        by_cases hfull : n - j * maxWrite < maxWrite
        · have hlast : n ≤ (j + 1) * maxWrite := by
            rw [Nat.succ_mul]
            omega
          rw [writeFrom_done (by rw [Nat.min_eq_left (Nat.le_of_lt hfull)]; omega)]
          exact ⟨[v.lh], rfl,
            hcons [] (iff_of_true (by simp) fun j' hj hr => absurd hr (no_more hlast hj))⟩
        · have hmin : min (n - j * maxWrite) maxWrite = maxWrite :=
            Nat.min_eq_right (Nat.not_lt.mp hfull)
          rw [hmin] at hv hmax ⊢
          have hnext := h.next hoff hmax hv
          have hle : n - (j + 1) * maxWrite ≤ fuel := by
            rw [Nat.succ_mul]
            exact turns_le (by decide) hfuel
          rw [show j * maxWrite + maxWrite = (j + 1) * maxWrite from (Nat.succ_mul ..).symm,
            show off + j * maxWrite + maxWrite = off + (j + 1) * maxWrite by
              rw [Nat.succ_mul, Nat.add_assoc]]
          apply spec_mono (ih (j + 1) ⟨_, w.ended ++ [v.lh]⟩ hle hnext) _ (fun _ _ _ => trivial)
          rintro _ w' ⟨new, hnew, hiff⟩
          exact ⟨v.lh :: new, by rw [hnew, List.append_assoc]; rfl, hcons new hiff⟩
      · obtain ⟨rfl, hlh⟩ := hv.refused hc
        rw [if_pos (by decide), spec_pure]
        refine ⟨[v.lh], rfl, iff_of_true ?_ fun j' hj hr => absurd hr (h.refused_last hj hc)⟩
        simp [hlh]
    · grind [writeFrom_done, no_more]

/-- Each transaction of a write to a regular file logs no more blocks than `begin_op` reserves for
it, exactly if the bytes of each fit: their blocks, the bitmap if one of them is new, the indirect
block if a new one is behind it, and the block of the inode if the file grows. -/
theorem write_transactions_fit_iff {t : Tables} {f : Nat} {n piped : Int} {r : Int × Tables}
    {w : Traced} (h : Idle R s (t.ftable f).ip i) (htype : (t.ftable f).type = .FD_INODE)
    (hrun : filewrite (m := TracedM) t f src n piped ⟨s, []⟩ = .ok r w) :
    (∀ l ∈ w.ended, l.length ≤ MAXOPBLOCKS) ↔
      ((t.ftable f).writable = true → ∀ j, Runs s i (t.ftable f).off n.toNat j →
        chunkCost s i (t.ftable f).off n.toNat j ≤ MAXOPBLOCKS) := by
  refine of_spec (Q := fun _ w => (∀ l ∈ w.ended, l.length ≤ MAXOPBLOCKS) ↔ _)
    (E := fun _ _ => True) ?_ hrun
  unfold filewrite
  by_cases hw : (t.ftable f).writable = true
  · simp only [hw, not_true_eq_false, if_false, htype, spec_bind, spec_pure, forall_const]
    have hfrom := writeFrom_ended (t.ftable f).off n.toNat src n.toNat 0
      ⟨s, []⟩ (Nat.sub_le ..) (After.zero h)
    rw [Nat.zero_mul, Nat.add_zero] at hfrom
    apply spec_mono hfrom _ (fun _ _ _ => trivial)
    rintro _ w ⟨new, hnew, hiff⟩
    rw [hnew, List.nil_append, hiff]
    exact ⟨fun hall j => hall j (Nat.zero_le j), fun hall j _ => hall j⟩
  · grind [Bool.false_eq_true, spec_pure]

/-- One file is open for writing: the file of the small disk, with ten bytes. -/
def tenOpen : Tables :=
  { ftable := fun _ => { type := .FD_INODE, ref := 1, readable := true, writable := true, pipe := 0,
                         ip := 1, off := 0 }
    procs := fun _ => none }

theorem smallFs_idle : Idle (· < 8) smallFs 1 2 := by
  refine ⟨smallFs_good, by decide, ⟨⟨2, 1, false, true⟩, by decide, rfl, rfl⟩, ?_, rfl, rfl⟩
  have hl : Live smallFs.sb smallFs.dinode 2 := by decide +kernel
  refine ⟨_, if_pos hl, ?_⟩
  rw [smallFs_dinode.2]
  rfl

/-- Three bytes are written, and their transaction fits exactly if it should. -/
theorem three_bytes_fit : ∃ r w, filewrite (m := TracedM) tenOpen 0 (fun _ => 7) 3 0 ⟨smallFs, []⟩ =
    .ok r w ∧ ((∀ l ∈ w.ended, l.length ≤ MAXOPBLOCKS) ↔
      ((tenOpen.ftable 0).writable = true → ∀ j, Runs smallFs 2 0 3 j →
        chunkCost smallFs 2 0 3 j ≤ MAXOPBLOCKS)) := by
  obtain ⟨r, w, hrun⟩ := stopped_eq_none (r := filewrite (m := TracedM) tenOpen 0 (fun _ => 7) 3 0
    ⟨smallFs, []⟩) (by decide +kernel)
  exact ⟨r, w, hrun, write_transactions_fit_iff smallFs_idle rfl hrun⟩

/-- Thirteen blocks of bytes are one transaction. With the bitmap, the indirect block and the block
of the inode it logs sixteen blocks. -/
theorem a_large_write_does_not_fit : Idle (· < 8) smallFs 1 2 ∧
    ∃ r w, filewrite (m := TracedM) tenOpen 0 (fun _ => 7) (13 * BSIZE) 0 ⟨smallFs, []⟩ = .ok r w ∧
      ∃ l ∈ w.ended, l.Nodup ∧ l.length = 16 ∧ MAXOPBLOCKS < 16 := by
  obtain ⟨r, w, hrun⟩ := stopped_eq_none (r := filewrite (m := TracedM) tenOpen 0 (fun _ => 7)
    (13 * BSIZE) 0 ⟨smallFs, []⟩) (by decide +kernel)
  have hended : (final (filewrite (m := TracedM) tenOpen 0 (fun _ => 7) (13 * BSIZE) 0
      ⟨smallFs, []⟩)).ended = [[9, 7, 10, 11, 12, 13, 14, 15, 16, 17, 18, 19, 20, 21, 22, 5]] := by
    decide +kernel
  rw [hrun] at hended
  have hmem := List.mem_singleton_self [9, 7, 10, 11, 12, 13, 14, 15, 16, 17, 18, 19, 20, 21, 22, 5]
  rw [← hended] at hmem
  exact ⟨smallFs_idle, r, w, hrun, _, hmem, by decide, rfl, by decide⟩

end Filewrite

end xv6.sections
