-- The inode cache as its callers see it: entries that refer to files. The laws of iget, idup,
-- ilock, iunlock, iput and ialloc: each changes one entry and one file at most, and the last iput
-- of an inode without links frees it.
import Mathlib.Data.List.Find
import Mathlib.Order.Interval.Finset.Nat
import Xv6.FsGood
import Xv6.FsTrunc

open List Function bytes WP

namespace xv6.fs

/-! ## Entries -/

/-- An entry of the inode cache with references. -/
@[ext]
structure Entry where
  inum : Nat
  ref : Int
  busy : Bool
  valid : Bool
  deriving DecidableEq

def Inode.entry (ip : Inode) : Option Entry :=
  if 0 < ip.ref then some { inum := ip.inum, ref := ip.ref, busy := ip.busy, valid := ip.valid }
  else none

/-- Entry `k` of the cache, if it has references. -/
def Fs.entry (s : Fs) (k : Nat) : Option Entry := if k < NINODE then (s.icache k).entry else none

/-- The blocks of the inodes and of the bitmap. -/
def Superblock.inodesAndMap (sb : Superblock) : Finset Nat := Finset.Ico sb.inodestart sb.nmeta

/-- A good state. If `P` holds, then the log has room for every block of inodes and of the bitmap
and for `m` blocks more, and `m` blocks are free. -/
structure Sound (R : Nat → Prop) (P : Prop) (m : Nat) (s : Fs) : Prop extends Good R s where
  tiny : Enough P s s.sb.inodesAndMap m

/-- No function of fs.c below the system calls changes these. -/
structure Kept (s u : Fs) : Prop where
  sb : u.sb = s.sb
  outstanding : u.outstanding = s.outstanding
  logsize : u.logsize = s.logsize

theorem Frame.kept {s u : Fs} (h : Frame s u) : Kept s u := by
  obtain ⟨B, l, rfl⟩ := h
  exact ⟨rfl, rfl, rfl⟩

theorem Kept.of_slot {s u : Fs} {k : Nat}
    (h : ∃ d B l, u = { s.withDin k d with blocks := B, lh := l }) : Kept s u := by
  obtain ⟨d, B, l, rfl⟩ := h
  exact ⟨rfl, rfl, rfl⟩

theorem Kept.trans {s t u : Fs} (h : Kept s t) (h' : Kept t u) : Kept s u :=
  ⟨h'.sb.trans h.sb, h'.outstanding.trans h.outstanding, h'.logsize.trans h.logsize⟩

/-- The state is still good, with the files `F` and the entries `C`. -/
structure Shift (R : Nat → Prop) (P : Prop) (m : Nat) (s : Fs) (F : Nat → Option File)
    (C : Nat → Option Entry) (u : Fs) : Prop where
  good : Sound R P m u
  kept : Kept s u
  file : u.file = F
  entry : u.entry = C

/-- One more reference to inode `i`, in an entry that has references to it or none. -/
def grab (i : Nat) : Option Entry → Entry
  | some e => { e with ref := e.ref + 1 }
  | none => { inum := i, ref := 1, busy := false, valid := false }

/-- One reference less. -/
def drop (e : Entry) : Option Entry := if e.ref = 1 then none else some { e with ref := e.ref - 1 }

/-- The state with another inode in entry `k`. -/
def Fs.withSlot (s : Fs) (k : Nat) (ip : Inode) : Fs :=
  { s with icache := Function.update s.icache k ip }

section Entries

variable {R : Nat → Prop} {P : Prop} {m : Nat} {s t u : Fs} {k : Nat} {e : Entry}

theorem entry_eq_some : s.entry k = some e ↔ k < NINODE ∧ 0 < (s.icache k).ref ∧
    e = ⟨(s.icache k).inum, (s.icache k).ref, (s.icache k).busy, (s.icache k).valid⟩ := by
  unfold Fs.entry Inode.entry
  split
  · rename_i hk
    split
    · grind
    · grind
  · grind

theorem entry_eq_none (hk : k < NINODE) : s.entry k = none ↔ ¬ 0 < (s.icache k).ref := by
  unfold Fs.entry Inode.entry
  rw [if_pos hk]
  split <;> simp_all

theorem icache_withSlot (s : Fs) (k k' : Nat) (ip : Inode) :
    (s.withSlot k ip).icache k' = if k' = k then ip else s.icache k' :=
  update_apply ..

theorem withSlot_withSlot (s : Fs) (k : Nat) (ip ip' : Inode) :
    (s.withSlot k ip).withSlot k ip' = s.withSlot k ip' := by
  simp [Fs.withSlot]

theorem entry_withSlot (hk : k < NINODE) (ip : Inode) :
    (s.withSlot k ip).entry = update s.entry k ip.entry := by
  funext k'
  unfold Fs.entry
  rw [icache_withSlot]
  by_cases h : k' = k
  · grind
  · grind

theorem spec_setInode {f : Inode → Inode} {Q : Unit → Fs → Prop} {E : Stop → Fs → Prop} :
    spec (setInode k f) s Q E ↔ Q () (s.withSlot k (f (s.icache k))) := by
  unfold setInode
  exact spec_modify _

theorem Enough.withSlot {U : Finset Nat} (h : Enough P s U m) (k : Nat) (ip : Inode) :
    Enough P (s.withSlot k ip) U m :=
  ⟨⟨h.trans, h.room, h.bitmap⟩, h.free⟩

/-- A change of one entry. -/
theorem Sound.slot (h : Sound R P m s) (hk : k < NINODE) (ip : Inode)
      (hvalid : 0 < ip.ref → ip.valid = true →
      Live s.sb s.dinode ip.inum ∧ ip.din = s.dinode ip.inum)
    (huniq : 0 < ip.ref → ∀ k' < NINODE, k' ≠ k → 0 < (s.icache k').ref →
      (s.icache k').inum ≠ ip.inum) (hdev : 0 < ip.ref → ip.dev = ROOTDEV) (hnn : 0 ≤ ip.ref) :
    Shift R P m s s.file (update s.entry k ip.entry) (s.withSlot k ip) := by
  refine ⟨⟨⟨⟨fun k' hk' hr hv => ?_, fun k1 hk1 k2 hk2 hr1 hr2 hin => ?_, fun k' hk' hr => ?_,
    fun k' hk' => ?_⟩, ⟨h.blocks.geometry, h.blocks.super, h.blocks.reserved, h.blocks.exact⟩,
    h.full⟩, h.tiny.withSlot k ip⟩, ⟨rfl, rfl, rfl⟩, rfl, entry_withSlot hk ip⟩
  · rw [icache_withSlot] at hr hv ⊢
    split at hr
    · rename_i hkk
      rw [if_pos hkk] at hv ⊢
      exact hvalid hr hv
    · rename_i hkk
      rw [if_neg hkk] at hv ⊢
      exact h.valid k' hk' hr hv
  · rw [icache_withSlot] at hr1 hr2 hin
    rw [icache_withSlot] at hin
    by_cases h1 : k1 = k
    · grind
    · grind [h.unique]
  · grind [icache_withSlot, h.dev]
  · rw [icache_withSlot]
    split
    · exact hnn
    · exact h.nonneg k' hk'

/-- Another count, other flags and another copy in an entry. -/
theorem Sound.mark (h : Sound R P m s) (hk : k < NINODE) (hr : 0 < (s.icache k).ref) (r : Int)
    (b v : Bool) (d : Dinode)
    (hv : v = true → Live s.sb s.dinode (s.icache k).inum ∧ d = s.dinode (s.icache k).inum)
    {o : Option Entry} (ho : (if 0 < r then some ⟨(s.icache k).inum, r, b, v⟩ else none) = o)
    (hnn : 0 ≤ r) : Shift R P m s s.file (update s.entry k o)
      (s.withSlot k ⟨(s.icache k).dev, (s.icache k).inum, r, b, v, d⟩) := by
  subst ho
  refine h.slot hk ⟨_, _, r, b, v, d⟩ (fun _ hvalid => hv hvalid) (fun _ k' hk' hne hr' => ?_)
    (fun _ => h.dev k hk hr) hnn
  exact fun e => hne (h.unique k' hk' k hk hr' hr e)

theorem Good.inUse (he : s.entry k = some e) (hv : e.valid = true) : InUse s k := by
  obtain ⟨hk, hr, rfl⟩ := entry_eq_some.mp he
  exact ⟨hk, hr, hv⟩

/-- A valid entry is for an allocated inode. -/
theorem Good.file_of_valid (h : Good R s) (he : s.entry k = some e) (hv : e.valid = true) :
    ∃ f, s.file e.inum = some f := by
  have hin := Good.inUse he hv
  obtain ⟨hk, hr, rfl⟩ := entry_eq_some.mp he
  exact ⟨_, h.file_eq hin⟩

end Entries

/-! ## idup, ilock and iunlock -/

section Locks

variable {R : Nat → Prop} {P : Prop} {m : Nat} {s : Fs} {k : Nat} {e : Entry}

theorem idup_spec (h : Sound R P m s) (he : s.entry k = some e) {E : Stop → Fs → Prop} :
    spec (idup k) s (fun k' u => k' = k ∧
      Shift R P m s s.file (update s.entry k (some { e with ref := e.ref + 1 })) u) E := by
  obtain ⟨hk, hr, rfl⟩ := entry_eq_some.mp he
  unfold idup
  simp only [spec_bind, spec_setInode, spec_pure]
  exact ⟨trivial, h.mark hk hr _ _ _ _ (h.valid k hk hr) (if_pos (by omega)) (by omega)⟩

theorem ilock_spec (h : Sound R P m s) (he : s.entry k = some e) (hi : 0 < e.inum)
    (hlt : e.inum < s.sb.ninodes) : spec (ilock k) s
      (fun _ u => e.busy = false ∧ (∃ f, s.file e.inum = some f) ∧ Shift R P m s s.file
          (update s.entry k (some { e with busy := true, valid := true })) u)
      (fun x _ => x = .sleeps ∧ e.busy = true ∨
        x = .panic "ilock: no type" ∧ e.busy = false ∧ s.file e.inum = none) := by
  obtain ⟨hk, hr, rfl⟩ := entry_eq_some.mp he
  unfold ilock
  simp only [bread, spec_bind, spec_get]
  rw [if_neg (by omega)]
  simp only [spec_ite, spec_throw, spec_bind, spec_setInode, spec_pure, spec_get]
  refine ⟨fun hb => Or.inl ⟨trivial, hb⟩, fun hb => ⟨fun hv => ?_, fun hv => ?_⟩⟩
  · -- the copy is read from the disk
    have hbusy : (s.icache k).busy = false := by simpa using hb
    rw [icache_withSlot, if_pos rfl]
    refine ⟨fun h0 => Or.inr ⟨trivial, hbusy, ?_⟩, fun h0 => ?_⟩
    · unfold Fs.file
      exact if_neg fun hl => hl.2.2 h0
    · have hl : Live s.sb s.dinode (s.icache k).inum := ⟨hi, hlt, h0⟩
      refine ⟨hbusy, ⟨_, if_pos hl⟩, ?_⟩
      rw [withSlot_withSlot]
      exact h.mark hk hr _ _ _ _ (fun _ => ⟨hl, rfl⟩) (if_pos hr) (Int.le_of_lt hr)
  · grind [h.file_of_valid, h.mark, h.valid, Int.le_of_lt]

theorem iunlock_spec (h : Sound R P m s) (he : s.entry k = some e) (hb : e.busy = true)
    {E : Stop → Fs → Prop} : spec (iunlock k) s (fun _ u =>
      Shift R P m s s.file (update s.entry k (some { e with busy := false })) u) E := by
  obtain ⟨hk, hr, rfl⟩ := entry_eq_some.mp he
  unfold iunlock
  simp only [spec_bind, spec_get]
  rw [if_neg (by simp [show (s.icache k).busy = true from hb]; omega), spec_setInode]
  exact h.mark hk hr _ _ _ _ (h.valid k hk hr) (if_pos hr) (Int.le_of_lt hr)

end Locks

/-! ## iget -/

section Iget

variable {R : Nat → Prop} {P : Prop} {m : Nat} {s : Fs} {k : Nat}

theorem first_eq_some {test : Inode → Bool} (h : s.first test = some k) :
    k < NINODE ∧ test (s.icache k) = true :=
  scan_eq_some h

theorem first_eq_none {test : Inode → Bool} (h : s.first test = none) :
    ∀ k < NINODE, test (s.icache k) = false :=
  fun _ hk => scan_eq_none h hk

/-- The entry that `iget` takes for inode `i`: the one that has references to it, or the first one
that is free. -/
def spot (C : Nat → Option Entry) (i : Nat) : Option Nat :=
  match (List.range NINODE).find? fun k => (C k).any fun e => e.inum = i with
  | some k => some k
  | none => (List.range NINODE).find? fun k => (C k).isNone

/-- Entry `k` has references to inode `i`, or there is none that has and it is free. -/
structure Spot (C : Nat → Option Entry) (i k : Nat) : Prop where
  lt : k < NINODE
  same : ∀ e, C k = some e → e.inum = i
  only : C k = none → ∀ k' < NINODE, ∀ e, C k' = some e → e.inum ≠ i

theorem spot_spec {C : Nat → Option Entry} {i k : Nat} (h : spot C i = some k) : Spot C i k := by
  unfold spot at h
  split at h
  · rename_i k' hk'
    cases h
    obtain ⟨hlt, htest⟩ := scan_eq_some hk'
    obtain ⟨e, he, hi⟩ := (Option.any_eq_true _ _).mp htest
    refine ⟨hlt, fun e' he' => ?_, fun hnone => ?_⟩
    · grind
    · rw [he] at hnone
      cases hnone
  · rename_i hnone
    obtain ⟨hlt, htest⟩ := scan_eq_some h
    have hfree : C k = none := Option.isNone_iff_eq_none.mp htest
    refine ⟨hlt, fun e he => ?_, fun _ k' hk' e he hi => ?_⟩
    · rw [hfree] at he
      cases he
    · grind

/-- Without an entry to take, all have references. -/
theorem spot_eq_none {C : Nat → Option Entry} {i k : Nat} (h : spot C i = none) (hk : k < NINODE) :
    C k ≠ none := by
  unfold spot at h
  split at h
  · cases h
  · intro hnone
    simpa [hnone] using scan_eq_none h hk

theorem first_congr {test : Inode → Bool} {test' : Nat → Bool}
    (h : ∀ k < NINODE, test (s.icache k) = test' k) :
    s.first test = (List.range NINODE).find? test' := by
  unfold Fs.first
  exact List.find?_congr fun k hk => h k (mem_range.mp hk)

/-- The scan of `iget`. -/
theorem Cached.spot_eq (h : Cached s) (i : Nat) : spot s.entry i =
    match s.first fun ip => ip.ref > 0 ∧ ip.dev = ROOTDEV ∧ ip.inum = i with
    | some k => some k
    | none => s.first fun ip => ip.ref = 0 := by
  have h1 : (s.first fun ip => ip.ref > 0 ∧ ip.dev = ROOTDEV ∧ ip.inum = i) =
      (List.range NINODE).find? fun k => (s.entry k).any fun e => e.inum = i := by
    refine first_congr fun k hk => ?_
    unfold Fs.entry Inode.entry
    rw [if_pos hk]
    by_cases hr : 0 < (s.icache k).ref
    · simp [hr, h.dev k hk hr]
    · simp [hr]
  have h2 : (s.first fun ip => ip.ref = 0) =
      (List.range NINODE).find? fun k => (s.entry k).isNone := by
    refine first_congr fun k hk => ?_
    have hnn := h.nonneg k hk
    unfold Fs.entry Inode.entry
    rw [if_pos hk]
    by_cases hr : 0 < (s.icache k).ref
    · simp [hr, Int.ne_of_gt hr]
    · grind
  unfold spot
  rw [h1, h2]

theorem iget_spec (h : Sound R P m s) (i : Nat) :
    spec (iget ROOTDEV i) s (fun k u => spot s.entry i = some k ∧
      Shift R P m s s.file (update s.entry k (some (grab i (s.entry k)))) u)
      (fun x u => x = .panic "iget: no inodes" ∧ spot s.entry i = none ∧ u = s) := by
  have hspot := h.spot_eq i
  unfold iget
  simp only [spec_bind, spec_get]
  cases hf : s.first fun ip => decide (ip.ref > 0 ∧ ip.dev = ROOTDEV ∧ ip.inum = i) with
  | some k =>
    obtain ⟨hk, htest⟩ := first_eq_some hf
    obtain ⟨hr, _, rfl⟩ := of_decide_eq_true htest
    have hent : s.entry k = some ⟨_, _, _, _⟩ := entry_eq_some.mpr ⟨hk, hr, rfl⟩
    simp only [spec_bind, spec_setInode, spec_pure]
    refine ⟨by rw [hspot, hf], ?_⟩
    rw [hent]
    exact h.mark hk hr _ _ _ _ (h.valid k hk hr) (if_pos (by omega)) (by omega)
  | none =>
    have hnone := first_eq_none hf
    cases hg : s.first fun ip => decide (ip.ref = 0) with
    | none => exact (spec_throw _).mpr ⟨rfl, by rw [hspot, hf, hg], rfl⟩
    | some k =>
      obtain ⟨hk, htest⟩ := first_eq_some hg
      have hr : (s.icache k).ref = 0 := of_decide_eq_true htest
      have hfree : ∀ k' < NINODE, 0 < (s.icache k').ref → (s.icache k').inum ≠ i := by grind [h.dev]
      have hent : s.entry k = none := (entry_eq_none hk).mpr (by omega)
      simp only [spec_bind, spec_setInode, spec_pure]
      refine ⟨by rw [hspot, hf, hg], ?_⟩
      rw [hent]
      exact h.slot hk ⟨ROOTDEV, i, 1, false, false, (s.icache k).din⟩ (fun _ hv => by cases hv)
        (fun _ k' hk' _ hr' => hfree k' hk' hr') (fun _ => rfl) Int.one_nonneg

end Iget

/-! ## A change of one inode -/

/-- Every inode but `i` is as before, and so is every data block. -/
structure Apart (s : Fs) (i : Nat) (u : Fs) : Prop where
  sb : u.sb = s.sb
  dinode : ∀ j < s.sb.ninodes, j ≠ i → u.dinode j = s.dinode j
  blocks : ∀ x, s.sb.nmeta ≤ x → u.blocks x = s.blocks x

theorem Good.sound {R : Nat → Prop} {s : Fs} (h : Good R s) (m : Nat) : Sound R False m s :=
  ⟨h, ⟨⟨False.elim, False.elim, False.elim⟩, False.elim⟩⟩

theorem Geometry.IBLOCK_mem {sb : Superblock} (h : Geometry sb) {i : Nat} (hi : i < sb.ninodes) :
    IBLOCK i sb ∈ sb.inodesAndMap := by
  have h1 := (h.IBLOCK_lt hi).2
  have h2 := h.bmapstart_lt
  rw [Superblock.inodesAndMap, Finset.mem_Ico]
  exact ⟨Nat.le_add_left .., Nat.lt_trans h1 h2⟩

section Apart

variable {R : Nat → Prop} {P : Prop} {m : Nat} {s t u : Fs} {k i : Nat} {e : Entry} {f : File}

theorem Apart.trans (h1 : Apart s i t) (h2 : Apart t i u) : Apart s i u := by
  refine ⟨h2.sb.trans h1.sb, fun j hj hne => ?_, fun x hx => ?_⟩
  · rw [h2.dinode j (by rwa [h1.sb]) hne, h1.dinode j hj hne]
  · rw [h2.blocks x (by rwa [h1.sb]), h1.blocks x hx]

theorem Stored.apart {d : Dinode} (h : Stored s i d u) : Apart s i u :=
  ⟨h.frame.sb, fun j hj hne => (h.dinode j hj).trans (if_neg hne),
  fun x hx => h.blocks x (Or.inl hx)⟩

theorem Stored.apart_withDin {d d' : Dinode} (h : Stored (s.withDin k d) i d' u) : Apart s i u :=
  ⟨h.apart.sb, h.apart.dinode, h.apart.blocks⟩

/-- A block of inodes is logged, and it is paid for. -/
theorem Enough.logged {U : Finset Nat} {b : Nat} {d : Dinode} {data : Block} (h : Enough P s U m)
    (hst : Stored s i d (s.logged b data)) (hU : b ∈ U) : Enough P (s.logged b data) U m := by
  refine ⟨h.toRoom.log fun _ => hU, fun hp => ?_⟩
  rw [nfree_congr hst.frame.sb hst.bit]
  exact h.free hp

theorem Apart.held (ha : Apart s i u) (hb : Blocks R s s.dinode) {q : Nat × Place} (hq : q.1 ≠ i) :
    held s.sb u.blocks u.dinode q = held s.sb s.blocks s.dinode q := by
  refine held_congr (fun hlt => ha.dinode q.1 hlt hq) (fun hl hz => ?_)
  exact ha.blocks _ (hb.range (held_indirect hl hz)).1

theorem Apart.content (ha : Apart s i u) (hb : Blocks R s s.dinode) {j : Nat} (hj : j ≠ i) :
    content s.sb u.blocks u.dinode j = content s.sb s.blocks s.dinode j := by
  funext x
  unfold fs.content
  rw [ha.held hb hj]
  split
  · grind [ha.blocks, hb.range]
  · rfl

theorem Apart.live (ha : Apart s i u) {j : Nat} (hj : j ≠ i) :
    Live s.sb u.dinode j ↔ Live s.sb s.dinode j := by
  unfold Live
  refine and_congr_right fun _ => and_congr_right fun hlt => ?_
  rw [ha.dinode j hlt hj]

theorem Apart.file (ha : Apart s i u) (hb : Blocks R s s.dinode) {j : Nat} (hj : j ≠ i) :
    u.file j = s.file j := by
  unfold Fs.file
  rw [ha.sb]
  simp only [ha.live hj]
  split
  · rename_i hl
    rw [ha.dinode j hl.2.1 hj, ha.content hb hj]
  · rfl

theorem Apart.good (ha : Apart s i u) (h : Good R s) (hb : Blocks R u u.dinode)
    (hi : Live s.sb u.dinode i → (u.dinode i).type ≠ T_DEV → ∀ x < (u.dinode i).size.toNat,
      fs.held s.sb u.blocks u.dinode (i, place (x / BSIZE)) ≠ none) (hc : Cached u) : Good R u := by
  refine ⟨hc, hb, fun j hl hty x hx => ?_⟩
  rw [ha.sb] at hl ⊢
  by_cases hj : j = i
  · subst hj
    exact hi hl hty x hx
  · rw [ha.live hj] at hl
    rw [ha.dinode j hl.2.1 hj] at hty hx
    rw [ha.held h.blocks hj]
    exact h.full j hl hty x hx

/-- The entries of other inodes have the copies that they had. -/
theorem Apart.cached (ha : Apart s i u) (h : Cached s)
    (hic : ∀ k, (u.icache k).inum = (s.icache k).inum ∧ (u.icache k).ref = (s.icache k).ref ∧
      (u.icache k).dev = (s.icache k).dev)
    (hi : ∀ k < NINODE, 0 < (s.icache k).ref → (u.icache k).valid = true →
      u.icache k = s.icache k ∧ (s.icache k).inum ≠ i) : Cached u := by
  refine ⟨fun k hk hr hv => ?_, fun k hk k' hk' hr hr' e => ?_, fun k hk hr => ?_, fun k hk => ?_⟩
  · rw [(hic k).2.1] at hr
    obtain ⟨hsame, hne⟩ := hi k hk hr hv
    rw [hsame] at hv ⊢
    obtain ⟨hl, hd⟩ := h.valid k hk hr hv
    rw [ha.sb, ha.live hne, ha.dinode _ hl.2.1 hne]
    exact ⟨hl, hd⟩
  · grind [h.unique]
  · grind [h.dev]
  · rw [(hic k).2.1]
    exact h.nonneg k hk

/-! ## ialloc -/

/-- An inode that `ialloc` made. -/
def File.new (type : UInt16) : File :=
  { type := type, major := 0, minor := 0, nlink := 0, size := 0, data := fun _ => 0 }

theorem held_free {sb : Superblock} {B : Disk} {v : Nat → Dinode} (h0 : (v i).type = 0)
    (p : Place) : held sb B v (i, p) = none := if_neg fun hl => hl.2.2 h0

/-- A free inode becomes one of a type, without blocks. -/
theorem Sound.allocated (h : Sound R P m s) (hpos : 0 < i) (hlt : i < s.sb.ninodes)
    (hfree : (s.dinode i).type = 0) {d : Dinode} (hty : d.type ≠ 0) (hsize : d.size = 0)
    (hz : ∀ j ≤ NDIRECT, d.addr j = 0) (hst : Stored s i d u)
    (ht : Enough P u s.sb.inodesAndMap m) :
    Shift R P m s (update s.file i (some (d.file fun _ => 0))) s.entry u := by
  have ha := hst.apart
  have hdin : u.dinode i = d := by
    rw [hst.dinode i hlt, if_pos rfl]
  have hblocks : Blocks R u u.dinode :=
    h.blocks.stored_empty (held_free hfree) hz (fun _ _ _ => rfl) hst
  have hnone : ∀ p, held s.sb u.blocks u.dinode (i, p) = none := fun p => by
    grind [held, holds_none]
  refine ⟨⟨ha.good h.toGood hblocks (fun _ _ x hx => ?_) (ha.cached h.toCached ?_ ?_), ha.sb ▸ ht⟩,
    hst.frame.kept, funext fun j => ?_, ?_⟩
  · rw [hdin, hsize] at hx
    exact absurd hx (Nat.not_lt_zero x)
  · rw [hst.frame.icache]
    exact fun _ => ⟨rfl, rfl, rfl⟩
  · rw [hst.frame.icache]
    exact fun k hk hr hv => ⟨rfl, fun e => (h.valid k hk hr hv).1.2.2 (e ▸ hfree)⟩
  · by_cases hj : j = i
    · subst hj
      have hl : Live u.sb u.dinode j := ⟨hpos, ha.sb ▸ hlt, by rw [hdin]; exact hty⟩
      have hzero : content u.sb u.blocks u.dinode j = fun _ => 0 := by
        funext x
        unfold content
        rw [ha.sb, hnone]
        simp
      rw [update_self]
      unfold Fs.file
      rw [if_pos hl, hdin, hzero]
    · rw [update_of_ne hj, ha.file h.blocks hj]
  · unfold Fs.entry
    rw [hst.frame.icache]

/-- The inode that `ialloc` takes. -/
def freeInode (F : Nat → Option File) (i n : Nat) : Option Nat :=
  (List.range' i n).find? fun j => (F j).isNone

theorem iallocFrom_spec (h : Sound R P m s) {type : UInt16} (hty : type ≠ 0) (n : Nat) :
    ∀ i, 0 < i → i + n ≤ s.sb.ninodes →
    spec (iallocFrom ROOTDEV type n i) s
      (fun k u => ∃ j, freeInode s.file i n = some j ∧ spot s.entry j = some k ∧
        Shift R P m s (update s.file j (some (File.new type)))
          (update s.entry k (some (grab j (s.entry k)))) u) (fun x _ => x.full ∧ ¬ P ∨
        x = .panic "ialloc: no inodes" ∧ freeInode s.file i n = none ∨
        x = .panic "iget: no inodes" ∧ ∃ j, freeInode s.file i n = some j ∧
        spot s.entry j = none) := by
  induction n with
  | zero => exact fun _ _ _ => (spec_throw _).mpr (Or.inr (Or.inl ⟨rfl, rfl⟩))
  | succ n ih =>
    intro i hpos hle
    rw [iallocFrom]
    simp only [bread, spec_bind, spec_get, spec_pure, spec_ite]
    refine ⟨fun h0 => ?_, fun h0 => ?_⟩
    · have hfree : freeInode s.file i (n + 1) = some i := by
        have : s.file i = none := if_neg fun hl => hl.2.2 h0
        simp [freeInode, List.range'_succ, this]
      apply spec_mono (log_write_spec h.tiny.toRoom _ _) _ (fun _ _ he => Or.inl he)
      rintro _ t rfl
      have hlt : i < s.sb.ninodes := by omega
      have hst := stored_logged h.blocks.geometry hlt { Dinode.zero with type := type }
      have hsh := h.allocated hpos hlt h0 hty rfl (fun _ _ => rfl) hst
        (h.tiny.logged hst (h.blocks.geometry.IBLOCK_mem hlt))
      have hget := iget_spec hsh.good i
      rw [hsh.file, hsh.entry] at hget
      apply spec_mono hget _ (fun _ _ he => Or.inr (Or.inr ⟨he.1, i, hfree, he.2.1⟩))
      rintro k u ⟨hspot, hu⟩
      exact ⟨i, hfree, hspot, hu.good, hsh.kept.trans hu.kept, hu.file, hu.entry⟩
    · have hfree : freeInode s.file i (n + 1) = freeInode s.file (i + 1) n := by
        have hl : Live s.sb s.dinode i := ⟨hpos, by omega, h0⟩
        simp [freeInode, List.range'_succ, Fs.file, hl]
      rw [hfree]
      exact ih (i + 1) (by omega) (by omega)

theorem ialloc_spec (h : Sound R P m s) {type : UInt16} (hty : type ≠ 0) :
      spec (ialloc ROOTDEV type) s
      (fun k u => ∃ j, freeInode s.file 1 (s.sb.ninodes - 1) = some j ∧ spot s.entry j = some k ∧
        Shift R P m s (update s.file j (some (File.new type)))
          (update s.entry k (some (grab j (s.entry k)))) u) (fun x _ => x.full ∧ ¬ P ∨
        x = .panic "ialloc: no inodes" ∧ freeInode s.file 1 (s.sb.ninodes - 1) = none ∨
        x = .panic "iget: no inodes" ∧
          ∃ j, freeInode s.file 1 (s.sb.ninodes - 1) = some j ∧ spot s.entry j = none) := by
  unfold ialloc
  simp only [spec_bind, spec_get]
  by_cases hn : s.sb.ninodes = 0
  · rw [hn]
    exact (spec_throw _).mpr (Or.inr (Or.inl ⟨rfl, rfl⟩))
  · exact iallocFrom_spec h hty _ 1 (by omega) (by omega)

/-! ## iput -/

/-- The blocks of an inode in entry `k` are given back, and its type is 0 then. -/
structure Emptied (R : Nat → Prop) (s : Fs) (k : Nat) (u : Fs) : Prop where
  blocks : Blocks R u u.dinode
  apart : Apart s (s.icache k).inum u
  type : (u.dinode (s.icache k).inum).type = 0
  slot : ∃ d B l, u = { s.withDin k d with blocks := B, lh := l }

theorem Trimmed.apart (h : Trimmed s k t) : Apart s (s.icache k).inum t :=
  ⟨h.slot.sb, fun j hj _ => h.dinode j hj, fun x hx => h.blocks x (Or.inl hx)⟩

theorem Blocks.withDin (h : Blocks R s (s.view k)) (d : Dinode) :
    Blocks R (s.withDin k d) (s.view k) := ⟨h.geometry, h.super, h.reserved, h.exact⟩

/-- The last store of `iput`. -/
theorem Opened.emptied (h : Opened R t k) (hz : ∀ j ≤ NDIRECT, (t.icache k).din.addr j = 0)
    (ha : Apart s (s.icache k).inum t)
    (hslot : ∃ d B l, t = { s.withDin k d with blocks := B, lh := l })
    {d : Dinode} (hd : d.addrs = (t.icache k).din.addrs) (hty : d.type = 0)
    (hst : Stored (t.withDin k d) (t.icache k).inum d u) : Emptied R s k u := by
  have hin : (t.icache k).inum = (s.icache k).inum := by
    obtain ⟨_, _, _, rfl⟩ := hslot
    simp [Fs.withDin]
  have haddr : ∀ j ≤ NDIRECT, d.addr j = 0 := fun j hj => by
    grind [Dinode.addr]
  have hempty : ∀ p, held t.sb t.blocks (t.view k) ((t.icache k).inum, p) = none := fun p => by
    have := h.places_self p
    rw [holds_none hz] at this
    exact this
  refine ⟨(h.blocks.withDin d).stored_empty hempty haddr (fun j _ hne => view_ne hne) hst,
    ?_, ?_, ?_⟩
  · have hat := hst.apart_withDin
    rw [hin] at hat
    exact ha.trans hat
  · rw [← hin, hst.dinode _ h.live.2.1, if_pos rfl, hty]
  · obtain ⟨B', l', hu⟩ := hst.frame
    obtain ⟨d', B, l, rfl⟩ := hslot
    exact ⟨d, B', l', by simp [hu, Fs.withDin]⟩

theorem itrunc_spec (h : Opened R s k) (ht : Enough P s s.sb.inodesAndMap m) {Q : Unit → Fs → Prop}
    (hQ : ∀ t, Opened R t k → (∀ j ≤ NDIRECT, (t.icache k).din.addr j = 0) →
      Apart s (s.icache k).inum t → (∃ d B l, t = { s.withDin k d with blocks := B, lh := l }) →
      Enough P t s.sb.inodesAndMap m → Q () t) :
    spec (itrunc k) s Q (fun x _ => x.full ∧ ¬ P) := by
  unfold itrunc
  have hloops := truncLoops_spec h ht (Q := fun _ t => spec (do
    setDin k ({ · with size := 0 })
    iupdate k) t Q (fun x _ => x.full ∧ ¬ P)) fun t ho htr het hz => ?_
  · simp only [spec_bind] at hloops ⊢
    exact hloops
  · simp only [spec_bind, spec_setDin]
    have hmem := ho.blocks.geometry.IBLOCK_mem ho.live.2.1
    rw [htr.slot.sb] at hmem
    apply spec_mono (store_spec ho _ (fun _ => htr.slot.sb ▸ hmem) het) _ (fun _ _ he => he)
    rintro _ u ⟨hst, heu⟩
    obtain ⟨hic, _⟩ := view_stored ho hst
    obtain ⟨B, l, hu⟩ := slot_stored htr.slot hst
    refine hQ u (ho.stored (d := { (t.icache k).din with size := 0 }) rfl ho.type_ne hst)
      (fun j hj => ?_) ?_ ⟨_, B, l, hu⟩ heu
    · rw [hic]
      exact hz j hj
    · have hat := hst.apart_withDin
      rw [htr.slot.inum] at hat
      exact htr.apart.trans hat

/-- An entry that is not valid any more, for an inode that is free. -/
theorem Emptied.freed (h : Sound R P m s) (hk : InUse s k) (he : Emptied R s k u)
    (ht : Enough P u s.sb.inodesAndMap m) :
    Shift R P m s (update s.file (s.icache k).inum none)
      (update s.entry k (some ⟨(s.icache k).inum, (s.icache k).ref, false, false⟩))
      (u.withSlot k ⟨(u.icache k).dev, (u.icache k).inum, (u.icache k).ref, false, false,
      (u.icache k).din⟩) := by
  obtain ⟨d, B, l, hslot⟩ := he.slot
  have hself : u.icache k = { s.icache k with din := d } := by
    rw [hslot]
    exact update_self ..
  have hother : ∀ k', k' ≠ k → u.icache k' = s.icache k' := fun k' hk' => by
    rw [hslot]
    exact update_of_ne hk' ..
  have ha : Apart s (s.icache k).inum
      (u.withSlot k ⟨(u.icache k).dev, (u.icache k).inum, (u.icache k).ref, false, false,
      (u.icache k).din⟩) :=
    ⟨he.apart.sb, he.apart.dinode, he.apart.blocks⟩
  have hb : Blocks R (u.withSlot k ⟨(u.icache k).dev, (u.icache k).inum, (u.icache k).ref,
      false, false, (u.icache k).din⟩) u.dinode :=
    ⟨he.blocks.geometry, he.blocks.super, he.blocks.reserved, he.blocks.exact⟩
  refine ⟨⟨ha.good h.toGood hb (fun hl => absurd he.type hl.2.2) (ha.cached h.toCached
    (fun k' => ?_) fun k' hk' hr hv => ?_), ha.sb ▸ ht.withSlot k _⟩,
    Kept.trans (Kept.of_slot he.slot) ⟨rfl, rfl, rfl⟩, funext fun j => ?_, ?_⟩
  · grind [icache_withSlot]
  · grind [icache_withSlot, h.unique, hk.lt, hk.ref]
  · by_cases hj : j = (s.icache k).inum
    · subst hj
      rw [update_self]
      exact if_neg fun hl => hl.2.2 he.type
    · grind [ha.file, h.blocks]
  · rw [entry_withSlot hk.lt, hself]
    rw [show Inode.entry ⟨(s.icache k).dev, (s.icache k).inum, (s.icache k).ref, false, false, d⟩ =
      some ⟨(s.icache k).inum, (s.icache k).ref, false, false⟩ from if_pos hk.ref]
    funext k'
    by_cases e : k' = k
    · grind
    · grind [Fs.entry]

theorem ifree_spec (h : Sound R P m s) (he : s.entry k = some e) (hv : e.valid = true) :
    spec (ifree k) s (fun _ u => e.busy = false ∧ Shift R P m s (update s.file e.inum none)
        (update s.entry k (some { e with busy := false, valid := false })) u)
      (fun x _ => x.full ∧ ¬ P ∨ x = .panic "iput busy" ∧ e.busy = true) := by
  obtain ⟨hk, hr, rfl⟩ := entry_eq_some.mp he
  unfold ifree
  simp only [spec_bind, spec_get, spec_ite, spec_throw, spec_setInode]
  refine ⟨fun hb => Or.inr ⟨trivial, hb⟩, fun hb => ?_⟩
  have hbusy : (s.icache k).busy = false := by simpa using hb
  have h1 := h.mark hk hr (s.icache k).ref true (s.icache k).valid _ (h.valid k hk hr) (if_pos hr)
    (Int.le_of_lt hr)
  have hin1 : InUse (s.withSlot k ⟨(s.icache k).dev, (s.icache k).inum, (s.icache k).ref, true,
      (s.icache k).valid, (s.icache k).din⟩) k := by
    refine ⟨hk, ?_, ?_⟩
    · rw [icache_withSlot, if_pos rfl]
      exact hr
    · rw [icache_withSlot, if_pos rfl]
      exact hv
  apply spec_mono (itrunc_spec (h1.good.opened hin1) h1.good.tiny fun t ho hz ha hslot het => ?_)
    (fun _ _ hq => hq) (fun _ _ hx => Or.inl hx)
  simp only [spec_setDin]
  have hmem := ho.blocks.geometry.IBLOCK_mem ho.live.2.1
  rw [ha.sb] at hmem
  apply spec_mono (store_spec ho _ (fun _ => ha.sb ▸ hmem) het) _ (fun _ _ hx => Or.inl hx)
  rintro _ u ⟨hst, heu⟩
  have hfreed :=
    (ho.emptied hz ha hslot (d := { (t.icache k).din with type := 0 }) rfl rfl hst).freed
    h1.good hin1 heu
  rw [h1.file, h1.entry, update_idem, icache_withSlot, if_pos rfl] at hfreed
  exact ⟨hbusy, hfreed.good, h1.kept.trans hfreed.kept, hfreed.file, hfreed.entry⟩

/-- The last reference to an inode without links. -/
def dead (F : Nat → Option File) (e : Entry) : Bool :=
  decide (e.ref = 1) && e.valid && (F e.inum).any fun f => f.nlink == 0

theorem dead_iff {F : Nat → Option File} :
    dead F e = true ↔ e.ref = 1 ∧ e.valid = true ∧ ∃ f, F e.inum = some f ∧ f.nlink = 0 := by
  unfold dead
  simp only [Bool.and_eq_true, decide_eq_true_eq, Option.any_eq_true, beq_iff_eq, and_assoc]

theorem Good.dead_iff (h : Good R s) (he : s.entry k = some e) : dead s.file e = true ↔
      (s.icache k).ref = 1 ∧ (s.icache k).valid = true ∧ (s.icache k).din.nlink = 0 := by
  rw [fs.dead_iff]
  have hin := fun hv => Good.inUse he hv
  obtain ⟨hk, hr, rfl⟩ := entry_eq_some.mp he
  refine and_congr_right fun _ => and_congr_right fun hv => ?_
  rw [h.file_eq (hin hv)]
  simp [Dinode.file]

theorem iput_spec (h : Sound R P m s) (he : s.entry k = some e) :
    spec (iput k) s (fun _ u => (dead s.file e = true → e.busy = false) ∧
      Shift R P m s (if dead s.file e then update s.file e.inum none else s.file)
        (update s.entry k (drop e)) u)
      (fun x _ => x.full ∧ ¬ P ∨ x = .panic "iput busy" ∧ e.busy = true) := by
  have hiff := h.dead_iff he
  unfold iput
  simp only [spec_bind, spec_get, spec_ite, spec_setInode]
  rw [← hiff]
  refine ⟨fun hdead => ?_, fun hdead => ?_⟩
  · obtain ⟨hone, hv, _⟩ := fs.dead_iff.mp hdead
    apply spec_mono (ifree_spec h he hv) _ (fun _ _ hx => hx)
    rintro _ u ⟨hb, hu⟩
    have hent : u.entry k = some { e with busy := false, valid := false } := by
      rw [hu.entry, update_self]
    obtain ⟨hk, hr, heq⟩ := entry_eq_some.mp hent
    have hone' : (u.icache k).ref = 1 := (congrArg Entry.ref heq).symm.trans hone
    have hm := hu.good.mark hk hr ((u.icache k).ref - 1) (u.icache k).busy _ _
      (hu.good.valid k hk hr) (if_neg (by omega)) (by omega)
    rw [hu.file, hu.entry, update_idem] at hm
    refine ⟨fun _ => hb, hm.good, hu.kept.trans hm.kept, ?_, ?_⟩
    · rw [hm.file, if_pos hdead]
    · rw [hm.entry, drop, if_pos hone]
  · refine ⟨fun hd => absurd hd hdead, ?_⟩
    rw [if_neg hdead]
    obtain ⟨hk, hr, rfl⟩ := entry_eq_some.mp he
    refine h.mark hk hr _ _ _ _ (h.valid k hk hr) ?_ (by omega)
    unfold drop
    by_cases hone : (s.icache k).ref = 1
    · grind
    · grind

/-! ## Fields -/

theorem Changed.shift (hc : Changed R s k f u) (he : s.entry k = some e)
    (ht : Enough P u s.sb.inodesAndMap m) :
    Shift R P m s (update s.file e.inum (some f)) s.entry u := by
  obtain ⟨hk, hr, rfl⟩ := entry_eq_some.mp he
  obtain ⟨d, B, l, hu⟩ := hc.slot
  have hsb : u.sb = s.sb := by
    rw [hu]
    rfl
  refine ⟨⟨hc.good, hsb ▸ ht⟩, Kept.of_slot hc.slot, funext fun i => ?_, funext fun k' => ?_⟩
  · rw [hc.file, update_apply]
  · have hic : u.icache k' = if k' = k then { s.icache k with din := d } else s.icache k' := by
      rw [hu]
      exact update_apply ..
    unfold Fs.entry
    rw [hic]
    split
    · split
      · rename_i e
        rw [e]
        rfl
      · rfl
    · rfl

/-- A copy with other fields than type, size and addresses is stored. -/
theorem Good.edit_stored (h : Good R s) (hk : InUse s k) {d : Dinode}
    (hty : d.type = (s.icache k).din.type) (hsz : d.size = (s.icache k).din.size)
    (hd : d.addrs = (s.icache k).din.addrs) (hst : Stored (s.withDin k d) (s.icache k).inum d u) :
    Changed R s k (d.file (s.byte k (s.icache k).inum)) u := by
  have ho := h.opened hk
  obtain ⟨hl, hdin⟩ := h.valid k hk.lt hk.ref hk.valid
  have hne : d.type ≠ 0 := by
    rw [hty]
    exact ho.type_ne
  obtain ⟨B, l, hslot⟩ := slot_stored (FrameAt.refl s k) hst
  have hheld : ∀ q, held s.sb u.blocks u.dinode q = held s.sb s.blocks s.dinode q := fun q => by
    rw [held_stored ho hd hne hst, h.places_eq hk]
  have he : Edit s k d u := ⟨⟨B, l, hslot⟩, hne, hst.dinode, fun q b hq => (hheld q).trans hq⟩
  refine ⟨h.edit hk he (Blocks.stored ho hd hne hst) (fun hdev x hx => ?_), fun i => ?_,
    ⟨d, B, l, hslot⟩⟩
  · grind [h.full]
  · refine he.file hl _ (fun j x => ?_) i
    rw [content_stored ho hd hne hst, h.byte_eq hk]
    split
    · rename_i hj
      rw [hj, h.byte_eq hk]
    · rfl

/-- Other fields than type, size and addresses are changed and stored. -/
theorem update_spec (h : Sound R P m s) (he : s.entry k = some e) (hv : e.valid = true)
    (hf : s.file e.inum = some f) (g : Dinode → Dinode)
    (hg : ∀ d, (g d).type = d.type ∧ (g d).size = d.size ∧ (g d).addrs = d.addrs) {f' : File}
    (hf' : ∀ d, d.file f.data = f → (g d).file f.data = f') :
    spec (do setDin k g; iupdate k) s
      (fun _ u => Shift R P m s (update s.file e.inum (some f')) s.entry u)
      (fun x _ => x.full ∧ ¬ P) := by
  have hk := Good.inUse he hv
  have hinum : e.inum = (s.icache k).inum := by
    obtain ⟨_, _, rfl⟩ := entry_eq_some.mp he
    rfl
  rw [hinum, h.file_eq hk] at hf
  obtain rfl := Option.some.inj hf
  obtain ⟨h1, h2, h3⟩ := hg (s.icache k).din
  rw [spec_bind, spec_setDin]
  have hmem := h.blocks.geometry.IBLOCK_mem (h.opened hk).live.2.1
  apply spec_mono (store_spec (h.opened hk) _ (fun _ => hmem) h.tiny) _ (fun _ _ hx => hx)
  rintro _ u ⟨hst, heu⟩
  have hc := h.edit_stored hk h1 h2 h3 hst
  rw [← hf' _ rfl]
  exact hc.shift he heu

/-! ## Contents -/

theorem Enough.sub {U U' : Finset Nat} (h : Enough P s U' m) (hU : U ⊆ U')
    (hb : P → ∀ b < s.sb.size, BBLOCK b s.sb ∈ U) : Enough P s U m := by
  refine ⟨⟨h.trans, fun hp => ?_, hb⟩, h.free⟩
  have hroom := h.room hp
  have hcard :=
    Finset.card_le_card (Finset.sdiff_subset_sdiff hU (Finset.Subset.refl s.lh.toFinset))
  omega

theorem writei_shift {src : Nat → UInt8} {off n : Nat} (h : Sound R P (spanned off n + m + 1) s)
    (he : s.entry k = some e) (hv : e.valid = true) (hf : s.file e.inum = some f)
    (hty : f.type ≠ T_DEV) (hoff : off ≤ f.size) (hmax : off + n ≤ MAXFILE * BSIZE) :
    spec (writei k src off n) s (fun r u => r = n ∧
        Shift R P m s (update s.file e.inum (some (f.write off n src))) s.entry u)
      (fun x _ => x.full ∧ ¬ P) := by
  have hk := Good.inUse he hv
  have hmem := h.blocks.geometry.IBLOCK_mem (h.opened hk).live.2.1
  have hinum : e.inum = (s.icache k).inum := by
    obtain ⟨_, _, rfl⟩ := entry_eq_some.mp he
    rfl
  rw [hinum] at hf
  apply spec_mono (h.toGood.writei hk hf hty hoff hmax (Or.inl h.tiny) fun _ => hmem) _
    (fun _ _ hx => hx)
  rintro r u ⟨rfl, hc, U', hU, heu⟩
  refine ⟨rfl, hc.shift he (heu.sub hU fun hp b hb => ?_)⟩
  obtain ⟨d, B, l, hslot⟩ := hc.slot
  have hsb : u.sb = s.sb := by
    rw [hslot]
    rfl
  rw [hsb] at hb ⊢
  exact h.tiny.bitmap hp b hb

theorem readi_shift {off n : Nat} (h : Sound R P m s) (he : s.entry k = some e)
    (hv : e.valid = true) (hf : s.file e.inum = some f) (hty : f.type ≠ T_DEV)
    (hoff : off ≤ f.size) (hmax : off + n < 2 ^ 32)
    {Q : Option (List UInt8) → Fs → Prop} {E : Stop → Fs → Prop} (hQ : Q (some (f.read off n)) s) :
    spec (readi k off n) s Q E := by
  have hk := Good.inUse he hv
  obtain ⟨_, _, rfl⟩ := entry_eq_some.mp he
  exact h.toGood.readi hk hf hty hoff hmax hQ

end Apart

end xv6.fs
