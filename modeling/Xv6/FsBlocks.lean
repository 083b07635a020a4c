-- The places that hold block numbers, direct addresses, the indirect pointer and the entries of
-- the indirect block, as a pool over the bitmap. The laws of bmap and itrunc: a block is marked
-- exactly while a place holds it, and no two places hold one.
import Xv6.FsDisk
import Xv6.Pool

open Finset Function bytes WP

namespace xv6.fs

/-! ## The places of an inode -/

/-- A place of an inode that can hold a block number: an entry of `addrs`, or of the indirect
block. -/
inductive Place where
  | addr (i : Nat)
  | entry (j : Nat)
  deriving DecidableEq

/-- The place for the `bn`-th block of a file. -/
def place (bn : Nat) : Place := if bn < NDIRECT then .addr bn else .entry (bn - NDIRECT)

/-- Block number 0 is none. -/
def nonzero (n : Nat) : Option Nat := if n = 0 then none else some n

theorem nonzero_eq_some {n b : Nat} : nonzero n = some b ↔ n = b ∧ b ≠ 0 := by
  unfold nonzero
  split
  · grind
  · grind

/-- What a place of the inode holds. -/
def Dinode.holds (d : Dinode) (blocks : Disk) : Place → Option Nat
  | .addr i => if i ≤ NDIRECT then nonzero (d.addr i) else none
  | .entry j =>
    if d.addr NDIRECT = 0 ∨ NINDIRECT ≤ j then none
    else nonzero (word (blocks (d.addr NDIRECT)) j)

/-- Inode `i` is allocated. -/
def Live (sb : Superblock) (v : Nat → Dinode) (i : Nat) : Prop :=
  0 < i ∧ i < sb.ninodes ∧ (v i).type ≠ 0

instance (sb : Superblock) (v : Nat → Dinode) (i : Nat) : Decidable (Live sb v i) :=
  inferInstanceAs (Decidable (_ ∧ _ ∧ _))

/-- What the places of the allocated inodes hold. -/
def held (sb : Superblock) (blocks : Disk) (v : Nat → Dinode) (q : Nat × Place) : Option Nat :=
  if Live sb v q.1 then (v q.1).holds blocks q.2 else none

theorem held_eq_some {sb : Superblock} {blocks : Disk} {v : Nat → Dinode} {q : Nat × Place}
    {b : Nat} : held sb blocks v q = some b ↔
    Live sb v q.1 ∧ (v q.1).holds blocks q.2 = some b := by
  unfold held
  split <;> simp_all

/-- The bitmap marks what is reserved and what the inodes `v` hold, and no block is held twice. -/
structure Blocks (R : Nat → Prop) (s : Fs) (v : Nat → Dinode) : Prop where
  geometry : Geometry s.sb
  super : superblockAt (s.blocks 1) = s.sb
  reserved : ∀ b < s.sb.nmeta, R b
  exact : pool.Exact R (fun b => b < s.sb.size ∧ s.bit b = true) (held s.sb s.blocks v)

section Laws

variable {R : Nat → Prop} {s s' : Fs} {v v' : Nat → Dinode} {q : Nat × Place} {b : Nat}

theorem Blocks.bit_meta (h : Blocks R s v) : ∀ x < s.sb.nmeta, s.bit x = true := fun x hx =>
  ((h.exact.used_iff x).mpr (Or.inl (h.reserved x hx))).2

/-- A block that is held is a data block and marked. -/
theorem Blocks.range (h : Blocks R s v) (hq : held s.sb s.blocks v q = some b) :
    s.sb.nmeta ≤ b ∧ b < s.sb.size ∧ s.bit b = true := by
  refine ⟨?_, h.exact.used_of_held hq⟩
  by_contra hb
  exact h.exact.apart q b hq (h.reserved b (by omega))

/-- A new block for an empty place. -/
theorem Blocks.take (h : Blocks R s v) (hsb : s'.sb = s.sb) (h1 : s'.blocks 1 = s.blocks 1)
    (hlt : b < s.sb.size) (hfree : s.bit b = false)
    (hbit : ∀ x < s.sb.size, s'.bit x = (decide (x = b) || s.bit x))
    (hq : held s.sb s.blocks v q = none)
    (hheld : ∀ p, held s.sb s'.blocks v' p = update (held s.sb s.blocks v) q (some b) p) :
    Blocks R s' v' := by
  refine ⟨hsb ▸ h.geometry, by rw [h1, hsb, h.super], hsb ▸ h.reserved, ?_⟩
  rw [hsb]
  refine (h.exact.take (by simp [hfree]) hq).congr (fun x => ?_) hheld
  constructor
  · grind
  · grind

/-- A place gives its block back. -/
theorem Blocks.drop (h : Blocks R s v) (hg : Gave s b s') (hq : held s.sb s.blocks v q = some b)
    (hheld : ∀ p, held s.sb s'.blocks v' p = update (held s.sb s.blocks v) q none p) :
    Blocks R s' v' := by
  have hsb := hg.frame.sb
  refine ⟨hsb ▸ h.geometry, by rw [hg.blocks 1 (Or.inr rfl), hsb, h.super], hsb ▸ h.reserved, ?_⟩
  rw [hsb]
  refine (h.exact.drop hq).congr (fun x => ?_) hheld
  constructor
  · rintro ⟨hx, hb⟩
    rw [hg.bit x hx] at hb
    simp only [Bool.and_eq_true, Bool.not_eq_true', decide_eq_false_iff_not] at hb
    exact ⟨hb.1, hx, hb.2⟩
  · grind [hg.bit]

/-- The indirect block of an allocated inode is held. -/
theorem held_indirect {i : Nat} (hl : Live s.sb v i) (h : (v i).addr NDIRECT ≠ 0) :
    held s.sb s.blocks v (i, .addr NDIRECT) = some ((v i).addr NDIRECT) := by
  rw [held_eq_some]
  refine ⟨hl, ?_⟩
  simp only [Dinode.holds, Nat.le_refl, if_true]
  exact nonzero_eq_some.mpr ⟨rfl, h⟩

/-- The places of an inode depend on its indirect block only. -/
theorem holds_congr {d : Dinode} {B B' : Disk} (h : d.addr NDIRECT ≠ 0 →
    B' (d.addr NDIRECT) = B (d.addr NDIRECT)) (p : Place) : d.holds B' p = d.holds B p := by
  cases p with
  | addr i => rfl
  | entry j =>
    grind [Dinode.holds]

/-- An inode without addresses holds nothing. -/
theorem holds_none {d : Dinode} {B : Disk} (h : ∀ i ≤ NDIRECT, d.addr i = 0) (p : Place) :
    d.holds B p = none := by
  cases p with
  | addr i =>
    simp only [Dinode.holds]
    split
    · rename_i hi
      rw [h i hi]
      rfl
    · rfl
  | entry j =>
    simp only [Dinode.holds]
    rw [if_pos (Or.inl (h NDIRECT (Nat.le_refl _)))]

/-- An inode holds the same blocks, if its indirect block did not change. -/
theorem held_congr {sb : Superblock} {B B' : Disk} (hv : q.1 < sb.ninodes → v' q.1 = v q.1)
    (hB : Live sb v q.1 → (v q.1).addr NDIRECT ≠ 0 →
      B' ((v q.1).addr NDIRECT) = B ((v q.1).addr NDIRECT)) : held sb B' v' q = held sb B v q := by
  have hlive : Live sb v' q.1 ↔ Live sb v q.1 := by
    unfold Live
    constructor
    · grind
    · grind
  unfold held
  simp only [hlive]
  split
  · rename_i hl
    rw [hv hl.2.1]
    exact holds_congr (hB hl) q.2
  · rfl

theorem held_of_live {sb : Superblock} {B : Disk} {i : Nat} (h : Live sb v i) (p : Place) :
    held sb B v (i, p) = (v i).holds B p := if_pos h

end Laws

/-! ## An inode that is being changed -/

/-- The inodes, with the copy in entry `k` of the cache in the place of its disk inode. -/
def Fs.view (s : Fs) (k : Nat) : Nat → Dinode :=
  Function.update s.dinode (s.icache k).inum (s.icache k).din

theorem view_self (s : Fs) (k : Nat) : s.view k (s.icache k).inum = (s.icache k).din :=
  update_self ..

theorem view_ne {s : Fs} {k i : Nat} (h : i ≠ (s.icache k).inum) : s.view k i = s.dinode i :=
  update_of_ne h ..

/-- What the places hold, with the copy in entry `k`. -/
def Fs.places (s : Fs) (k : Nat) (q : Nat × Place) : Option Nat :=
  held s.sb s.blocks (s.view k) q

/-- The state with another copy of the disk inode in entry `k`. -/
def Fs.withDin (s : Fs) (k : Nat) (d : Dinode) : Fs :=
  { s with icache := Function.update s.icache k { s.icache k with din := d } }

theorem spec_setDin {s : Fs} {k : Nat} {f : Dinode → Dinode} {Q : Unit → Fs → Prop}
    {E : Stop → Fs → Prop} : spec (setDin k f) s Q E ↔ Q () (s.withDin k (f (s.icache k).din)) := by
  unfold setDin setInode
  exact spec_modify _

theorem view_withDin (s : Fs) (k : Nat) (d : Dinode) :
    (s.withDin k d).view k = update (s.view k) (s.icache k).inum d := by
  have hinum : ((s.withDin k d).icache k).inum = (s.icache k).inum := by simp [Fs.withDin]
  have hdin : ((s.withDin k d).icache k).din = d := by simp [Fs.withDin]
  unfold Fs.view
  rw [hinum, hdin, update_idem]
  rfl

theorem places_withDin (s : Fs) (k : Nat) (d : Dinode) (q : Nat × Place) :
      (s.withDin k d).places k q =
      held s.sb s.blocks (update (s.view k) (s.icache k).inum d) q := by
  unfold Fs.places
  rw [view_withDin]
  rfl

/-- Only contents of blocks, the log's header and the addresses in entry `k` differ. -/
def FrameAt (s : Fs) (k : Nat) (s' : Fs) : Prop :=
  ∃ as B l, s' = { s.withDin k { (s.icache k).din with addrs := as } with blocks := B, lh := l }

section FrameAt

variable {s t u : Fs} {k : Nat}

theorem Frame.at (h : Frame s t) (k : Nat) : FrameAt s k t := by
  obtain ⟨B, l, rfl⟩ := h
  exact ⟨(s.icache k).din.addrs, B, l, by simp [Fs.withDin]⟩

theorem FrameAt.refl (s : Fs) (k : Nat) : FrameAt s k s := Frame.at ⟨s.blocks, s.lh, rfl⟩ k

theorem FrameAt.trans (h1 : FrameAt s k t) (h2 : FrameAt t k u) : FrameAt s k u := by
  obtain ⟨as, B, l, rfl⟩ := h1
  obtain ⟨as', B', l', rfl⟩ := h2
  refine ⟨as', B', l', ?_⟩
  simp [Fs.withDin]

theorem FrameAt.sb (h : FrameAt s k t) : t.sb = s.sb := by
  obtain ⟨as, B, l, rfl⟩ := h
  rfl

theorem FrameAt.inum (h : FrameAt s k t) : (t.icache k).inum = (s.icache k).inum := by
  obtain ⟨as, B, l, rfl⟩ := h
  simp [Fs.withDin]

theorem FrameAt.din (h : FrameAt s k t) :
    ∃ as, (t.icache k).din = { (s.icache k).din with addrs := as } := by
  obtain ⟨as, B, l, rfl⟩ := h
  exact ⟨as, by simp [Fs.withDin]⟩

theorem FrameAt.type (h : FrameAt s k t) : (t.icache k).din.type = (s.icache k).din.type := by
  obtain ⟨as, B, l, rfl⟩ := h
  simp [Fs.withDin]

/-- A copy with new addresses. -/
theorem Frame.withAddr (h : Frame s t) (k i a : Nat) :
    FrameAt s k (t.withDin k ((s.icache k).din.setAddr i a)) := by
  obtain ⟨B, l, rfl⟩ := h
  exact ⟨_, B, l, rfl⟩

end FrameAt

/-- What an inode gains while blocks are added to it at the places of `T`: what was held is held
still, what was there is there, and new data blocks are zero. -/
structure Grew (s : Fs) (k : Nat) (T : Place → Prop) (s' : Fs) : Prop where
  keep : ∀ q b, s.places k q = some b → s'.places k q = some b
  data : ∀ q b, s.places k q = some b → q.2 ≠ .addr NDIRECT → s'.blocks b = s.blocks b
  fresh : ∀ q b, s.places k q = none → s'.places k q = some b →
    q.1 = (s.icache k).inum ∧ T q.2 ∧ (q.2 ≠ .addr NDIRECT → s'.blocks b = fun _ => 0)
  dinode : ∀ i < s.sb.ninodes, s'.dinode i = s.dinode i
  slot : FrameAt s k s'

theorem Grew.refl (s : Fs) (k : Nat) (T : Place → Prop) : Grew s k T s := by
  refine ⟨fun _ _ h => h, fun _ _ _ _ => rfl, fun q b h h' => ?_, fun _ _ => rfl, FrameAt.refl s k⟩
  rw [h] at h'
  cases h'

theorem Grew.mono {s s' : Fs} {k : Nat} {T T' : Place → Prop} (h : Grew s k T s')
    (hT : ∀ p, T p → T' p) : Grew s k T' s' :=
  ⟨h.keep, h.data, fun q b hn hb => ⟨(h.fresh q b hn hb).1, hT _ (h.fresh q b hn hb).2.1,
    (h.fresh q b hn hb).2.2⟩, h.dinode, h.slot⟩

theorem Grew.trans {s t u : Fs} {k : Nat} {T : Place → Prop} (h1 : Grew s k T t)
    (h2 : Grew t k T u) : Grew s k T u := by
  refine ⟨fun q b h => h2.keep q b (h1.keep q b h), fun q b h hq => ?_, fun q b hn hb => ?_,
    fun i hi => ?_, h1.slot.trans h2.slot⟩
  · rw [h2.data q b (h1.keep q b h) hq, h1.data q b h hq]
  · cases ht : t.places k q with
    | none =>
      have := h2.fresh q b ht hb
      rwa [h1.slot.inum] at this
    | some c =>
      grind [h2.keep, Option.some.inj, h1.fresh, h2.data]
  · rw [h2.dinode i (by rwa [h1.slot.sb]), h1.dinode i hi]

/-! ## bmap -/

section Bmap

variable {R : Nat → Prop} {P : Prop} {s t : Fs} {k b : Nat} {U : Finset Nat} {m : Nat}

/-- Entry `k` of the cache has an allocated inode, and the blocks are exact with its copy. -/
structure Opened (R : Nat → Prop) (s : Fs) (k : Nat) : Prop where
  blocks : Blocks R s (s.view k)
  live : Live s.sb (s.view k) (s.icache k).inum

/-- A block that `balloc` found is none of those held. -/
theorem Took.not_held (ht : Took s b t) (h : Blocks R s (s.view k)) {q : Nat × Place} {c : Nat}
    (hq : s.places k q = some c) : c ≠ b := by
  rintro rfl
  have := (h.range hq).2.2
  rw [ht.was_free] at this
  cases this

/-- ... so it leaves what is held as it is. -/
theorem Took.blocks_held (ht : Took s b t) (h : Blocks R s (s.view k)) {q : Nat × Place} {c : Nat}
    (hq : s.places k q = some c) : t.blocks c = s.blocks c :=
  ht.blocks c (ht.not_held h hq) (Or.inl (h.range hq).1)

theorem Took.ne_zero (ht : Took s b t) (hg : Geometry s.sb) : b ≠ 0 := by
  have := hg.one_lt_nmeta
  have := ht.data
  omega

theorem Took.super (ht : Took s b t) (hg : Geometry s.sb) : t.blocks 1 = s.blocks 1 := by
  have := hg.one_lt_nmeta
  have := ht.data
  exact ht.blocks 1 (by omega) (Or.inr rfl)

theorem Took.lt_uint (ht : Took s b t) (hg : Geometry s.sb) : b < 2 ^ 32 := by
  have := hg.small
  have := ht.lt
  omega

/-- What an inode holds with a new block in `addrs[i]`. A new indirect block has no entries. -/
theorem holds_setAddr {d : Dinode} {B B' : Disk} {i : Nat} (hi : i ≤ NDIRECT) (hb : b ≠ 0)
    (hlt : b < 2 ^ 32) (h0 : d.addr i = 0)
    (hB : d.addr NDIRECT ≠ 0 → B' (d.addr NDIRECT) = B (d.addr NDIRECT))
    (hz : B' b = fun _ => 0) (p : Place) :
    (d.setAddr i b).holds B' p = if p = .addr i then some b else d.holds B p := by
  cases p with
  | addr j =>
    simp only [Dinode.holds, Place.addr.injEq]
    by_cases hj : j = i
    · subst hj
      rw [if_pos hi, if_pos rfl, Dinode.addr_setAddr_self hlt]
      exact nonzero_eq_some.mpr ⟨rfl, hb⟩
    · grind [Dinode.addr_setAddr_ne]
  | entry j =>
    simp only [Dinode.holds, reduceCtorEq, if_false]
    by_cases hn : i = NDIRECT
    · subst hn
      rw [Dinode.addr_setAddr_self hlt, hz, if_pos (Or.inl h0)]
      split
      · rfl
      · simp [nonzero, word, le]
    · rw [Dinode.addr_setAddr_ne hi (Nat.le_refl _) (Ne.symm hn)]
      split
      · rfl
      · grind

/-- What is held after the copy in entry `k` changed, and with it no indirect block of another
inode. -/
theorem places_changed (h : Opened R s k) (hic : t.icache = s.icache) (hsb : t.sb = s.sb)
    (hdin : ∀ i < s.sb.ninodes, t.dinode i = s.dinode i) {d : Dinode} (hd : d.type ≠ 0)
    (hB : ∀ q c, s.places k q = some c → t.blocks c = s.blocks c) (p : Nat × Place) :
    (t.withDin k d).places k p = if p.1 = (s.icache k).inum then d.holds t.blocks p.2
    else s.places k p := by
  obtain ⟨j, p⟩ := p
  rw [places_withDin, hic, hsb]
  by_cases hj : j = (s.icache k).inum
  · subst hj
    have hlive : Live s.sb (update (t.view k) (s.icache k).inum d) (s.icache k).inum :=
      ⟨h.live.1, h.live.2.1, by rwa [update_self]⟩
    rw [if_pos rfl, held_of_live hlive, update_self]
  · rw [if_neg hj]
    refine held_congr (fun hlt => ?_) (fun hl hz => hB _ _ (held_indirect hl hz))
    rw [update_of_ne hj, view_ne (by rwa [hic]), view_ne hj]
    exact hdin j hlt

theorem Opened.live_withDin (h : Opened R s k) (hic : t.icache = s.icache) (hsb : t.sb = s.sb)
    {d : Dinode} (hd : d.type ≠ 0) :
    Live (t.withDin k d).sb ((t.withDin k d).view k) ((t.withDin k d).icache k).inum := by
  have hinum : ((t.withDin k d).icache k).inum = (s.icache k).inum := by simp [Fs.withDin, hic]
  have hdin : ((t.withDin k d).icache k).din = d := by simp [Fs.withDin]
  have hl := h.live
  unfold Live at hl ⊢
  rw [view_self, hinum, hdin, show (t.withDin k d).sb = s.sb from hsb]
  exact ⟨hl.1, hl.2.1, hd⟩

theorem Opened.type_ne (h : Opened R s k) : (s.icache k).din.type ≠ 0 := by
  have := h.live.2.2
  rwa [view_self] at this

/-- What the inode in entry `k` holds. -/
theorem Opened.places_self (h : Opened R s k) (p : Place) :
    s.places k ((s.icache k).inum, p) = (s.icache k).din.holds s.blocks p := by
  rw [Fs.places, held_of_live h.live, view_self]

theorem Opened.places_indirect (h : Opened R s k) (hz : (s.icache k).din.addr NDIRECT ≠ 0) :
    s.places k ((s.icache k).inum, .addr NDIRECT) = some ((s.icache k).din.addr NDIRECT) := by
  rw [h.places_self]
  simp only [Dinode.holds, Nat.le_refl, if_true]
  exact nonzero_eq_some.mpr ⟨rfl, hz⟩

/-- What is held after a new block went into `addrs[i]`. -/
theorem places_setAddr (h : Opened R s k) {i : Nat} (hi : i ≤ NDIRECT)
    (h0 : (s.icache k).din.addr i = 0) (ht : Took s b t) (p : Nat × Place) :
    (t.withDin k ((s.icache k).din.setAddr i b)).places k p =
      update (s.places k) ((s.icache k).inum, .addr i) (some b) p := by
  have hg := h.blocks.geometry
  have hB : ∀ q c, s.places k q = some c → t.blocks c = s.blocks c :=
    fun q c hq => ht.blocks_held h.blocks hq
  obtain ⟨j, p⟩ := p
  rw [places_changed (d := (s.icache k).din.setAddr i b) h ht.frame.icache ht.frame.sb ht.dinode
    h.type_ne hB]
  by_cases hj : j = (s.icache k).inum
  · subst hj
    have hind : (s.icache k).din.addr NDIRECT ≠ 0 → t.blocks ((s.icache k).din.addr NDIRECT) =
        s.blocks ((s.icache k).din.addr NDIRECT) := by
      exact fun hz => hB _ _ (h.places_indirect hz)
    rw [if_pos rfl, holds_setAddr hi (ht.ne_zero hg) (ht.lt_uint hg) h0 hind ht.zero]
    by_cases hp : p = .addr i
    · grind
    · grind [h.places_self]
  · grind

/-- What is held after a new block went into an entry of the indirect block. -/
theorem places_setWord (h : Opened R s k) {j : Nat} (hj : j < NINDIRECT)
    (hind : (s.icache k).din.addr NDIRECT ≠ 0) (ht : Took s b t) (p : Nat × Place) :
    (t.logged ((s.icache k).din.addr NDIRECT)
      (setWord (s.blocks ((s.icache k).din.addr NDIRECT)) j b)).places k p =
      update (s.places k) ((s.icache k).inum, .entry j) (some b) p := by
  have hic := ht.frame.icache
  have hsb := ht.frame.sb
  have hg := h.blocks.geometry
  have hself := h.places_indirect hind
  have hview : ∀ i < s.sb.ninodes, (t.logged ((s.icache k).din.addr NDIRECT)
      (setWord (s.blocks ((s.icache k).din.addr NDIRECT)) j b)).view k i = s.view k i := by
    intro i hi
    have h1 := hg.IBLOCK_lt hi
    have h2 := hg.bmapstart_lt
    have h3 := (h.blocks.range hself).1
    unfold Fs.view
    rw [show (t.logged _ _).icache = s.icache from hic]
    by_cases hn : i = (s.icache k).inum
    · grind
    · grind [dinode_logged_ne, ht.dinode]
  obtain ⟨i, p⟩ := p
  rw [Fs.places, sb_logged, hsb]
  by_cases hi : i = (s.icache k).inum
  · subst hi
    have hlive : Live s.sb ((t.logged ((s.icache k).din.addr NDIRECT)
        (setWord (s.blocks ((s.icache k).din.addr NDIRECT)) j b)).view k) (s.icache k).inum := by
      have := h.live
      unfold Live at this ⊢
      rwa [hview _ this.2.1]
    rw [held_of_live hlive, hview _ h.live.2.1, view_self]
    cases p with
    | addr a =>
      rw [update_of_ne (by simp), h.places_self]
      rfl
    | entry j' =>
      by_cases he : j' = j
      · subst he
        rw [update_self]
        simp only [Dinode.holds]
        rw [if_neg (by omega), blocks_logged_self, word_setWord_self (ht.lt_uint hg)]
        exact nonzero_eq_some.mpr ⟨rfl, ht.ne_zero hg⟩
      · grind [h.places_self, Dinode.holds, blocks_logged_self, word_setWord_ne]
  · rw [update_of_ne (by simp [hi])]
    refine held_congr (fun hlt => hview i hlt) (fun hl hz => ?_)
    have hother := held_indirect hl hz
    have hne : (s.view k i).addr NDIRECT ≠ (s.icache k).din.addr NDIRECT := by
      intro e
      rw [e] at hother
      have := h.blocks.exact.once _ _ _ hother hself
      exact hi (congrArg Prod.fst this)
    rw [blocks_logged_ne hne]
    exact ht.blocks_held h.blocks hother

/-- An inode that gained one block. -/
theorem Opened.grew (h : Opened R s k) {p : Place} {s' : Fs} (hlt : b < s.sb.size)
    (hfree : s.bit b = false) (hbit : ∀ x < s.sb.size, s'.bit x = (decide (x = b) || s.bit x))
    (h1 : s'.blocks 1 = s.blocks 1) (hdin : ∀ i < s.sb.ninodes, s'.dinode i = s.dinode i)
    (hnone : s.places k ((s.icache k).inum, p) = none) (hheld : ∀ q, s'.places k q =
      update (s.places k) ((s.icache k).inum, p) (some b) q)
    (hdata : ∀ q c, s.places k q = some c → q.2 ≠ .addr NDIRECT → s'.blocks c = s.blocks c)
    (hzero : p ≠ .addr NDIRECT → s'.blocks b = fun _ => 0) (hslot : FrameAt s k s') :
    Opened R s' k ∧ Grew s k (· = p) s' := by
  have hgrew : Grew s k (· = p) s' := by
    refine ⟨fun q c hq => ?_, hdata, fun q c hn hc => ?_, hdin, hslot⟩
    · grind
    · grind
  refine ⟨⟨?_, ?_⟩, hgrew⟩
  · refine h.blocks.take hgrew.slot.sb h1 hlt hfree hbit hnone fun q => ?_
    have hq := hheld q
    unfold Fs.places at hq
    rwa [hgrew.slot.sb] at hq
  · have hl := h.live
    unfold Live at hl ⊢
    rw [view_self] at hl ⊢
    rwa [hslot.sb, hslot.inum, hslot.type]

theorem Enough.withDin (h : Enough P s U m) (k : Nat) (d : Dinode) : Enough P (s.withDin k d) U m :=
  ⟨⟨h.trans, h.room, h.bitmap⟩, h.free⟩

theorem Enough.pay (h : Enough P s U (m + 1)) (b : Nat) : Enough P s (insert b U) m :=
  ⟨h.toRoom.pay b, fun hp => Nat.le_of_succ_le (h.free hp)⟩

/-- A new block in an empty entry of `addrs`. -/
theorem Opened.setAddr (h : Opened R s k) {i : Nat} (hi : i ≤ NDIRECT)
    (h0 : (s.icache k).din.addr i = 0) (ht : Took s b t) :
    Opened R (t.withDin k ((s.icache k).din.setAddr i b)) k ∧
      Grew s k (· = .addr i) (t.withDin k ((s.icache k).din.setAddr i b)) := by
  have hnone : s.places k ((s.icache k).inum, .addr i) = none := by
    rw [h.places_self]
    simp [Dinode.holds, hi, h0, nonzero]
  exact h.grew ht.lt ht.was_free ht.bit (ht.super h.blocks.geometry) ht.dinode hnone
    (places_setAddr h hi h0 ht) (fun q c hq _ => ht.blocks_held h.blocks hq) (fun _ => ht.zero)
    (ht.frame.withAddr k i b)

theorem baddr_spec (h : Opened R s k) {i : Nat} (hi : i ≤ NDIRECT) (he : Enough P s U (m + 1)) :
    spec (baddr k i) s (fun a s' => Opened R s' k ∧ Grew s k (· = .addr i) s' ∧
        (s'.icache k).din.addr i = a ∧
        a ≠ 0 ∧ Enough P s' (insert a U) m) (fun e _ => e.full ∧ ¬ P) := by
  have hg := h.blocks.geometry
  unfold baddr
  simp only [spec_bind, spec_get, spec_ite, spec_pure]
  refine ⟨fun h0 => ?_, fun h0 => ⟨h, Grew.refl s k _, trivial, h0, he.pay _⟩⟩
  refine spec_mono (balloc_spec hg h.blocks.bit_meta he) ?_ (fun _ _ he => he)
  rintro b t ⟨ht, het⟩
  have hic := ht.frame.icache
  rw [spec_setDin, hic]
  obtain ⟨ho, hgrew⟩ := h.setAddr hi h0 ht
  refine ⟨ho, hgrew, ?_, ht.ne_zero hg, het.withDin k _⟩
  simp only [Fs.withDin, update_self]
  exact Dinode.addr_setAddr_self (ht.lt_uint hg)

/-- The places that `bmap` of block `bn` can fill. -/
def mapPlaces (bn : Nat) (p : Place) : Prop :=
  p = place bn ∨ NDIRECT ≤ bn ∧ p = .addr NDIRECT

/-- If `P` holds, there is enough for `m` data blocks, and for the indirect block if it has not
been paid for. -/
def Budget (P : Prop) (s : Fs) (k : Nat) (U : Finset Nat) (m : Nat) : Prop :=
  Enough P s U (m + 1) ∨
    (s.icache k).din.addr NDIRECT ≠ 0 ∧ (s.icache k).din.addr NDIRECT ∈ U ∧ Enough P s U m

/-- What `bmap` returns. -/
structure Mapped (R : Nat → Prop) (P : Prop) (s : Fs) (k bn : Nat) (U : Finset Nat) (m a : Nat)
    (s' : Fs) : Prop where
  opened : Opened R s' k
  grew : Grew s k (mapPlaces bn) s'
  place : s'.places k ((s.icache k).inum, place bn) = some a
  budget : ∃ U', U ⊆ U' ∧ a ∈ U' ∧ Budget P s' k U' m

theorem bmap_direct (h : Opened R s k) {bn : Nat} (hbn : bn < NDIRECT)
    (hb : Budget P s k U (m + 1)) :
    spec (bmap k bn) s (fun a s' => Mapped R P s k bn U m a s') (fun e _ => e.full ∧ ¬ P) := by
  have hplace : place bn = .addr bn := if_pos hbn
  have hle : bn ≤ NDIRECT := Nat.le_of_lt hbn
  have hmapped : ∀ {a s' U'}, Opened R s' k → Grew s k (· = .addr bn) s' →
      (s'.icache k).din.addr bn = a → a ≠ 0 → U ⊆ U' → a ∈ U' → Budget P s' k U' m →
      Mapped R P s k bn U m a s' := by
    intro a s' U' ho hgrew ha h0 hU haU hbud
    refine ⟨ho, hgrew.mono fun p hp => Or.inl (hplace ▸ hp), ?_, U', hU, haU, hbud⟩
    rw [hplace, ← hgrew.slot.inum, ho.places_self]
    simp only [Dinode.holds, if_pos hle]
    exact nonzero_eq_some.mpr ⟨ha, h0⟩
  unfold bmap
  rw [if_pos hbn]
  rcases hb with he | ⟨hi0, hiU, he⟩
  · refine spec_mono (baddr_spec h hle he) ?_ (fun _ _ he => he)
    rintro a s' ⟨ho, hgrew, ha, h0, he'⟩
    exact hmapped ho hgrew ha h0 (subset_insert ..) (mem_insert_self ..) (Or.inl he')
  · refine spec_mono (baddr_spec h hle he) ?_ (fun _ _ he => he)
    rintro a s' ⟨ho, hgrew, ha, h0, he'⟩
    refine hmapped ho hgrew ha h0 (subset_insert ..) (mem_insert_self ..) (Or.inr ?_)
    -- the indirect pointer is another entry of `addrs`, and it was held before
    have hind' := hgrew.keep _ _ (h.places_indirect hi0)
    rw [← hgrew.slot.inum, ho.places_self] at hind'
    simp only [Dinode.holds, Nat.le_refl, if_true] at hind'
    have heq := (nonzero_eq_some.mp hind').1
    rw [heq]
    exact ⟨hi0, mem_insert_of_mem hiU, he'⟩

/-- What an entry of the indirect block holds. -/
theorem Opened.places_entry (h : Opened R s k) {j : Nat} (hj : j < NINDIRECT)
    (hind : (s.icache k).din.addr NDIRECT ≠ 0) : s.places k ((s.icache k).inum, .entry j) =
      nonzero (word (s.blocks ((s.icache k).din.addr NDIRECT)) j) := by
  rw [h.places_self]
  simp only [Dinode.holds]
  rw [if_neg (by omega)]

/-- Writing to the indirect block leaves the bitmap. -/
theorem bit_indirect (h : Opened R s k) (hind : (s.icache k).din.addr NDIRECT ≠ 0)
    (ht : Took s b t) (data : Block) {x : Nat} (hx : x < s.sb.size) :
    (t.logged ((s.icache k).din.addr NDIRECT) data).bit x = t.bit x := by
  have h1 := (h.blocks.range (h.places_indirect hind)).1
  have h2 := h.blocks.geometry.BBLOCK_lt hx
  exact bit_logged_ne (by rw [ht.frame.sb]; omega)

/-- A new block in an empty entry of the indirect block. -/
theorem Opened.setEntry (h : Opened R s k) {j : Nat} (hj : j < NINDIRECT)
    (hind : (s.icache k).din.addr NDIRECT ≠ 0)
    (h0 : word (s.blocks ((s.icache k).din.addr NDIRECT)) j = 0) (ht : Took s b t) :
    Opened R (t.logged ((s.icache k).din.addr NDIRECT)
        (setWord (s.blocks ((s.icache k).din.addr NDIRECT)) j b)) k ∧
      Grew s k (· = .entry j) (t.logged ((s.icache k).din.addr NDIRECT)
        (setWord (s.blocks ((s.icache k).din.addr NDIRECT)) j b)) := by
  have hg := h.blocks.geometry
  have hsb := ht.frame.sb
  have hself := h.places_indirect hind
  have hdata := (h.blocks.range hself).1
  have hnone : s.places k ((s.icache k).inum, .entry j) = none := by
    rw [h.places_entry hj hind, h0]
    rfl
  refine h.grew ht.lt ht.was_free (fun x hx => (bit_indirect h hind ht _ hx).trans (ht.bit x hx)) ?_
    (fun i hi => ?_) hnone (places_setWord h hj hind ht) (fun q c hq hne => ?_) (fun _ => ?_)
    ((ht.frame.trans (frame_logged ..)).at k)
  · have := hg.one_lt_nmeta
    rw [blocks_logged_ne (by omega), ht.super hg]
  · have := hg.IBLOCK_lt hi
    have := hg.bmapstart_lt
    rw [dinode_logged_ne (by rw [hsb]; omega), ht.dinode i hi]
  · have hc : c ≠ (s.icache k).din.addr NDIRECT := by
      rintro rfl
      exact hne (congrArg Prod.snd (h.blocks.exact.once _ _ _ hq hself))
    rw [blocks_logged_ne hc, ht.blocks_held h.blocks hq]
  · rw [blocks_logged_ne (ht.not_held h.blocks hself).symm, ht.zero]

theorem bentry_spec (h : Opened R s k) {j : Nat} (hj : j < NINDIRECT)
    (hind : (s.icache k).din.addr NDIRECT ≠ 0) (hU : (s.icache k).din.addr NDIRECT ∈ U)
    (he : Enough P s U (m + 1)) : spec (bentry ((s.icache k).din.addr NDIRECT) j) s
      (fun a s' => Opened R s' k ∧ Grew s k (· = .entry j) s' ∧
        s'.places k ((s.icache k).inum, .entry j) = some a ∧ s'.icache = s.icache ∧
        Enough P s' (insert a U) m) (fun e _ => e.full ∧ ¬ P) := by
  unfold bentry
  simp only [bread, spec_bind, spec_get, spec_pure, spec_ite]
  refine ⟨fun h0 => ?_, fun h0 => ⟨h, Grew.refl s k _, ?_, trivial, he.pay _⟩⟩
  · refine spec_mono (balloc_spec h.blocks.geometry h.blocks.bit_meta he) ?_ (fun _ _ he => he)
    rintro b t ⟨ht, het⟩
    refine spec_mono (log_write_spec het.toRoom _ _) ?_ (fun _ _ he => he)
    rintro _ s' rfl
    obtain ⟨ho, hgrew⟩ := h.setEntry hj hind h0 ht
    refine ⟨ho, hgrew, ?_, ht.frame.icache, het.toRoom.log fun _ => ?_, fun hp => ?_⟩
    · grind [places_setWord]
    · exact mem_insert_of_mem hU
    · rw [nfree_congr (sb_logged ..) fun x hx =>
        bit_indirect h hind ht _ (by rwa [ht.frame.sb] at hx)]
      exact het.free hp
  · rw [h.places_entry hj hind]
    exact nonzero_eq_some.mpr ⟨rfl, h0⟩

theorem bmap_indirect (h : Opened R s k) {bn : Nat} (hbn : NDIRECT ≤ bn) (hlt : bn < MAXFILE)
    (hb : Budget P s k U (m + 1)) :
    spec (bmap k bn) s (fun a s' => Mapped R P s k bn U m a s') (fun e _ => e.full ∧ ¬ P) := by
  have hplace : place bn = .entry (bn - NDIRECT) := if_neg (Nat.not_lt.mpr hbn)
  have hj : bn - NDIRECT < NINDIRECT := by grind
  -- after the indirect block is there and paid for
  have hentry : ∀ t U1, Opened R t k → Grew s k (· = .addr NDIRECT) t →
      (t.icache k).din.addr NDIRECT ≠ 0 → (t.icache k).din.addr NDIRECT ∈ U1 → U ⊆ U1 →
      Enough P t U1 (m + 1) →
      spec (bentry ((t.icache k).din.addr NDIRECT) (bn - NDIRECT)) t
        (fun a s' => Mapped R P s k bn U m a s') (fun e _ => e.full ∧ ¬ P) := by
    intro t U1 ho hgrew h0 hU1 hU he
    refine spec_mono (bentry_spec ho hj h0 hU1 he) ?_ (fun _ _ he => he)
    rintro a s' ⟨ho', hgrew', ha, hic, he'⟩
    refine ⟨ho', (hgrew.mono fun p hp => Or.inr ⟨hbn, hp⟩).trans
      (hgrew'.mono fun p hp => Or.inl (hplace ▸ hp)), ?_, insert a U1,
      hU.trans (subset_insert ..), mem_insert_self .., Or.inr ?_⟩
    · rw [hplace, ← hgrew.slot.inum]
      exact ha
    · grind
  unfold bmap
  rw [if_neg (Nat.not_lt.mpr hbn), if_pos hj, spec_bind]
  rcases hb with he | ⟨hi0, hiU, he⟩
  · refine spec_mono (baddr_spec h (Nat.le_refl _) he) ?_ (fun _ _ he => he)
    rintro a t ⟨ho, hgrew, rfl, h0, he'⟩
    exact hentry t _ ho hgrew h0 (mem_insert_self ..) (subset_insert ..) he'
  · unfold baddr
    simp only [spec_bind, spec_get, if_neg hi0, spec_pure]
    exact hentry s U h (Grew.refl s k _) hi0 hiU (Finset.Subset.refl _) he

theorem bmap_spec (h : Opened R s k) {bn : Nat} (hlt : bn < MAXFILE) (hb : Budget P s k U (m + 1)) :
    spec (bmap k bn) s (fun a s' => Mapped R P s k bn U m a s') (fun e _ => e.full ∧ ¬ P) := by
  by_cases hbn : bn < NDIRECT
  · exact bmap_direct h hbn hb
  · exact bmap_indirect h (Nat.not_lt.mp hbn) hlt hb

/-- A block that is there is found, and nothing changes. -/
theorem bmap_mapped (h : Opened R s k) {bn a : Nat} (hlt : bn < MAXFILE)
    (ha : s.places k ((s.icache k).inum, place bn) = some a) {Q : Nat → Fs → Prop}
    {E : Stop → Fs → Prop} : spec (bmap k bn) s Q E ↔ Q a s := by
  rw [h.places_self] at ha
  unfold bmap
  by_cases hbn : bn < NDIRECT
  · rw [show place bn = .addr bn from if_pos hbn] at ha
    simp only [Dinode.holds, if_pos (Nat.le_of_lt hbn)] at ha
    obtain ⟨rfl, h0⟩ := nonzero_eq_some.mp ha
    rw [if_pos hbn]
    unfold baddr
    simp only [spec_bind, spec_get, if_neg h0, spec_pure]
  · rw [show place bn = .entry (bn - NDIRECT) from if_neg hbn] at ha
    have hj : bn - NDIRECT < NINDIRECT := by grind
    simp only [Dinode.holds] at ha
    split at ha
    · cases ha
    · rename_i hi0
      obtain ⟨rfl, h0⟩ := nonzero_eq_some.mp ha
      have hi : (s.icache k).din.addr NDIRECT ≠ 0 := fun e => hi0 (Or.inl e)
      rw [if_neg hbn, if_pos hj]
      unfold baddr bentry
      simp only [bread, spec_bind, spec_get, if_neg hi, spec_pure, if_neg h0]

end Bmap

end xv6.fs
