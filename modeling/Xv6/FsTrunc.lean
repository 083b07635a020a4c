-- The laws of itrunc and of the last iput: every block of the inode goes back to the bitmap, each
-- once, and no data block changes.
import Xv6.FsBlocks

open Function bytes WP

namespace xv6.fs

/-- What changes while blocks of the inode in entry `k` are given back: bits of the bitmap, and
the addresses in the copy. -/
structure Trimmed (s : Fs) (k : Nat) (s' : Fs) : Prop where
  dinode : ∀ i < s.sb.ninodes, s'.dinode i = s.dinode i
  blocks : ∀ x, s.sb.nmeta ≤ x ∨ x = 1 → s'.blocks x = s.blocks x
  slot : FrameAt s k s'

theorem Trimmed.refl (s : Fs) (k : Nat) : Trimmed s k s :=
  ⟨fun _ _ => rfl, fun _ _ => rfl, FrameAt.refl s k⟩

theorem Trimmed.trans {s t u : Fs} {k : Nat} (h1 : Trimmed s k t) (h2 : Trimmed t k u) :
    Trimmed s k u := by
  refine ⟨fun i hi => ?_, fun x hx => ?_, h1.slot.trans h2.slot⟩
  · rw [h2.dinode i (by rwa [h1.slot.sb]), h1.dinode i hi]
  · rw [h2.blocks x (by rwa [h1.slot.sb]), h1.blocks x hx]

section Trunc

variable {R : Nat → Prop} {P : Prop} {s t : Fs} {k b : Nat} {U : Finset Nat} {m : Nat}

/-- What an inode holds without its direct block `i`. -/
theorem holds_clearAddr {d : Dinode} {B B' : Disk} {i : Nat} (hi : i < NDIRECT)
    (hB : d.addr NDIRECT ≠ 0 → B' (d.addr NDIRECT) = B (d.addr NDIRECT)) (p : Place) :
    (d.setAddr i 0).holds B' p = if p = .addr i then none else d.holds B p := by
  have hle : i ≤ NDIRECT := Nat.le_of_lt hi
  cases p with
  | addr j =>
    simp only [Dinode.holds, Place.addr.injEq]
    by_cases hj : j = i
    · subst hj
      rw [if_pos hle, if_pos rfl, Dinode.addr_setAddr_self (by decide)]
      rfl
    · grind [Dinode.addr_setAddr_ne]
  | entry j =>
    simp only [Dinode.holds, reduceCtorEq, if_false]
    rw [Dinode.addr_setAddr_ne hle (Nat.le_refl _) (Nat.ne_of_gt hi)]
    split
    · rfl
    · grind

/-- A copy with a direct block less. -/
theorem Opened.trimmed (h : Opened R s k) {i : Nat} (hi : i < NDIRECT)
    (hb : (s.icache k).din.addr i ≠ 0) (hg : Gave s ((s.icache k).din.addr i) t) :
    Opened R (t.withDin k ((s.icache k).din.setAddr i 0)) k ∧
      Trimmed s k (t.withDin k ((s.icache k).din.setAddr i 0)) := by
  have hB : ∀ q c, s.places k q = some c → t.blocks c = s.blocks c :=
    fun q c hq => hg.blocks c (Or.inl (h.blocks.range hq).1)
  have hself : s.places k ((s.icache k).inum, .addr i) = some ((s.icache k).din.addr i) := by
    rw [h.places_self]
    simp only [Dinode.holds, if_pos (Nat.le_of_lt hi)]
    exact nonzero_eq_some.mpr ⟨rfl, hb⟩
  have hplaces : ∀ p, (t.withDin k ((s.icache k).din.setAddr i 0)).places k p =
      update (s.places k) ((s.icache k).inum, .addr i) none p := by
    rintro ⟨j, p⟩
    rw [places_changed (d := (s.icache k).din.setAddr i 0) h hg.frame.icache hg.frame.sb hg.dinode
      h.type_ne hB]
    by_cases hj : j = (s.icache k).inum
    · subst hj
      rw [if_pos rfl, holds_clearAddr hi fun hz => hB _ _ (h.places_indirect hz)]
      by_cases hp : p = .addr i
      · grind
      · grind [h.places_self]
    · grind
  have hsb := hg.frame.sb
  have hic := hg.frame.icache
  refine ⟨⟨?_, h.live_withDin hic hsb h.type_ne⟩, hg.dinode, hg.blocks, hg.frame.withAddr k i 0⟩
  · have hblocks : Blocks R t ((t.withDin k ((s.icache k).din.setAddr i 0)).view k) := by
      refine h.blocks.drop hg hself fun p => ?_
      have hp := hplaces p
      rwa [Fs.places, show (t.withDin k _).sb = t.sb from rfl, hsb] at hp
    exact ⟨hblocks.geometry, hblocks.super, hblocks.reserved, hblocks.exact⟩

theorem truncDirect_spec (h : Opened R s k) {i : Nat} (hi : i < NDIRECT) (he : Enough P s U m) :
    spec (truncDirect k i) s (fun _ s' => Opened R s' k ∧ Trimmed s k s' ∧ Enough P s' U m ∧
        ∀ j ≤ NDIRECT, (s'.icache k).din.addr j = if j = i then 0 else (s.icache k).din.addr j)
      (fun e _ => e.full ∧ ¬ P) := by
  unfold truncDirect
  simp only [spec_bind, spec_get, spec_ite, spec_pure]
  refine ⟨fun hb => ?_, fun hb => ⟨h, Trimmed.refl s k, he, fun j _ => ?_⟩⟩
  · have hself : s.places k ((s.icache k).inum, .addr i) = some ((s.icache k).din.addr i) := by
      rw [h.places_self]
      simp only [Dinode.holds, if_pos (Nat.le_of_lt hi)]
      exact nonzero_eq_some.mpr ⟨rfl, hb⟩
    obtain ⟨_, hlt, hset⟩ := h.blocks.range hself
    refine spec_mono (bfree_spec h.blocks.geometry h.blocks.super hlt hset he) ?_ (fun _ _ he => he)
    rintro _ t ⟨hg, het⟩
    rw [spec_setDin, hg.frame.icache]
    obtain ⟨h1, h2⟩ := h.trimmed hi hb hg
    refine ⟨h1, h2, het.withDin k _, fun j hj => ?_⟩
    simp only [Fs.withDin, update_self]
    split
    · grind [Dinode.addr_setAddr_self]
    · rename_i hji
      rw [Dinode.addr_setAddr_ne (Nat.le_of_lt hi) hj hji]
  · grind

/-- What is still held after the entries below `j` of the indirect block were given back. The
block itself is not changed, so its words say nothing about that. -/
def restHeld (s : Fs) (k j : Nat) (q : Nat × Place) : Option Nat :=
  if q.1 = (s.icache k).inum ∧ ∃ i < j, q.2 = .entry i then none else s.places k q

/-- The state of the second loop of `itrunc` before turn `j`. -/
structure Trimming (R : Nat → Prop) (P : Prop) (s : Fs) (k : Nat) (U : Finset Nat) (m j : Nat)
    (t : Fs) : Prop where
  exact : pool.Exact R (fun b => b < s.sb.size ∧ t.bit b = true) (restHeld s k j)
  dinode : ∀ i < s.sb.ninodes, t.dinode i = s.dinode i
  blocks : ∀ x, s.sb.nmeta ≤ x ∨ x = 1 → t.blocks x = s.blocks x
  frame : Frame s t
  enough : Enough P t U m

theorem restHeld_self (j : Nat) : restHeld s k (j + 1) ((s.icache k).inum, .entry j) = none :=
  if_pos ⟨rfl, j, Nat.lt_succ_self j, rfl⟩

theorem restHeld_entry (j : Nat) : restHeld s k j ((s.icache k).inum, .entry j) =
    s.places k ((s.icache k).inum, .entry j) := by
  refine if_neg ?_
  rintro ⟨_, i, hi, he⟩
  simp only [Place.entry.injEq] at he
  omega

theorem restHeld_ne {j : Nat} {q : Nat × Place} (hq : q ≠ ((s.icache k).inum, .entry j)) :
    restHeld s k (j + 1) q = restHeld s k j q := by
  unfold restHeld
  refine if_congr (and_congr_right fun hn => ⟨?_, ?_⟩) rfl rfl
  · grind
  · grind

/-- Giving an entry back, or passing an empty one. -/
theorem restHeld_succ (j : Nat) (q : Nat × Place) : restHeld s k (j + 1) q =
    update (restHeld s k j) ((s.icache k).inum, .entry j) none q := by
  by_cases hq : q = ((s.icache k).inum, .entry j)
  · rw [hq, restHeld_self, update_self]
  · rw [update_of_ne hq, restHeld_ne hq]

theorem Trimming.start (h : Opened R s k) (he : Enough P s U m) : Trimming R P s k U m 0 s := by
  refine ⟨h.blocks.exact.congr (fun _ => Iff.rfl) fun q => ?_, fun _ _ => rfl, fun _ _ => rfl,
    ⟨_, _, rfl⟩, he⟩
  refine if_neg ?_
  rintro ⟨_, i, hi, _⟩
  omega

theorem truncEntry_spec (h : Opened R s k) (hz : (s.icache k).din.addr NDIRECT ≠ 0) {j : Nat}
    (hj : j < NINDIRECT) (ht : Trimming R P s k U m j t) :
    spec (truncEntry (s.blocks ((s.icache k).din.addr NDIRECT)) j) t
      (fun _ t' => Trimming R P s k U m (j + 1) t') (fun e _ => e.full ∧ ¬ P) := by
  have hheld : restHeld s k j ((s.icache k).inum, .entry j) =
      nonzero (word (s.blocks ((s.icache k).din.addr NDIRECT)) j) := by
    rw [restHeld_entry, h.places_self]
    simp only [Dinode.holds]
    rw [if_neg (by omega)]
  have hg := h.blocks.geometry
  have hsb := ht.frame.sb
  unfold truncEntry
  simp only [spec_ite, spec_pure]
  refine ⟨fun hw => ?_, fun hw => ?_⟩
  · rw [show nonzero (word (s.blocks ((s.icache k).din.addr NDIRECT)) j) = some _ from
      nonzero_eq_some.mpr ⟨rfl, hw⟩] at hheld
    obtain ⟨hlt, hset⟩ := ht.exact.used_of_held hheld
    have hsuper : superblockAt (t.blocks 1) = t.sb := by
      rw [ht.blocks 1 (Or.inr rfl), hsb, h.blocks.super]
    refine spec_mono (bfree_spec (hsb ▸ hg) hsuper (hsb ▸ hlt) hset ht.enough) ?_ (fun _ _ he => he)
    rintro _ u ⟨hgave, heu⟩
    refine ⟨?_, fun i hi => ?_, fun x hx => ?_, ht.frame.trans hgave.frame, heu⟩
    · refine (ht.exact.drop hheld).congr (fun x => ?_) (restHeld_succ j)
      constructor
      · rintro ⟨hx, hb⟩
        rw [hgave.bit x (hsb ▸ hx)] at hb
        simp only [Bool.and_eq_true, Bool.not_eq_true', decide_eq_false_iff_not] at hb
        exact ⟨hb.1, hx, hb.2⟩
      · grind [hgave.bit]
    · rw [hgave.dinode i (hsb ▸ hi), ht.dinode i hi]
    · rw [hgave.blocks x (hsb ▸ hx), ht.blocks x hx]
  · have hnone : restHeld s k j ((s.icache k).inum, .entry j) = none := by
      rw [hheld]
      simp only [ne_eq, Decidable.not_not] at hw
      simp [nonzero, hw]
    refine ⟨ht.exact.congr (fun _ => Iff.rfl) fun q => ?_, ht.dinode, ht.blocks,
      ht.frame, ht.enough⟩
    rw [restHeld_succ, ← hnone, update_eq_self]

/-- An inode without its indirect block holds its direct blocks. -/
theorem holds_clearIndirect {d : Dinode} {B B' : Disk} {i : Nat} (hi : i ≠ NDIRECT) :
    (d.setAddr NDIRECT 0).holds B' (.addr i) = d.holds B (.addr i) := by
  simp only [Dinode.holds]
  split
  · rename_i hle
    rw [Dinode.addr_setAddr_ne (Nat.le_refl _) hle hi]
  · rfl

theorem addr_clearIndirect (d : Dinode) : (d.setAddr NDIRECT 0).addr NDIRECT = 0 :=
  Dinode.addr_setAddr_self (by decide)

/-- What is held after the indirect block went back, with all its entries. -/
theorem places_clearIndirect {u : Fs} (h : Opened R s k) (hframe : Frame s u)
    (hdinode : ∀ i < s.sb.ninodes, u.dinode i = s.dinode i)
    (hblocks : ∀ x, s.sb.nmeta ≤ x ∨ x = 1 → u.blocks x = s.blocks x) (p : Nat × Place) :
    (u.withDin k ((s.icache k).din.setAddr NDIRECT 0)).places k p =
      update (restHeld s k NINDIRECT) ((s.icache k).inum, .addr NDIRECT) none p := by
  obtain ⟨j, p⟩ := p
  rw [places_changed (d := (s.icache k).din.setAddr NDIRECT 0) h hframe.icache hframe.sb hdinode
    h.type_ne fun q c hq => hblocks c (Or.inl (h.blocks.range hq).1)]
  by_cases hj : j = (s.icache k).inum
  · subst hj
    rw [if_pos rfl]
    cases p with
    | addr i =>
      by_cases hi : i = NDIRECT
      · subst hi
        rw [update_self]
        simp only [Dinode.holds, Nat.le_refl, if_true, addr_clearIndirect]
        rfl
      · rw [update_of_ne (by simpa using hi), restHeld, if_neg (by simp), h.places_self]
        exact holds_clearIndirect hi
    | entry i =>
      rw [update_of_ne (by simp), restHeld, h.places_self]
      simp only [Dinode.holds, addr_clearIndirect, true_or, if_true]
      by_cases hlt : i < NINDIRECT
      · rw [if_pos ⟨trivial, i, hlt, rfl⟩]
      · grind
  · rw [if_neg hj, update_of_ne (by simp [hj]), restHeld, if_neg fun hc => hj hc.1]

/-- A copy without its indirect block. -/
theorem Opened.trimmed_indirect {u : Fs} (h : Opened R s k)
    (ht : Trimming R P s k U m NINDIRECT t) (hz : (s.icache k).din.addr NDIRECT ≠ 0)
    (hg : Gave t ((s.icache k).din.addr NDIRECT) u) :
    Opened R (u.withDin k ((s.icache k).din.setAddr NDIRECT 0)) k ∧
      Trimmed s k (u.withDin k ((s.icache k).din.setAddr NDIRECT 0)) := by
  have hframe := ht.frame.trans hg.frame
  have hic := hframe.icache
  have hsb := hframe.sb
  have hst := ht.frame.sb
  have hdinode : ∀ i < s.sb.ninodes, u.dinode i = s.dinode i := fun i hi => by
    rw [hg.dinode i (hst ▸ hi), ht.dinode i hi]
  have hblocks : ∀ x, s.sb.nmeta ≤ x ∨ x = 1 → u.blocks x = s.blocks x := fun x hx => by
    rw [hg.blocks x (hst ▸ hx), ht.blocks x hx]
  have hheld : restHeld s k NINDIRECT ((s.icache k).inum, .addr NDIRECT) =
      some ((s.icache k).din.addr NDIRECT) := by
    rw [restHeld, if_neg (by simp)]
    exact h.places_indirect hz
  have hexact : pool.Exact R (fun b => b < s.sb.size ∧ u.bit b = true)
      ((u.withDin k ((s.icache k).din.setAddr NDIRECT 0)).places k) := by
    refine (ht.exact.drop hheld).congr (fun x => ?_) (places_clearIndirect h hframe hdinode hblocks)
    constructor
    · rintro ⟨hx, hb⟩
      rw [hg.bit x (hst ▸ hx)] at hb
      simp only [Bool.and_eq_true, Bool.not_eq_true', decide_eq_false_iff_not] at hb
      exact ⟨hb.1, hx, hb.2⟩
    · grind [hg.bit]
  have hlive := h.live_withDin (t := u) (d := (s.icache k).din.setAddr NDIRECT 0) hic hsb h.type_ne
  have hslot := hframe.withAddr k NDIRECT 0
  obtain ⟨B, l, rfl⟩ := hframe
  refine ⟨⟨⟨h.blocks.geometry, ?_, h.blocks.reserved, hexact⟩, hlive⟩, hdinode, hblocks, hslot⟩
  exact (congrArg superblockAt (hblocks 1 (Or.inr rfl))).trans h.blocks.super

theorem truncIndirect_spec (h : Opened R s k) (he : Enough P s U m) : spec (truncIndirect k) s
      (fun _ s' => Opened R s' k ∧ Trimmed s k s' ∧ Enough P s' U m ∧ ∀ j ≤ NDIRECT,
          (s'.icache k).din.addr j = if j = NDIRECT then 0 else (s.icache k).din.addr j)
      (fun e _ => e.full ∧ ¬ P) := by
  unfold truncIndirect
  simp only [bread, spec_bind, spec_get, spec_ite, spec_pure]
  refine ⟨fun hz => ?_, fun hz => ⟨h, Trimmed.refl s k, he, fun j _ => ?_⟩⟩
  · refine spec_mono (spec_loop (fun j t hj ht => truncEntry_spec h hz hj ht)
      (Trimming.start h he)) ?_ (fun _ _ he => he)
    intro _ t ht
    have hsb := ht.frame.sb
    have hheld : restHeld s k NINDIRECT ((s.icache k).inum, .addr NDIRECT) =
        some ((s.icache k).din.addr NDIRECT) := by
      rw [restHeld, if_neg (by simp)]
      exact h.places_indirect hz
    obtain ⟨hlt, hset⟩ := ht.exact.used_of_held hheld
    have hsuper : superblockAt (t.blocks 1) = t.sb := by
      rw [ht.blocks 1 (Or.inr rfl), hsb, h.blocks.super]
    refine spec_mono (bfree_spec (hsb ▸ h.blocks.geometry) hsuper (hsb ▸ hlt) hset ht.enough) ?_
      (fun _ _ he => he)
    rintro _ u ⟨hgave, heu⟩
    obtain ⟨h1, h2⟩ := h.trimmed_indirect ht hz hgave
    rw [spec_setDin, (ht.frame.trans hgave.frame).icache]
    refine ⟨h1, h2, heu.withDin k _, fun j hj => ?_⟩
    simp only [Fs.withDin, update_self]
    split
    · rename_i hji
      rw [hji, addr_clearIndirect]
    · rename_i hji
      rw [Dinode.addr_setAddr_ne (Nat.le_refl _) hj hji]
  · grind

/-- The two loops of `itrunc`: every address is 0 then. -/
theorem truncLoops_spec (h : Opened R s k) (he : Enough P s U m) {Q : Unit → Fs → Prop}
    (hQ : ∀ s', Opened R s' k → Trimmed s k s' → Enough P s' U m →
      (∀ j ≤ NDIRECT, (s'.icache k).din.addr j = 0) → Q () s') :
    spec (do loop NDIRECT (truncDirect k); truncIndirect k) s Q (fun e _ => e.full ∧ ¬ P) := by
  rw [spec_bind]
  have hloop : spec (loop NDIRECT (truncDirect k)) s
      (fun _ t => Opened R t k ∧ Trimmed s k t ∧ Enough P t U m ∧
        ∀ j < NDIRECT, (t.icache k).din.addr j = 0) (fun e _ => e.full ∧ ¬ P) := by
    refine spec_loop (I := fun i t => Opened R t k ∧ Trimmed s k t ∧ Enough P t U m ∧
      ∀ j < i, (t.icache k).din.addr j = 0) ?_ ⟨h, Trimmed.refl s k, he, by omega⟩
    rintro i t hi ⟨ho, htr, het, hz⟩
    refine spec_mono (truncDirect_spec ho hi het) ?_ (fun _ _ he => he)
    rintro _ u ⟨ho', htr', heu, haddr⟩
    refine ⟨ho', htr.trans htr', heu, fun j hj => ?_⟩
    rw [haddr j (by omega)]
    split
    · rfl
    · exact hz j (by omega)
  refine spec_mono hloop ?_ (fun _ _ he => he)
  rintro _ t ⟨ho, htr, het, hz⟩
  refine spec_mono (truncIndirect_spec ho het) ?_ (fun _ _ he => he)
  rintro _ u ⟨ho', htr', heu, haddr⟩
  refine hQ u ho' (htr.trans htr') heu fun j hj => ?_
  rw [haddr j hj]
  split
  · rfl
  · exact hz j (by omega)

/-- An inode that is stored and holds nothing. -/
theorem Blocks.stored_empty {v : Nat → Dinode} {i : Nat} {d : Dinode} (h : Blocks R s v)
    (hempty : ∀ p, held s.sb s.blocks v (i, p) = none) (hd : ∀ j ≤ NDIRECT, d.addr j = 0)
    (hv : ∀ j < s.sb.ninodes, j ≠ i → v j = s.dinode j) (hst : Stored s i d t) :
    Blocks R t t.dinode := by
  have hsb := hst.frame.sb
  refine ⟨hsb ▸ h.geometry, by rw [hst.blocks 1 (Or.inr rfl), hsb, h.super], hsb ▸ h.reserved, ?_⟩
  rw [hsb]
  refine h.exact.congr (fun x => and_congr_right fun hx => by rw [hst.bit x hx]) ?_
  rintro ⟨j, p⟩
  by_cases hj : j = i
  · subst hj
    rw [hempty]
    unfold held
    split
    · rename_i hl
      rw [hst.dinode j hl.2.1, if_pos rfl]
      exact holds_none hd p
    · rfl
  · refine held_congr (fun hlt => ?_) (fun hl hz => ?_)
    · rw [hst.dinode j hlt, if_neg hj, hv j hlt hj]
    · exact hst.blocks _ (Or.inl (h.range (held_indirect hl hz)).1)

end Trunc

end xv6.fs
