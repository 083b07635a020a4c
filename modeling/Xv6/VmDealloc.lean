-- What deallocuvm of vm.c does: which pages its loop looks at, which it frees, and when it misses
-- one. Where there is no page table the loop adds the size of a whole table to an address that need
-- not be at the start of one.
import Mathlib.Data.List.Nodup
import Xv6.VmEntries

open List bytes WP

namespace xv6.vm

/-! ## The pages that the loop looks at -/

/-- The pages for which `deallocuvm` finds a page table, in at most so many turns
from page `q` on. -/
def Vm.visits (s : Vm) (d oldsz : Nat) : Nat → Nat → List Nat
  | 0, _ => []
  | turns + 1, q =>
    if q * PGSIZE < oldsz then
      match s.dirs d (PDX (q * PGSIZE)) with
      | none => s.visits d oldsz turns (q + NPTENTRIES)
      | some _ => q :: s.visits d oldsz turns (q + 1)
    else []

/-- Page `pg` is in the first page table that there is after page `q`, and the step from `q` over
the missing tables before it lands behind `pg`. -/
def Vm.Skipped (s : Vm) (d q pg : Nat) : Prop :=
  q / 1024 < pg / 1024 ∧ pg % 1024 < q % 1024 ∧ ∀ i, q / 1024 ≤ i → i < pg / 1024 →
  s.dirs d i = none

section Visits

variable {s t : Vm} {d oldsz : Nat}

theorem PDX_low {pg : Nat} (h : pg < 2 ^ 20) : PDX (pg * PGSIZE) = pg / 1024 := by
  rw [PDX_page]
  omega

/-- Only which page tables there are decides about it. -/
theorem visits_congr (h : ∀ i, s.dirs d i = none ↔ t.dirs d i = none) (turns : Nat) :
    ∀ q, s.visits d oldsz turns q = t.visits d oldsz turns q := by
  induction turns with
  | zero => exact fun _ => rfl
  | succ turns ih =>
    intro q
    have hq := h (PDX (q * PGSIZE))
    unfold Vm.visits
    cases hs : s.dirs d (PDX (q * PGSIZE)) with
    | none => rw [hq.mp hs, ih]
    | some x =>
      grind

theorem visits_ge (turns : Nat) :
    ∀ q, ∀ pg ∈ s.visits d oldsz turns q, q ≤ pg ∧ pg * PGSIZE < oldsz := by
  induction turns with
  | zero =>
    intro q pg h
    cases h
  | succ turns ih =>
    intro q pg h
    rw [Vm.visits] at h
    split at h
    · rename_i hlt
      cases hs : s.dirs d (PDX (q * PGSIZE)) with
      | none =>
        grind
      | some x =>
        grind
    · cases h

theorem visits_nodup (turns : Nat) : ∀ q, (s.visits d oldsz turns q).Nodup := by
  induction turns with
  | zero => exact fun _ => nodup_nil
  | succ turns ih =>
    intro q
    unfold Vm.visits
    split
    · cases hs : s.dirs d (PDX (q * PGSIZE)) with
      | none => exact ih _
      | some x =>
        refine nodup_cons.mpr ⟨fun hin => ?_, ih _⟩
        have := (visits_ge turns (q + 1) q hin).1
        omega
    · exact nodup_nil

/-- At the start of a page table that is missing or anywhere in one that is there,
nothing is skipped. -/
theorem not_skipped_of_table {q pg : Nat} (h : s.dirs d (q / 1024) ≠ none) : ¬ s.Skipped d q pg :=
  fun hs => h (hs.2.2 _ (Nat.le_refl _) hs.1)

theorem not_skipped_next {q pg : Nat} (h : s.dirs d (q / 1024) ≠ none) :
    ¬ s.Skipped d (q + 1) pg := by
  rintro ⟨h1, h2, h3⟩
  exact h (h3 _ (by omega) (by omega))

/-- A missing page table only moves the place that pages are skipped from. -/
theorem skipped_next_table {q pg : Nat} (h : s.dirs d (q / 1024) = none)
    (hpg : s.dirs d (pg / 1024) ≠ none) :
    q ≤ pg ∧ ¬ s.Skipped d q pg ↔ q + 1024 ≤ pg ∧ ¬ s.Skipped d (q + 1024) pg := by
  have hne : pg / 1024 ≠ q / 1024 := fun heq => hpg (heq ▸ h)
  constructor
  · rintro ⟨hle, hno⟩
    have hge : q + 1024 ≤ pg := by
      by_contra hlt
      refine hno ⟨by omega, by omega, fun i h1 h2 => ?_⟩
      rw [show i = q / 1024 by omega]
      exact h
    refine ⟨hge, fun ⟨h1, h2, h3⟩ => hno ⟨by omega, by omega, fun i hi hi' => ?_⟩⟩
    rcases Nat.eq_or_lt_of_le hi with rfl | hlt
    · exact h
    · exact h3 i (by omega) hi'
  · rintro ⟨hle, hno⟩
    refine ⟨by omega, fun ⟨h1, h2, h3⟩ => hno ⟨by omega, by omega, fun i hi => h3 i (by omega)⟩⟩

theorem mem_visits_iff (hk : oldsz ≤ KERNBASE) (turns : Nat) :
    ∀ q, oldsz ≤ (q + turns) * PGSIZE → ∀ pg, pg ∈ s.visits d oldsz turns q ↔
      (pg * PGSIZE < oldsz ∧ s.dirs d (pg / 1024) ≠ none) ∧ q ≤ pg ∧ ¬ s.Skipped d q pg := by
  induction turns with
  | zero =>
    intro q hle pg
    refine iff_of_false (not_mem_nil) fun h => ?_
    have h1 := h.1.1
    have h2 := h.2.1
    simp only [PGSIZE] at *
    omega
  | succ turns ih =>
    intro q hle pg
    have hnext : oldsz ≤ (q + 1 + turns) * PGSIZE := by rwa [Nat.add_assoc, Nat.add_comm 1]
    unfold Vm.visits
    split
    · rename_i hlt
      have hq := page_lt_of_lt hk hlt
      rw [PDX_low (by omega)]
      cases hs : s.dirs d (q / 1024) with
      | none =>
        simp only [NPTENTRIES]
        rw [ih (q + 1024) (hnext.trans (Nat.mul_le_mul_right _ (by omega)))]
        exact and_congr_right fun h => (skipped_next_table hs h.2).symm
      | some x =>
        have ht : s.dirs d (q / 1024) ≠ none := by simp [hs]
        simp only [mem_cons]
        rw [ih (q + 1) hnext]
        constructor
        · rintro (rfl | ⟨h1, h2, -⟩)
          · exact ⟨⟨hlt, ht⟩, Nat.le_refl _, not_skipped_of_table ht⟩
          · exact ⟨h1, by omega, not_skipped_of_table ht⟩
        · rintro ⟨h1, h2, -⟩
          rcases Nat.eq_or_lt_of_le h2 with rfl | h2
          · exact Or.inl rfl
          · exact Or.inr ⟨h1, h2, not_skipped_next ht⟩
    · grind

end Visits

/-! ## What the loop does -/

/-- The pages that `d` maps the pages of a list to. -/
def Vm.held (s : Vm) (d : Nat) (l : List Nat) : List Nat :=
  l.filterMap fun pg => (s.pte d (pg * PGSIZE)).map Pte.pa

/-- The pages of `l` are unmapped, and what they were mapped to is free. -/
structure Freed (s : Vm) (d : Nat) (l : List Nat) (s' : Vm) : Prop where
  kend : s'.kend = s.kend
  dirs : ∀ d', d' ≠ d → s'.dirs d' = s.dirs d'
  tables : ∀ d' i, (s'.dirs d' i).map PageTable.page = (s.dirs d' i).map PageTable.page
  pte : ∀ d', ∀ pg < 2 ^ 20,
    s'.pte d' (pg * PGSIZE) = if d' = d ∧ pg ∈ l then none else s.pte d' (pg * PGSIZE)
  free : s'.free = (s.held d l).reverse ++ s.free
  ram : ∀ p, s'.ram p = if p ∈ s.held d l then fun _ => 1 else s.ram p

section Freed

variable {s s' t : Vm} {d oldsz newsz : Nat}

theorem freed_nil (s : Vm) (d : Nat) : Freed s d [] s :=
  ⟨rfl, fun _ _ => rfl, fun _ _ => rfl, fun _ _ _ => by simp, rfl, fun _ => by simp [Vm.held]⟩

/-- A page that is not mapped adds nothing. -/
theorem Freed.cons_none {l : List Nat} {q : Nat} (h : Freed s d l s')
    (hq : s.pte d (q * PGSIZE) = none) :
    Freed s d (q :: l) s' := by
  have hheld : s.held d (q :: l) = s.held d l := by
    unfold Vm.held
    rw [filterMap_cons_none (by rw [hq]; rfl)]
  refine ⟨h.kend, h.dirs, h.tables,
    fun d' pg hpg => ?_, by rw [hheld]; exact h.free, by rw [hheld]; exact h.ram⟩
  rw [h.pte d' pg hpg]
  by_cases hd : d' = d
  · grind
  · grind

/-- The page table of an entry stays where it is. -/
theorem page_setPte (s : Vm) (d va : Nat) (x : Option Pte) (d' i : Nat) :
    ((s.setPte d va x).dirs d' i).map PageTable.page = (s.dirs d' i).map PageTable.page := by
  unfold Vm.setPte
  cases ht : s.dirs d (PDX va) with
  | none => rfl
  | some t =>
    simp only
    by_cases hd : d' = d
    · subst hd
      by_cases hi : i = PDX va
      · subst hi
        simp [ht]
      · simp [hi]
    · simp [hd]

/-- One page is freed, and then the others. -/
theorem Freed.cons_some {l : List Nat} {q : Nat} {e : Pte} (hpte : s.pte d (q * PGSIZE) = some e)
    (hq : q < 2 ^ 20) (hnot : q ∉ l) (hl : ∀ pg ∈ l, pg < 2 ^ 20)
    (h : Freed
      (({ s with free := e.pa :: s.free, ram := Function.update s.ram e.pa fun _ => 1 } : Vm).setPte
        d (q * PGSIZE) none) d l s') : Freed s d (q :: l) s' := by
  set t : Vm :=
    { s with free := e.pa :: s.free, ram := Function.update s.ram e.pa fun _ => 1 } with ht
  have htable : t.dirs d (PDX (q * PGSIZE)) ≠ none := by grind [Vm.pte]
  have hsame : ∀ pg ∈ l, (t.setPte d (q * PGSIZE) none).pte d (pg * PGSIZE) =
      s.pte d (pg * PGSIZE) := by
    intro pg hpg
    rw [pte_setPte_page htable hq none d (hl pg hpg), if_neg]
    · rfl
    · grind
  have hheld : s.held d (q :: l) = e.pa :: (t.setPte d (q * PGSIZE) none).held d l := by
    grind [Vm.held, filterMap_cons_some, filterMap_congr]
  refine ⟨by rw [h.kend, kend_setPte],
    fun d' hd => (h.dirs d' hd).trans (dirs_setPte_of_ne t hd _ _),
    fun d' i => by rw [h.tables, page_setPte], fun d' pg hpg => ?_, ?_, fun p => ?_⟩
  · rw [h.pte d' pg hpg, pte_setPte_page htable hq none d' hpg]
    by_cases hd : d' = d
    · by_cases hin : pg = q
      · grind
      · simp only [hd, hin, true_and, false_or, if_false, mem_cons]
        rfl
    · simp only [hd, false_and, if_false]
      rfl
  · rw [h.free, free_setPte, hheld]
    simp [ht]
  · rw [h.ram p, ram_setPte, hheld]
    by_cases hp : p = e.pa
    · subst hp
      simp [ht]
    · simp [ht, hp]

/-- The loop frees the pages that it looks at, or `kfree` panics at one of them. -/
theorem deallocFrom_freed (hk : oldsz ≤ KERNBASE) (turns : Nat) :
    ∀ (s : Vm) (q : Nat), spec (deallocFrom d oldsz turns (q * PGSIZE)) s
      (fun _ s' => Freed s d (s.visits d oldsz turns q) s')
      (fun e _ => e = "kfree" ∧ ∃ pg x, q ≤ pg ∧ pg * PGSIZE < oldsz ∧
        s.pte d (pg * PGSIZE) = some x ∧ ¬ s.Frame x.pa) := by
  induction turns with
  | zero =>
    intro s q
    rw [deallocFrom, spec_pure]
    exact freed_nil s d
  | succ turns ih =>
    intro s q
    rw [deallocFrom, Vm.visits]
    by_cases hlt : q * PGSIZE < oldsz
    swap
    · rw [if_neg hlt, if_neg hlt, spec_pure]
      exact freed_nil s d
    have hq := page_lt_of_lt hk hlt
    rw [if_pos hlt, if_pos hlt, spec_bind, walkpgdir_look]
    cases htable : s.dirs d (PDX (q * PGSIZE)) with
    | none =>
      simp only [Option.isSome_none, Bool.false_eq_true, not_false_eq_true, if_true, next_table hq]
      refine spec_mono (ih s (q + NPTENTRIES)) (fun _ _ h => h) ?_
      rintro e _ ⟨he, pg, x, h1, h2⟩
      exact ⟨he, pg, x, by omega, h2⟩
    | some tbl =>
      simp only [Option.isSome_some, not_true_eq_false, if_false, spec_bind, spec_get, next_page hq]
      cases hpte : s.pte d (q * PGSIZE) with
      | none =>
        refine spec_mono (ih s (q + 1)) (fun _ _ h => h.cons_none hpte) ?_
        rintro e _ ⟨he, pg, x, h1, h2⟩
        exact ⟨he, pg, x, by omega, h2⟩
      | some x =>
        simp only [spec_ite, spec_throw, spec_bind]
        refine ⟨fun h0 => ⟨trivial, q, x, Nat.le_refl q, hlt, hpte, fun hf => hf.nonzero h0⟩,
          fun h0 => ?_⟩
        refine kfree_any ?_ (fun hno => ⟨rfl, q, x, Nat.le_refl q, hlt, hpte, hno⟩)
        rw [spec_modify]
        set t : Vm :=
          { s with free := x.pa :: s.free, ram := Function.update s.ram x.pa fun _ => 1 } with ht
        have hvisits : (t.setPte d (q * PGSIZE) none).visits d oldsz turns (q + 1) =
            s.visits d oldsz turns (q + 1) :=
          visits_congr (t := s) (fun i => dirs_setPte t d (q * PGSIZE) none d i) turns (q + 1)
        refine spec_mono (ih (t.setPte d (q * PGSIZE) none) (q + 1)) (fun _ s' h => ?_) ?_
        · rw [hvisits] at h
          refine Freed.cons_some hpte (by omega) (fun hin => ?_) (fun pg hpg => ?_) h
          · have := (visits_ge turns (q + 1) q hin).1
            omega
          · exact Nat.lt_trans (page_lt_of_lt hk (visits_ge turns (q + 1) pg hpg).2) (by decide)
        · rintro e _ ⟨he, pg, y, h1, h2, h3, h4⟩
          have hpg := page_lt_of_lt hk h2
          rw [pte_setPte_page (s := t) (by simp [ht, htable]) (by omega) none d (by omega),
            if_neg (by omega)] at h3
          refine ⟨he, pg, y, by omega, h2, h3, fun hf => h4 ⟨hf.aligned, ?_, hf.below, hf.nonzero⟩⟩
          rw [kend_setPte]
          exact hf.above

/-- The pages that `deallocuvm` looks at. -/
def Vm.looked (s : Vm) (d oldsz newsz : Nat) : List Nat :=
  s.visits d oldsz (oldsz / PGSIZE + 1) ((newsz + PGSIZE - 1) / PGSIZE)

theorem deallocuvm_freed (hk : oldsz ≤ KERNBASE) (hlt : newsz < oldsz) (s : Vm) :
    spec (deallocuvm d oldsz newsz) s (fun r s' => r = newsz ∧
      Freed s d (s.looked d oldsz newsz) s')
      (fun e _ => e = "kfree" ∧ ∃ pg x, (newsz + PGSIZE - 1) / PGSIZE ≤ pg ∧ pg * PGSIZE < oldsz ∧
        s.pte d (pg * PGSIZE) = some x ∧ ¬ s.Frame x.pa) := by
  rw [deallocuvm, spec_ite]
  refine ⟨fun hge => absurd hge (Nat.not_le.mpr hlt), fun _ => ?_⟩
  rw [spec_bind, PGROUNDUP_eq (by omega)]
  exact spec_mono (deallocFrom_freed hk _ s _) (fun _ _ h => (spec_pure _).mpr ⟨rfl, h⟩)
    (fun _ _ h => h)

theorem mem_looked_iff (hk : oldsz ≤ KERNBASE) {pg : Nat} :
    pg ∈ s.looked d oldsz newsz ↔ (pg * PGSIZE < oldsz ∧ s.dirs d (pg / 1024) ≠ none) ∧
      (newsz + PGSIZE - 1) / PGSIZE ≤ pg ∧ ¬ s.Skipped d ((newsz + PGSIZE - 1) / PGSIZE) pg := by
  refine mem_visits_iff hk _ _ ?_ pg
  simp only [PGSIZE] at *
  omega

end Freed

/-! ## Pages that come first -/

/-- In the range from page `q` up to `oldsz`, the pages that are mapped come first. -/
def Vm.packed (s : Vm) (d q oldsz : Nat) : Prop :=
  ∃ m, ∀ pg, q ≤ pg → pg * PGSIZE < oldsz → (s.maps d pg ↔ pg < m)

/-- What is mapped after the pages of `d` from `q` up to `oldsz` are gone. -/
def Unmapped (s : Vm) (d q oldsz : Nat) (s' : Vm) : Prop :=
  ∀ d' pg, pg < 2 ^ 20 →
    (s'.maps d' pg ↔ s.maps d' pg ∧ ¬ (d' = d ∧ q ≤ pg ∧ pg * PGSIZE < oldsz))

section Packed

variable {s : Vm} {d oldsz newsz : Nat}

theorem table_of_maps {pg : Nat} (hpg : pg < 2 ^ 20) (h : s.maps d pg) :
    s.dirs d (pg / 1024) ≠ none := by
  intro hn
  rw [Vm.maps, Vm.pte, PDX_low hpg, hn] at h
  exact h rfl

/-- If the mapped pages come first, none of them is skipped. -/
theorem packed_not_skipped {q pg : Nat} (hk : oldsz ≤ KERNBASE) (hp : s.packed d q oldsz)
    (hq : q ≤ pg) (hpg : pg * PGSIZE < oldsz) (hm : s.maps d pg) : ¬ s.Skipped d q pg := by
  intro hs
  obtain ⟨m, hm'⟩ := hp
  have hqlt : q * PGSIZE < oldsz := lt_of_le_of_lt (Nat.mul_le_mul_right _ hq) hpg
  have hnq : ¬ s.maps d q := fun h =>
    table_of_maps (Nat.lt_trans (page_lt_of_lt hk hqlt) (by decide)) h
      (hs.2.2 _ (Nat.le_refl _) hs.1)
  rw [hm' q (Nat.le_refl q) hqlt] at hnq
  rw [hm' pg hq hpg] at hm
  omega

/-- A page that is mapped and not skipped is unmapped. -/
theorem Freed.unmapped {s' : Vm} (hk : oldsz ≤ KERNBASE) (h : Freed s d (s.looked d oldsz newsz) s')
    (hall : ∀ pg, (newsz + PGSIZE - 1) / PGSIZE ≤ pg → pg * PGSIZE < oldsz → s.maps d pg →
      ¬ s.Skipped d ((newsz + PGSIZE - 1) / PGSIZE) pg) :
    Unmapped s d ((newsz + PGSIZE - 1) / PGSIZE) oldsz s' := by
  intro d' pg hpg
  unfold Vm.maps
  rw [h.pte d' pg hpg]
  by_cases hin : d' = d ∧ (newsz + PGSIZE - 1) / PGSIZE ≤ pg ∧ pg * PGSIZE < oldsz
  · obtain ⟨rfl, h1, h2⟩ := hin
    refine iff_of_false (fun hm => ?_) (fun hm => hm.2 ⟨rfl, h1, h2⟩)
    split at hm
    · exact hm rfl
    · rename_i hno
      exact hno ⟨rfl, (mem_looked_iff hk).mpr ⟨⟨h2, table_of_maps hpg hm⟩, h1, hall pg h1 h2 hm⟩⟩
  · grind [mem_looked_iff]

/-- `deallocuvm` of a range whose mapped pages come first unmaps the range. -/
theorem deallocuvm_spec (hk : oldsz ≤ KERNBASE)
    (hlt : newsz < oldsz) (hp : s.packed d ((newsz + PGSIZE - 1) / PGSIZE) oldsz) :
    spec (deallocuvm d oldsz newsz) s
      (fun r s' => r = newsz ∧ Unmapped s d ((newsz + PGSIZE - 1) / PGSIZE) oldsz s')
      (fun e _ => e ≠ "remap") := by
  refine spec_mono (deallocuvm_freed hk hlt s) (fun r s' h => ⟨h.1, ?_⟩) (fun e _ he => ?_)
  · exact h.2.unmapped hk fun pg h1 h2 => packed_not_skipped hk hp h1 h2
  · rw [he.1]
    decide

/-- The pages that directory `d` maps from page `q` up to `oldsz` are all in `A`. -/
def Vm.Within (s : Vm) (d q oldsz : Nat) (A : Nat → Prop) : Prop :=
  ∀ pg e, q ≤ pg → pg * PGSIZE < oldsz → s.pte d (pg * PGSIZE) = some e → A e.pa

/-- `deallocuvm` of pages that `kfree` takes: it does not panic, and writes only to them. -/
theorem deallocuvm_frames {A : Nat → Prop} (hk : oldsz ≤ KERNBASE)
    (hlt : newsz < oldsz) (hA : ∀ p, A p → s.Frame p)
    (hw : s.Within d ((newsz + PGSIZE - 1) / PGSIZE) oldsz A) :
    spec (deallocuvm d oldsz newsz) s (fun _ s' => ∀ p, ¬ A p → s'.ram p = s.ram p)
    (fun _ _ => False) := by
  refine spec_mono (deallocuvm_freed hk hlt s) ?_ ?_
  · rintro _ s' ⟨-, h⟩ p hp
    rw [h.ram p, if_neg]
    intro hin
    obtain ⟨pg, hpg, hpa⟩ := mem_filterMap.mp hin
    obtain ⟨e, he, rfl⟩ := Option.map_eq_some_iff.mp hpa
    have := (mem_looked_iff hk).mp hpg
    exact hp (hw pg e this.2.1 this.1.1 he)
  · rintro _ _ ⟨-, pg, e, h1, h2, h3, h4⟩
    exact h4 (hA _ (hw pg e h1 h2 h3))

/-- `deallocuvm` leaves the pages below the new size and from the old size on. -/
theorem deallocuvm_outside (hk : oldsz ≤ KERNBASE) (hlt : newsz < oldsz) :
      spec (deallocuvm d oldsz newsz) s
      (fun r s' => r = newsz ∧ Outside s d (PGROUNDUP newsz) oldsz s') (fun _ _ => True) := by
  refine spec_mono (deallocuvm_freed hk hlt s) (fun r s' h => ⟨h.1, fun pg hpg ho => ?_⟩)
    (fun _ _ _ => trivial)
  rw [h.2.pte d pg hpg, if_neg]
  rintro ⟨-, hin⟩
  have := (mem_looked_iff hk).mp hin
  rw [PGROUNDUP_eq (by omega)] at ho
  rcases ho with ho | ho
  · grind
  · omega

end Packed

/-! ## The whole range -/

/-- One turn of the loop of `deallocuvm` at `a`: the next address, or the end of the loop. -/
def deallocTurn (d oldsz a : Nat) : VmM (Nat ⊕ Unit) := do
  if a < oldsz then
    if ¬ (← walkpgdir d a false) then
      pure (.inl (uint (a + (NPTENTRIES - 1) * PGSIZE + PGSIZE)))
    else
      match (← get).pte d a with
      | some pte =>
        if pte.pa = 0 then throw "kfree"
        else
          kfree pte.pa
          modify (·.setPte d a none)
      | none => pure ()
      pure (.inl (uint (a + PGSIZE)))
  else pure (.inr ())

theorem deallocFrom_turn (d oldsz turns a : Nat) : deallocFrom d oldsz (turns + 1) a =
    deallocTurn d oldsz a >>= Sum.elim (deallocFrom d oldsz turns) pure := by
  rw [deallocFrom, deallocTurn]
  split
  · simp only [bind_assoc]
    congr 1
    funext b
    split
    · rfl
    · simp only [bind_assoc]
      congr 1
      funext s
      cases s.pte d a with
      | none => rfl
      | some x =>
        simp only
        split
        · rfl
        · simp
  · rfl

/-- What `deallocuvm` is for. -/
structure Cleared (s : Vm) (d oldsz newsz : Nat) (s' : Vm) : Prop where
  /-- no page of the range is present -/
  gone : ∀ pg, PGROUNDUP newsz ≤ pg * PGSIZE → pg * PGSIZE < oldsz → s'.pte d (pg * PGSIZE) = none
  /-- each one that was is passed to `kfree` once -/
  freed : ∃ l : List Nat, s'.free = l ++ s.free ∧ l.Nodup ∧ ∀ p, p ∈ l ↔
    ∃ pg e, PGROUNDUP newsz ≤ pg * PGSIZE ∧ pg * PGSIZE < oldsz ∧
    s.pte d (pg * PGSIZE) = some e ∧ e.pa = p
  /-- the other mappings stay -/
  others : ∀ d', ∀ pg < 2 ^ 20, ¬ (d' = d ∧ PGROUNDUP newsz ≤ pg * PGSIZE ∧ pg * PGSIZE < oldsz) →
    s'.pte d' (pg * PGSIZE) = s.pte d' (pg * PGSIZE)

section Cleared

variable {s s' : Vm} {d oldsz newsz : Nat}

/-- Each turn goes on by a page or more, so the loop ends. -/
theorem deallocFrom_loops (hk : oldsz ≤ KERNBASE) {turns a : Nat}
    (hturns : (oldsz - a + PGSIZE - 1) / PGSIZE ≤ turns)
    (h : deallocFrom d oldsz turns a s = .ok () s') : Loops (deallocTurn d oldsz) a s () s' := by
  refine loops_of_turns (fun a => (oldsz - a + PGSIZE - 1) / PGSIZE)
    (deallocFrom_turn d oldsz) ?_ ?_ turns a s () s' hturns h
  · intro a s a' t hturn
    have hnext : spec (deallocTurn d oldsz a) s (fun r _ => ∀ a', r = .inl a' →
          (oldsz - a' + PGSIZE - 1) / PGSIZE < (oldsz - a + PGSIZE - 1) / PGSIZE)
          (fun _ _ => True) := by
      rw [deallocTurn, spec_ite]
      refine ⟨fun hlt => ?_, fun _ => (spec_pure _).mpr fun _ h => by cases h⟩
      have hpage : (oldsz - uint (a + PGSIZE) + PGSIZE - 1) / PGSIZE <
          (oldsz - a + PGSIZE - 1) / PGSIZE := by
        simp only [uint, PGSIZE, KERNBASE] at *
        omega
      rw [spec_bind, walkpgdir_look, spec_ite]
      refine ⟨fun _ => (spec_pure _).mpr ?_, fun _ => ?_⟩
      · grind
      · have hdone : ∀ t : Vm, spec (pure (.inl (uint (a + PGSIZE))) : VmM (Nat ⊕ Unit)) t
            (fun r _ => ∀ a', r = .inl a' →
              (oldsz - a' + PGSIZE - 1) / PGSIZE < (oldsz - a + PGSIZE - 1) / PGSIZE)
              (fun _ _ => True) := by
          intro t
          rw [spec_pure]
          intro a' h
          obtain rfl := Sum.inl.inj h
          exact hpage
        rw [spec_bind, spec_get]
        cases s.pte d a with
        | none => exact hdone s
        | some x =>
          simp only [spec_ite, spec_bind, spec_throw, implies_true, true_and, spec_modify]
          exact fun _ => spec_of_forall (fun _ t => hdone _) fun _ _ => trivial
    exact of_spec hnext hturn a' rfl
  · intro a s h0
    have hge : ¬ a < oldsz := by grind
    exact ⟨(), by rw [deallocTurn, if_neg hge]; rfl, rfl⟩

theorem deallocuvm_loops (hk : oldsz ≤ KERNBASE) (hlt : newsz < oldsz) (s : Vm) :
    spec (deallocuvm d oldsz newsz) s
      (fun _ s' => Loops (deallocTurn d oldsz) (PGROUNDUP newsz) s () s') (fun _ _ => True) := by
  rw [deallocuvm, if_neg (by omega), spec_bind]
  refine spec_mono (spec_self _ s) (fun _ s' h => (spec_pure _).mpr ?_) (fun _ _ _ => trivial)
  refine deallocFrom_loops hk ?_ h
  rw [PGROUNDUP_eq (by omega)]
  simp only [PGSIZE]
  omega

theorem first_page (h : newsz < KERNBASE) :
    PGROUNDUP newsz / PGSIZE = (newsz + PGSIZE - 1) / PGSIZE := by
  rw [PGROUNDUP_eq h, Nat.mul_div_cancel _ (by decide)]

theorem first_page_le (h : newsz < KERNBASE) {pg : Nat} :
    PGROUNDUP newsz ≤ pg * PGSIZE ↔ (newsz + PGSIZE - 1) / PGSIZE ≤ pg := by
  rw [PGROUNDUP_eq h]
  exact Nat.mul_le_mul_right_iff (by decide)

/-- Distinct pages are passed to `kfree` once. -/
theorem held_looked_nodup (hk : oldsz ≤ KERNBASE)
    (hone : ∀ pg q e e', pg * PGSIZE < KERNBASE → q * PGSIZE < KERNBASE →
      s.pte d (pg * PGSIZE) = some e → s.pte d (q * PGSIZE) = some e' → e.pa = e'.pa → pg = q) :
    (s.held d (s.looked d oldsz newsz)).Nodup := by
  refine (pairwise_filterMap).mpr (List.Nodup.pairwise_of_forall_ne (visits_nodup _ _) ?_)
  intro pg hpg q hq hne p hp p' hp' heq
  obtain ⟨e, he, rfl⟩ := Option.map_eq_some_iff.mp hp
  obtain ⟨e', he', rfl⟩ := Option.map_eq_some_iff.mp hp'
  have h1 := ((mem_looked_iff hk).mp hpg).1.1
  have h2 := ((mem_looked_iff hk).mp hq).1.1
  exact hne (hone pg q e e' (Nat.lt_of_lt_of_le h1 hk) (Nat.lt_of_lt_of_le h2 hk) he he' heq)

/-- `deallocuvm` unmaps its whole range exactly if it skips no page that is mapped. -/
theorem deallocuvm_clears_iff (hlt : newsz < oldsz) (hk : oldsz ≤ KERNBASE)
    (hframe : ∀ pg e, pg * PGSIZE < KERNBASE → s.pte d (pg * PGSIZE) = some e → s.Frame e.pa)
    (hone : ∀ pg q e e', pg * PGSIZE < KERNBASE → q * PGSIZE < KERNBASE →
      s.pte d (pg * PGSIZE) = some e → s.pte d (q * PGSIZE) = some e' → e.pa = e'.pa → pg = q) :
    ∃ s', deallocuvm d oldsz newsz s = .ok newsz s' ∧
      Loops (deallocTurn d oldsz) (PGROUNDUP newsz) s () s' ∧
      (Cleared s d oldsz newsz s' ↔ ∀ pg, PGROUNDUP newsz ≤ pg * PGSIZE → pg * PGSIZE < oldsz →
        s.maps d pg → ¬ s.Skipped d (PGROUNDUP newsz / PGSIZE) pg) := by
  have hsmall : newsz < KERNBASE := by omega
  have hlaw := spec_mono (spec_and (deallocuvm_freed hk hlt s) (deallocuvm_loops hk hlt s))
    (fun _ _ h => h) (F := fun _ _ => False) (by
      rintro _ _ ⟨⟨-, pg, x, -, h2, h3, h4⟩, -⟩
      exact h4 (hframe pg x (by omega) h3))
  obtain ⟨r, s', hrun, ⟨rfl, hf⟩, hloops⟩ := exists_of_spec hlaw
  refine ⟨s', hrun, hloops, ?_⟩
  rw [first_page hsmall]
  constructor
  · -- a page that was skipped is still mapped
    intro hc pg h1 h2 hm hs
    have hgone := hc.gone pg h1 h2
    rw [hf.pte d pg (Nat.lt_trans (page_lt_of_lt hk h2) (by decide)), if_neg] at hgone
    · exact hm hgone
    · exact fun hin => ((mem_looked_iff hk).mp hin.2).2.2 hs
  · intro hall
    have hun := hf.unmapped hk fun pg h1 => hall pg ((first_page_le hsmall).mpr h1)
    refine ⟨fun pg h1 h2 => ?_, ⟨_, hf.free, List.nodup_reverse.mpr (held_looked_nodup hk hone),
      fun p => ?_⟩, fun d' pg hpg hno => ?_⟩
    · by_contra hm
      have := (hun d pg (Nat.lt_trans (page_lt_of_lt hk h2) (by decide))).mp hm
      exact this.2 ⟨rfl, (first_page_le hsmall).mp h1, h2⟩
    · rw [List.mem_reverse, Vm.held, List.mem_filterMap]
      constructor
      · rintro ⟨pg, hpg, hpa⟩
        obtain ⟨e, he, rfl⟩ := Option.map_eq_some_iff.mp hpa
        have hin := (mem_looked_iff hk).mp hpg
        exact ⟨pg, e, (first_page_le hsmall).mpr hin.2.1, hin.1.1, he, rfl⟩
      · grind [Vm.maps, mem_looked_iff, first_page_le, table_of_maps]
    · grind [hf.pte, mem_looked_iff, first_page_le]

/-- A directory that has the page table for the second 4 megabytes only, with its
first page mapped. -/
def oneTable : Vm :=
  { kend := 0x200000, free := [], ram := fun _ _ => 0
    dirs := fun _ i => if i = 1 then
      some { page := 0x300000, pte := fun j => if j = 0 then some ⟨0x400000, PTE_W ||| PTE_U⟩
        else none }
    else none }

theorem oneTable_pte {pg : Nat} {e : Pte} (h : pg * PGSIZE < KERNBASE)
    (he : oneTable.pte 0 (pg * PGSIZE) = some e) : pg = 1024 ∧ e = ⟨0x400000, PTE_W ||| PTE_U⟩ := by
  have hpg : pg < 2 ^ 20 := Nat.lt_trans (page_lt_of_lt (Nat.le_refl _) h) (by decide)
  rw [Vm.pte, PDX_low hpg, PTX_page] at he
  simp only [oneTable] at he
  split at he
  · grind
  · cases he

/-- From the start of a page table on, the page is found. -/
theorem from_zero_it_is_cleared : ∃ s', deallocuvm 0 0x401000 0 oneTable = .ok 0 s' ∧
    Loops (deallocTurn 0 0x401000) (PGROUNDUP 0) oneTable () s' ∧
    (Cleared oneTable 0 0x401000 0 s' ↔ ∀ pg, PGROUNDUP 0 ≤ pg * PGSIZE → pg * PGSIZE < 0x401000 →
      oneTable.maps 0 pg → ¬ oneTable.Skipped 0 (PGROUNDUP 0 / PGSIZE) pg) := by
  refine deallocuvm_clears_iff (by decide) (by decide) (fun pg e h he => ?_)
    (fun pg q e e' h h' he he' _ => ?_)
  · obtain ⟨-, rfl⟩ := oneTable_pte h he
    exact ⟨by decide, by decide, by decide, by decide⟩
  · rw [(oneTable_pte h he).1, (oneTable_pte h' he').1]

/-- From the second page on, the step over the missing table ends behind the page that is mapped,
and it stays. -/
theorem from_the_second_page_it_stays :
    ∃ s', deallocuvm 0 0x401000 PGSIZE oneTable = .ok PGSIZE s' ∧
      s'.pte 0 0x400000 = some ⟨0x400000, PTE_W ||| PTE_U⟩ ∧
      ¬ Cleared oneTable 0 0x401000 PGSIZE s' := by
  refine ⟨oneTable, rfl, rfl, fun h => ?_⟩
  have := h.gone 1024 (by decide) (by decide)
  cases this

end Cleared

end xv6.vm
