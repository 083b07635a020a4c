-- The entries of the page directories of vm.c: what a walk finds, what setting one entry changes,
-- and what mappages of one page and kfree do.
import Xv6.Vm

open bytes WP

namespace xv6.vm

/-! ## Entries -/

/-- Page directory `d` maps page number `pg`. -/
def Vm.maps (s : Vm) (d pg : Nat) : Prop := s.pte d (pg * PGSIZE) ≠ none

theorem PDX_page (pg : Nat) : PDX (pg * PGSIZE) = pg / 1024 % 1024 := by
  simp only [PDX, PGSIZE, NPDENTRIES]
  omega

theorem PTX_page (pg : Nat) : PTX (pg * PGSIZE) = pg % 1024 := by
  simp only [PTX, PGSIZE, NPTENTRIES]
  omega

/-- Two pages below 2^32 have the same entry only if they are one. -/
theorem page_eq_iff {p q : Nat} (hp : p < 2 ^ 20) (hq : q < 2 ^ 20) :
    PDX (p * PGSIZE) = PDX (q * PGSIZE) ∧ PTX (p * PGSIZE) = PTX (q * PGSIZE) ↔ p = q := by
  rw [PDX_page, PDX_page, PTX_page, PTX_page]
  omega

variable {s : Vm} {E : String → Vm → Prop}

theorem pte_setPte {d va : Nat} (ht : s.dirs d (PDX va) ≠ none) (x : Option Pte) (d' va' : Nat) :
    (s.setPte d va x).pte d' va' =
      if d' = d ∧ PDX va' = PDX va ∧ PTX va' = PTX va then x else s.pte d' va' := by
  obtain ⟨t, ht⟩ := Option.ne_none_iff_exists'.mp ht
  unfold Vm.setPte Vm.pte
  rw [ht]
  simp only
  by_cases hd : d' = d
  · subst hd
    rw [Function.update_self]
    by_cases hi : PDX va' = PDX va
    · grind
    · simp [hi]
  · simp [hd]

@[simp] theorem free_setPte (s : Vm) (d va : Nat) (x : Option Pte) :
    (s.setPte d va x).free = s.free := by
  unfold Vm.setPte
  split <;> rfl

/-- A page table is there after `setPte` exactly if it was there before. -/
theorem dirs_setPte (s : Vm) (d va : Nat) (x : Option Pte) (d' i : Nat) :
    (s.setPte d va x).dirs d' i = none ↔ s.dirs d' i = none := by
  unfold Vm.setPte
  cases ht : s.dirs d (PDX va) with
  | none => simp
  | some t =>
    simp only
    by_cases hd : d' = d
    · subst hd
      by_cases hi : i = PDX va
      · subst hi
        simp [ht]
      · simp [hi]
    · simp [hd]

/-- The other page directories are not looked at. -/
theorem dirs_setPte_of_ne (s : Vm) {d d' : Nat} (h : d' ≠ d) (va : Nat) (x : Option Pte) :
    (s.setPte d va x).dirs d' = s.dirs d' := by
  unfold Vm.setPte
  split
  · exact Function.update_of_ne h ..
  · rfl

theorem pte_setPte_page {d q : Nat} (ht : s.dirs d (PDX (q * PGSIZE)) ≠ none) (hq : q < 2 ^ 20)
    (x : Option Pte) (d' : Nat) {pg : Nat} (hpg : pg < 2 ^ 20) :
    (s.setPte d (q * PGSIZE) x).pte d' (pg * PGSIZE) =
      if d' = d ∧ pg = q then x else s.pte d' (pg * PGSIZE) := by
  rw [pte_setPte ht]
  simp only [page_eq_iff hpg hq]

theorem maps_setPte {d pg : Nat} (ht : s.dirs d (PDX (pg * PGSIZE)) ≠ none) (hpg : pg < 2 ^ 20)
    (x : Option Pte) (d' q : Nat) (hq : q < 2 ^ 20) :
    (s.setPte d (pg * PGSIZE) x).maps d' q ↔ if d' = d ∧ q = pg then x ≠ none else s.maps d' q := by
  unfold Vm.maps
  rw [pte_setPte_page ht hpg x d' hq]
  split <;> rfl

/-- A machine with these free pages, and page directories without page tables. -/
def freshVm (free : List Nat) : Vm :=
  { kend := 0x200000, free := free, ram := fun _ _ => 0, dirs := fun _ _ => none }

/-! ## Walks -/

/-- A walk without `alloc` only looks. -/
theorem walkpgdir_look (s : Vm) (d va : Nat) {Q : Bool → Vm → Prop} :
    spec (walkpgdir d va false) s Q E ↔ Q (s.dirs d (PDX va)).isSome s := by
  unfold walkpgdir
  rw [spec_bind, spec_get]
  cases h : s.dirs d (PDX va) with
  | none => simp
  | some t => simp

/-- The state with an empty page table added. -/
def Vm.addTable (s : Vm) (d va : Nat) (page : Nat) (next : List Nat) : Vm :=
  { s with
    free := next
    dirs := Function.update s.dirs d (Function.update (s.dirs d) (PDX va)
      (some { page := page, pte := fun _ => none })) }

/-- A walk with `alloc` finds the page table, makes it, or has no page for it. -/
theorem walkpgdir_alloc (s : Vm) (d va : Nat) {Q : Bool → Vm → Prop} :
      spec (walkpgdir d va true) s Q E ↔ (s.dirs d (PDX va) ≠ none → Q true s) ∧
      (s.dirs d (PDX va) = none → (s.free = [] → Q false s) ∧
        ∀ page next, s.free = page :: next → Q true (s.addTable d va page next)) := by
  unfold walkpgdir
  rw [spec_bind, spec_get]
  cases h : s.dirs d (PDX va) with
  | some t => simp
  | none =>
    simp only [ne_eq, not_true_eq_false, false_implies, true_and, forall_const, spec_ite,
      kalloc, spec_bind, spec_get, not_false_eq_true]
    cases hf : s.free with
    | nil => simp
    | cons page next =>
      simp only [spec_bind, spec_set, spec_pure, spec_modify]
      constructor
      · intro hq
        refine ⟨(by simp), fun p n e => ?_⟩
        cases e
        exact hq
      · exact fun hq => hq.2 page next rfl

theorem pte_addTable {d va page : Nat} {next : List Nat} (h : s.dirs d (PDX va) = none)
    (d' va' : Nat) : (s.addTable d va page next).pte d' va' = s.pte d' va' := by
  unfold Vm.addTable Vm.pte
  simp only
  by_cases hd : d' = d
  · subst hd
    by_cases hi : PDX va' = PDX va
    · simp [hi, h]
    · simp [hi]
  · simp [hd]

/-! ## One page -/

theorem PGROUNDDOWN_page (pg : Nat) : PGROUNDDOWN (pg * PGSIZE) = pg * PGSIZE := by
  simp only [PGROUNDDOWN, PGSIZE]
  omega

/-- `mappages` of a single page. -/
theorem mappages_page {d pg : Nat} (hpg : pg < 2 ^ 20) (pa perm : Nat) :
    mappages d (pg * PGSIZE) PGSIZE pa perm = mapFrom d perm 0 (pg * PGSIZE) pa := by
  have hlast : PGROUNDDOWN (uint (pg * PGSIZE + PGSIZE + 2 ^ 32 - 1)) = pg * PGSIZE := by
    simp only [PGROUNDDOWN, uint, PGSIZE]
    omega
  unfold mappages
  simp only [PGROUNDDOWN_page, hlast]
  congr 1
  simp only [uint, PGSIZE]
  omega

/-- The state with a page table for `va`, if there is one or a page for it. -/
def Vm.withTable (s : Vm) (d va : Nat) : Vm :=
  match s.dirs d (PDX va), s.free with
  | none, page :: next => s.addTable d va page next
  | _, _ => s

/-- No page table for `va`, and no page to make one. -/
def Vm.NoTable (s : Vm) (d va : Nat) : Prop := s.dirs d (PDX va) = none ∧ s.free = []

section WithTable

variable (s : Vm) (d va : Nat)

theorem withTable_cases : (s.withTable d va = s ∧ (s.dirs d (PDX va) ≠ none ∨ s.free = [])) ∨
      ∃ page next, s.free = page :: next ∧ s.dirs d (PDX va) = none ∧
        s.withTable d va = s.addTable d va page next := by
  unfold Vm.withTable
  cases ht : s.dirs d (PDX va) with
  | some t => exact Or.inl ⟨rfl, Or.inl (by simp)⟩
  | none =>
    cases hf : s.free with
    | nil => exact Or.inl ⟨rfl, Or.inr rfl⟩
    | cons page next => exact Or.inr ⟨page, next, rfl, rfl, rfl⟩

@[simp] theorem ram_withTable : (s.withTable d va).ram = s.ram := by
  unfold Vm.withTable
  split <;> rfl

@[simp] theorem kend_withTable : (s.withTable d va).kend = s.kend := by
  unfold Vm.withTable
  split <;> rfl

@[simp] theorem pte_withTable (d' va' : Nat) : (s.withTable d va).pte d' va' = s.pte d' va' := by
  rcases withTable_cases s d va with ⟨h, -⟩ | ⟨page, next, -, ht, h⟩
  · rw [h]
  · rw [h, pte_addTable ht]

theorem free_withTable : (s.withTable d va).free <:+ s.free := by
  rcases withTable_cases s d va with ⟨h, -⟩ | ⟨page, next, hf, -, h⟩
  · exact h.symm ▸ List.suffix_rfl
  · rw [h, hf]
    exact List.suffix_cons page next

variable {s d va}

/-- The other page tables are the same. -/
theorem dirs_withTable {d' i : Nat} (h : ¬ (d' = d ∧ i = PDX va)) :
    (s.withTable d va).dirs d' i = s.dirs d' i := by
  rcases withTable_cases s d va with ⟨hs, -⟩ | ⟨page, next, -, -, hs⟩
  · rw [hs]
  · rw [hs]
    by_cases hd : d' = d
    · subst hd
      simp [Vm.addTable, show i ≠ PDX va from fun hi => h ⟨rfl, hi⟩]
    · simp [Vm.addTable, hd]

theorem table_withTable (h : ¬ s.NoTable d va) : (s.withTable d va).dirs d (PDX va) ≠ none := by
  rcases withTable_cases s d va with ⟨hs, ht⟩ | ⟨page, next, -, -, hs⟩
  · rw [hs]
    exact fun hn => h ⟨hn, ht.resolve_left (not_not.mpr hn)⟩
  · rw [hs]
    simp [Vm.addTable]

end WithTable

@[simp] theorem ram_setPte (s : Vm) (d va : Nat) (x : Option Pte) :
    (s.setPte d va x).ram = s.ram := by
  unfold Vm.setPte
  split <;> rfl

@[simp] theorem kend_setPte (s : Vm) (d va : Nat) (x : Option Pte) :
    (s.setPte d va x).kend = s.kend := by
  unfold Vm.setPte
  split <;> rfl

/-- The state with an entry for page `p`, and the page table for it. -/
def Vm.withPage (s : Vm) (d p pa perm : Nat) : Vm :=
  (s.withTable d (p * PGSIZE)).setPte d (p * PGSIZE) (some ⟨pa, perm⟩)

/-- A turn of the loop of `mappages` at a page that is not mapped: it fails only for want of a page
table. -/
theorem mapFrom_page {d p : Nat} (hno : ¬ s.maps d p) (k pa perm : Nat) {Q : Int → Vm → Prop}
    (hshort : s.NoTable d (p * PGSIZE) → Q (-1) s) (hdone : ¬ s.NoTable d (p * PGSIZE) →
      spec (match k with
        | 0 => pure 0
        | k + 1 => mapFrom d perm k (uint (p * PGSIZE + PGSIZE)) (uint (pa + PGSIZE)) : VmM Int)
        (s.withPage d p pa perm) Q E) : spec (mapFrom d perm k (p * PGSIZE) pa) s Q E := by
  have hset : ∀ t : Vm, ¬ s.NoTable d (p * PGSIZE) → s.withTable d (p * PGSIZE) = t →
      spec ((do
        let s ← get
        if s.pte d (p * PGSIZE) ≠ none then throw "remap"
        else do
          set (s.setPte d (p * PGSIZE) (some { pa := pa, perm := perm }))
          match k with
          | 0 => pure 0
          | k + 1 =>
            mapFrom d perm k (uint (p * PGSIZE + PGSIZE)) (uint (pa + PGSIZE))) : VmM Int)
        t Q E := by
    rintro t hnt rfl
    simp only [spec_bind, spec_get, spec_ite, spec_throw, spec_set, pte_withTable]
    exact ⟨fun hc => absurd hc hno, fun _ => hdone hnt⟩
  rw [mapFrom.eq_def, spec_bind, walkpgdir_alloc]
  refine ⟨fun ht => ?_, fun ht => ⟨fun hf => ?_, fun page next hf => ?_⟩⟩
  · simp only [not_true_eq_false, if_false]
    refine hset s (fun h => ht h.1) ?_
    rcases withTable_cases s d (p * PGSIZE) with ⟨h, -⟩ | ⟨_, _, -, hn, -⟩
    · exact h
    · exact absurd hn ht
  · simp only [Bool.false_eq_true, not_false_eq_true, if_true, spec_pure]
    exact hshort ⟨ht, hf⟩
  · simp only [not_true_eq_false, if_false]
    refine hset _ (fun h => List.cons_ne_nil page next (hf.symm.trans h.2)) ?_
    unfold Vm.withTable
    rw [ht, hf]

/-- `mappages` of one page. -/
theorem mappages_one {d pg : Nat} (hpg : pg < 2 ^ 20) (hno : ¬ s.maps d pg) (pa perm : Nat)
    {Q : Int → Vm → Prop} (hshort : s.NoTable d (pg * PGSIZE) → Q (-1) s)
    (hdone : ¬ s.NoTable d (pg * PGSIZE) →
      Q 0 ((s.withTable d (pg * PGSIZE)).setPte d (pg * PGSIZE) (some ⟨pa, perm⟩))) :
    spec (mappages d (pg * PGSIZE) PGSIZE pa perm) s Q E := by
  rw [mappages_page hpg]
  exact mapFrom_page hno 0 pa perm hshort fun h => (spec_pure _).mpr (hdone h)

/-! ## Pages below KERNBASE -/

theorem page_lt_of_lt {q oldsz : Nat} (hk : oldsz ≤ KERNBASE) (h : q * PGSIZE < oldsz) :
    q < 2 ^ 19 := by
  simp only [KERNBASE, PGSIZE] at *
  omega

theorem next_page {q : Nat} (h : q < 2 ^ 19) : uint (q * PGSIZE + PGSIZE) = (q + 1) * PGSIZE := by
  simp only [uint, PGSIZE]
  omega

theorem next_table {q : Nat} (h : q < 2 ^ 19) :
    uint (q * PGSIZE + (NPTENTRIES - 1) * PGSIZE + PGSIZE) = (q + NPTENTRIES) * PGSIZE := by
  simp only [uint, NPTENTRIES, PGSIZE]
  omega

theorem PGROUNDUP_eq {sz : Nat} (h : sz < KERNBASE) :
    PGROUNDUP sz = (sz + PGSIZE - 1) / PGSIZE * PGSIZE := by
  simp only [PGROUNDUP, uint, KERNBASE, PGSIZE] at *
  omega

/-! ## kfree -/

/-- A page that `kfree` takes: one above the kernel and below the end of memory. -/
structure Vm.Frame (s : Vm) (p : Nat) : Prop where
  aligned : p % PGSIZE = 0
  above : s.kend ≤ p
  below : p < PHYSTOP
  nonzero : p ≠ 0

/-- The free list is in order: it has each page once. -/
structure Vm.Kmem (s : Vm) : Prop where
  frames : ∀ p ∈ s.free, s.Frame p
  once : s.free.Nodup

/-- `kfree` panics only for what is not a page of memory above the kernel. -/
theorem kfree_any {v : Nat} {Q : Unit → Vm → Prop}
    (hq : Q () { s with free := v :: s.free, ram := Function.update s.ram v fun _ => 1 })
    (he : ¬ s.Frame v → E "kfree" s) : spec (kfree v) s Q E := by
  unfold kfree
  simp only [spec_bind, spec_get, spec_ite, spec_throw, spec_set]
  refine ⟨fun hc => he fun h => ?_, fun _ => hq⟩
  have h1 := h.aligned
  have h2 := h.above
  have h3 := h.below
  omega

/-! ## The pages that are left alone -/

/-- The entries of directory `d` for pages outside of the addresses from `lo` up to
`hi` are the same. -/
def Outside (s : Vm) (d lo hi : Nat) (s' : Vm) : Prop :=
  ∀ pg < 2 ^ 20, pg * PGSIZE < lo ∨ hi ≤ pg * PGSIZE →
  s'.pte d (pg * PGSIZE) = s.pte d (pg * PGSIZE)

theorem Outside.refl {d lo hi : Nat} : Outside s d lo hi s := fun _ _ _ => rfl

theorem Outside.trans {t u : Vm} {d lo hi : Nat} (h1 : Outside s d lo hi t)
    (h2 : Outside t d lo hi u) :
    Outside s d lo hi u := fun pg hpg ho => (h2 pg hpg ho).trans (h1 pg hpg ho)

/-- A new entry for page `q`. -/
theorem outside_setPte {d q lo hi : Nat} (ht : s.dirs d (PDX (q * PGSIZE)) ≠ none) (hq : q < 2 ^ 20)
    (h1 : lo ≤ q * PGSIZE) (h2 : q * PGSIZE < hi) (x : Option Pte) :
    Outside s d lo hi (s.setPte d (q * PGSIZE) x) := by
  intro pg hpg ho
  rw [pte_setPte_page ht hq x d hpg, if_neg]
  rintro ⟨-, rfl⟩
  omega

end xv6.vm
