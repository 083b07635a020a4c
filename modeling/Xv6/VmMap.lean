-- The maps that mappages and setupkvm of vm.c build: each page of the range to its place in
-- physical memory, page tables made on the way, and everything else as it was.
import Mathlib.Data.Nat.Bitwise
import Mathlib.Order.Interval.Finset.Nat
import Xv6.VmDealloc

open List bytes WP

namespace xv6.vm

/-! ## Entries as words -/

/-- `pa | perm | PTE_P`, as an entry is in memory. -/
def Pte.word (e : Pte) : Nat := e.pa ||| e.perm ||| PTE_P

/-- The physical address that `va` stands for, and the flags of its entry. -/
def Vm.translate (s : Vm) (d va : Nat) : Option (Nat × Nat) :=
  (s.pte d va).map fun e => (PTE_ADDR e.word + va % PGSIZE, PTE_FLAGS e.word)

theorem or_P_lt {perm : Nat} (h : perm < PGSIZE) : perm ||| PTE_P < PGSIZE :=
  Nat.or_lt_two_pow (n := 12) h (by decide)

/-- The address and the flags do not share a bit. -/
theorem word_eq {e : Pte} (hpa : e.pa % PGSIZE = 0) (hperm : e.perm < PGSIZE) :
    e.word = e.pa + (e.perm ||| PTE_P) := by
  obtain ⟨n, hn⟩ : ∃ n, e.pa = 2 ^ 12 * n := ⟨e.pa / PGSIZE, by simp only [PGSIZE] at *; omega⟩
  rw [Pte.word, Nat.or_assoc, hn, Nat.two_pow_add_eq_or_of_lt (or_P_lt hperm)]

theorem addr_word {e : Pte} (hpa : e.pa % PGSIZE = 0) (hperm : e.perm < PGSIZE) :
    PTE_ADDR e.word = e.pa := by
  have := or_P_lt hperm
  rw [word_eq hpa hperm, PTE_ADDR]
  simp only [PGSIZE] at *
  omega

theorem flags_word {e : Pte} (hpa : e.pa % PGSIZE = 0) (hperm : e.perm < PGSIZE) :
    PTE_FLAGS e.word = e.perm ||| PTE_P := by
  have := or_P_lt hperm
  rw [word_eq hpa hperm, PTE_FLAGS]
  simp only [PGSIZE] at *
  omega

/-- All addresses of a page have its entry. -/
theorem pte_of_page (s : Vm) (d va : Nat) : s.pte d va = s.pte d (va / PGSIZE * PGSIZE) := by
  have h1 : PDX va = PDX (va / PGSIZE * PGSIZE) := by
    simp only [PDX, PGSIZE, NPDENTRIES]
    omega
  have h2 : PTX va = PTX (va / PGSIZE * PGSIZE) := by
    simp only [PTX, PGSIZE, NPTENTRIES]
    omega
  rw [Vm.pte, Vm.pte, h1, h2]

theorem translate_of_pte {s : Vm} {d va pa perm : Nat}
    (h : s.pte d (va / PGSIZE * PGSIZE) = some ⟨pa, perm⟩)
    (hpa : pa % PGSIZE = 0) (hperm : perm < PGSIZE) :
    s.translate d va = some (pa + va % PGSIZE, perm ||| PTE_P) := by
  rw [Vm.translate, pte_of_page, h, Option.map_some, addr_word (e := ⟨pa, perm⟩) hpa hperm,
    flags_word (e := ⟨pa, perm⟩) hpa hperm]

/-! ## mappages -/

/-- The `n` pages of `d` from page `p` on are mapped to the addresses from `pa` on. -/
structure Mapped (s0 : Vm) (d p n pa perm : Nat) (s : Vm) : Prop where
  kend : s.kend = s0.kend
  ram : s.ram = s0.ram
  free : s.free <:+ s0.free
  dirs : ∀ d', d' ≠ d → s.dirs d' = s0.dirs d'
  tables : ∀ i, (s.dirs d i).map PageTable.page = (s0.dirs d i).map PageTable.page ∨
    s0.dirs d i = none ∧ ∃ t, s.dirs d i = some t ∧ t.page ∈ s0.free
  new : ∀ i < n, s.pte d ((p + i) * PGSIZE) = some ⟨uint (pa + i * PGSIZE), perm⟩
  old : ∀ d', ∀ pg < 2 ^ 20, ¬ (d' = d ∧ p ≤ pg ∧ pg < p + n) →
    s.pte d' (pg * PGSIZE) = s0.pte d' (pg * PGSIZE)

/-- The page tables of `T` that `d` does not have. -/
def Vm.lacks (s : Vm) (d : Nat) (T : Finset Nat) : Finset Nat :=
  T.filter fun i => (s.dirs d i).isNone = true

/-- A table is made only where one is missing, and takes one free page. -/
def Paid (s : Vm) (d : Nat) (T : Finset Nat) (s' : Vm) : Prop :=
  (s'.lacks d T).card + s.free.length ≤ (s.lacks d T).card + s'.free.length

section Mapped

variable {s0 s s' : Vm} {d p n pa perm : Nat}

theorem mapped_none (s0 : Vm) (d p pa perm : Nat) : Mapped s0 d p 0 pa perm s0 :=
  ⟨rfl, rfl, suffix_rfl, fun _ _ => rfl, fun _ => Or.inl rfl,
    fun i hi => absurd hi (Nat.not_lt_zero i), fun _ _ _ _ => rfl⟩

theorem pte_withPage (ht : ¬ s.NoTable d (p * PGSIZE)) (hp : p < 2 ^ 20) (d' : Nat) {pg : Nat}
    (hpg : pg < 2 ^ 20) :
    (s.withPage d p pa perm).pte d' (pg * PGSIZE) =
      if d' = d ∧ pg = p then some ⟨pa, perm⟩ else s.pte d' (pg * PGSIZE) := by
  rw [Vm.withPage, pte_setPte_page (table_withTable ht) hp _ d' hpg, pte_withTable]

theorem tables_withPage (s : Vm) (d p pa perm i : Nat) :
    ((s.withPage d p pa perm).dirs d i).map PageTable.page = (s.dirs d i).map PageTable.page ∨
      s.dirs d i = none ∧ i = PDX (p * PGSIZE) ∧ ∃ t, (s.withPage d p pa perm).dirs d i = some t ∧
      t.page ∈ s.free := by
  have hpage := page_setPte (s.withTable d (p * PGSIZE)) d (p * PGSIZE) (some ⟨pa, perm⟩) d i
  rcases withTable_cases s d (p * PGSIZE) with ⟨h, -⟩ | ⟨page, next, hf, hno, h⟩
  · refine Or.inl (hpage.trans ?_)
    rw [h]
  · by_cases hi : i = PDX (p * PGSIZE)
    · refine Or.inr ⟨hi ▸ hno, hi, ?_⟩
      rw [h, hi] at hpage
      simp only [Vm.addTable, Function.update_self, Option.map_some] at hpage
      obtain ⟨t, ht, hpg⟩ := Option.map_eq_some_iff.mp hpage
      refine ⟨t, ?_, ?_⟩
      · rw [hi, Vm.withPage, h]
        exact ht
      · grind
    · refine Or.inl (hpage.trans ?_)
      rw [dirs_withTable fun hc => hi hc.2]

theorem dirs_withPage {d' : Nat} (h : d' ≠ d) : (s.withPage d p pa perm).dirs d' = s.dirs d' := by
  rw [Vm.withPage, dirs_setPte_of_ne _ h]
  funext i
  exact dirs_withTable fun hc => h hc.1

theorem uint_add_page (pa i : Nat) :
    uint (uint (pa + PGSIZE) + i * PGSIZE) = uint (pa + (i + 1) * PGSIZE) := by
  rw [uint, uint, uint, Nat.mod_add_mod, Nat.succ_mul, Nat.add_assoc, Nat.add_comm PGSIZE]

/-- One page, and then the pages after it. -/
theorem Mapped.cons (hpa : pa < 2 ^ 32) (hp : p < 2 ^ 20) (ht : ¬ s0.NoTable d (p * PGSIZE))
    (h : Mapped (s0.withPage d p pa perm) d (p + 1) n (uint (pa + PGSIZE)) perm s) :
    Mapped s0 d p (n + 1) pa perm s := by
  have hfree : (s0.withPage d p pa perm).free <:+ s0.free := by
    rw [Vm.withPage, free_setPte]
    exact free_withTable ..
  refine ⟨?_, ?_, h.free.trans hfree, fun d' hd => (h.dirs d' hd).trans (dirs_withPage hd),
    fun i => ?_, fun i hi => ?_, fun d' pg hpg hout => ?_⟩
  · rw [h.kend, Vm.withPage, kend_setPte, kend_withTable]
  · rw [h.ram, Vm.withPage, ram_setPte, ram_withTable]
  · rcases h.tables i with hi | ⟨hno, t, htab, hpage⟩
    · rcases tables_withPage s0 d p pa perm i with hi' | ⟨hno, -, t, htab, hpage⟩
      · exact Or.inl (hi.trans hi')
      · refine Or.inr ⟨hno, ?_⟩
        rw [htab, Option.map_some] at hi
        obtain ⟨t', ht', hpg'⟩ := Option.map_eq_some_iff.mp hi
        exact ⟨t', ht', hpg' ▸ hpage⟩
    · refine Or.inr ⟨?_, t, htab, hfree.subset hpage⟩
      rcases tables_withPage s0 d p pa perm i with hi' | ⟨-, -, t', htab', -⟩
      · rw [hno, Option.map_none] at hi'
        exact Option.map_eq_none_iff.mp hi'.symm
      · grind
  · cases i with
    | zero =>
      rw [Nat.add_zero, h.old d p hp (by omega), pte_withPage ht hp d hp, if_pos ⟨rfl, rfl⟩,
        Nat.zero_mul, Nat.add_zero, uint, Nat.mod_eq_of_lt hpa]
    | succ i =>
      have := h.new i (by omega)
      rw [Nat.add_assoc, Nat.add_comm 1] at this
      rw [this, uint_add_page]
  · grind [h.old, pte_withPage]

variable {T : Finset Nat}

theorem mem_lacks {i : Nat} : i ∈ s.lacks d T ↔ i ∈ T ∧ s.dirs d i = none := by
  rw [Vm.lacks, Finset.mem_filter, Option.isNone_iff_eq_none]

theorem Paid.trans {s1 s2 : Vm} (h1 : Paid s d T s1) (h2 : Paid s1 d T s2) : Paid s d T s2 := by
  unfold Paid at *
  omega

theorem paid_withPage (hp : p < 2 ^ 20) (ht : ¬ s.NoTable d (p * PGSIZE)) (hT : p / 1024 ∈ T) :
    Paid s d T (s.withPage d p pa perm) := by
  have hfree : (s.withPage d p pa perm).free = (s.withTable d (p * PGSIZE)).free := free_setPte ..
  have hin : s.lacks d T ⊇ (s.withPage d p pa perm).lacks d T := by
    intro i hi
    rw [mem_lacks] at hi ⊢
    refine ⟨hi.1, ?_⟩
    rcases tables_withPage s d p pa perm i with h | ⟨h, -⟩
    · rw [hi.2] at h
      exact Option.map_eq_none_iff.mp h.symm
    · exact h
  unfold Paid
  rw [hfree]
  rcases withTable_cases s d (p * PGSIZE) with ⟨h, -⟩ | ⟨page, next, hf, hno, h⟩
  · rw [h]
    exact Nat.add_le_add_right (Finset.card_le_card hin) _
  · rw [PDX_low hp] at hno
    have hfirst : p / 1024 ∈ s.lacks d T := mem_lacks.mpr ⟨hT, hno⟩
    have herase : (s.withPage d p pa perm).lacks d T ⊆ (s.lacks d T).erase (p / 1024) := by
      intro i hi
      refine Finset.mem_erase.mpr ⟨?_, hin hi⟩
      rintro rfl
      have htab := (mem_lacks.mp hi).2
      rw [Vm.withPage, dirs_setPte, ← PDX_low hp] at htab
      exact table_withTable ht htab
    have hcard := Finset.card_le_card herase
    rw [Finset.card_erase_of_mem hfirst] at hcard
    have hpos := Finset.card_pos.mpr ⟨_, hfirst⟩
    have hlen : s.free.length = (s.withTable d (p * PGSIZE)).free.length + 1 := by
      rw [h, hf]
      rfl
    omega

/-- With no free page, a missing table is one too many. -/
theorem lacks_pos (hp : p < 2 ^ 20) (h : s.NoTable d (p * PGSIZE)) (hT : p / 1024 ∈ T) :
    s.free.length < (s.lacks d T).card := by
  rw [h.2]
  refine Finset.card_pos.mpr ⟨p / 1024, mem_lacks.mpr ⟨hT, ?_⟩⟩
  rw [← PDX_low hp]
  exact h.1

/-- How `mappages` of `n` pages can end. -/
inductive MapEnds (s : Vm) (d p n pa perm : Nat) (T : Finset Nat) (r : Int) (s' : Vm) : Prop where
  | done : r = 0 → Mapped s d p n pa perm s' → Paid s d T s' → MapEnds s d p n pa perm T r s'
  | short (j : Nat) : r = -1 → s.free.length < (s.lacks d T).card → j < n →
      Mapped s d p j pa perm s' → MapEnds s d p n pa perm T r s'

theorem mapFrom_ends (k : Nat) : ∀ (s : Vm) (p pa : Nat), p + k < 2 ^ 20 → pa < 2 ^ 32 →
    (∀ i ≤ k, ¬ s.maps d (p + i)) → (∀ i ≤ k, (p + i) / 1024 ∈ T) →
    spec (mapFrom d perm k (p * PGSIZE) pa) s (fun r s' => MapEnds s d p (k + 1) pa perm T r s')
      (fun _ _ => False) := by
  induction k with
  | zero =>
    intro s p pa hp hpa hno hT
    refine mapFrom_page (hno 0 (Nat.le_refl 0)) 0 pa perm (fun hshort => ?_) (fun hdone => ?_)
    · exact .short 0 rfl (lacks_pos (by omega) hshort (hT 0 (Nat.le_refl 0))) Nat.zero_lt_one
        (mapped_none ..)
    · rw [spec_pure]
      exact .done rfl (Mapped.cons hpa (by omega) hdone (mapped_none ..))
        (paid_withPage (by omega) hdone (hT 0 (Nat.le_refl 0)))
  | succ k ih =>
    intro s p pa hp hpa hno hT
    have hfirst : ¬ s.maps d p := hno 0 (Nat.zero_le _)
    have hT0 : p / 1024 ∈ T := hT 0 (Nat.zero_le _)
    refine mapFrom_page hfirst (k + 1) pa perm (fun hshort => ?_) (fun hdone => ?_)
    · exact .short 0 rfl (lacks_pos (by omega) hshort hT0) (Nat.succ_pos _) (mapped_none ..)
    · have hnext : uint (p * PGSIZE + PGSIZE) = (p + 1) * PGSIZE := by
        simp only [uint, PGSIZE]
        omega
      show spec (mapFrom d perm k (uint (p * PGSIZE + PGSIZE)) (uint (pa + PGSIZE)))
        (s.withPage d p pa perm) _ _
      rw [hnext]
      have hpaid : Paid s d T (s.withPage d p pa perm) :=
        paid_withPage (show p < 2 ^ 20 by omega) hdone hT0
      have hpa' : uint (pa + PGSIZE) < 2 ^ 32 := Nat.mod_lt _ (by decide)
      have hshift : ∀ i, p + 1 + i = p + (i + 1) := fun i => by omega
      refine spec_mono (ih (s.withPage d p pa perm) (p + 1) (uint (pa + PGSIZE)) (by omega) hpa'
        (fun i hi => ?_) fun i hi => ?_) ?_ (fun _ _ h => h)
      · rw [Vm.maps, pte_withPage hdone (by omega) d (by omega), if_neg (by omega), hshift]
        exact hno (i + 1) (by omega)
      · rw [hshift]
        exact hT (i + 1) (by omega)
      · rintro r s' (⟨rfl, h, hp'⟩ | ⟨j, rfl, hlen, hj, h⟩)
        · exact .done rfl (h.cons hpa (by omega) hdone) (hpaid.trans hp')
        · refine .short (j + 1) rfl ?_ (by omega) (h.cons hpa (by omega) hdone)
          unfold Paid at hpaid
          omega

/-- The pages that the addresses from `va` on touch. -/
def span (va size : Nat) : Nat := (va + size - 1) / PGSIZE - va / PGSIZE + 1

theorem mappages_eq {va size : Nat} (hva : va < 2 ^ 32) (hpos : 0 < size)
    (hwrap : va + size ≤ 2 ^ 32) :
    mappages d va size pa perm = mapFrom d perm (span va size - 1) (va / PGSIZE * PGSIZE) pa := by
  have hlast : PGROUNDDOWN (uint (va + size + 2 ^ 32 - 1)) = (va + size - 1) / PGSIZE * PGSIZE := by
    simp only [PGROUNDDOWN, uint, PGSIZE]
    omega
  unfold mappages
  simp only [PGROUNDDOWN] at hlast ⊢
  congr 1
  simp only [span, uint, PGSIZE]
  omega

/-- `mappages` of pages that are not mapped: it maps them all, or there are not enough free pages
for the page tables. -/
theorem mappages_ends {va size : Nat} (hva : va < 2 ^ 32) (hpos : 0 < size)
    (hwrap : va + size ≤ 2 ^ 32) (hpa : pa < 2 ^ 32)
    (hno : ∀ i < span va size, ¬ s.maps d (va / PGSIZE + i))
    (hT : ∀ i < span va size, (va / PGSIZE + i) / 1024 ∈ T) :
    spec (mappages d va size pa perm) s
      (fun r s' => MapEnds s d (va / PGSIZE) (span va size) pa perm T r s') (fun _ _ => False) := by
  have hspan : span va size = span va size - 1 + 1 := rfl
  rw [mappages_eq hva hpos hwrap, hspan]
  refine mapFrom_ends (span va size - 1) s (va / PGSIZE) pa ?_ hpa (fun i hi => hno i (by omega))
    fun i hi => hT i (by omega)
  simp only [span, PGSIZE]
  omega

end Mapped

/-! ## The loop of mappages -/

/-- The body of the loop of `mappages`, which ends at `last`. -/
def mapTurn (d perm last : Nat) : Nat × Nat → VmM ((Nat × Nat) ⊕ Int)
  | (a, pa) => do
    if ¬ (← walkpgdir d a true) then pure (.inr (-1))
    else
      let s ← get
      if s.pte d a ≠ none then throw "remap"
      else
        set (s.setPte d a (some { pa := pa, perm := perm }))
        if a = last then pure (.inr 0)
        else pure (.inl (uint (a + PGSIZE), uint (pa + PGSIZE)))

section Loop

variable {d perm last a pa : Nat}

theorem mapTurn_last (h : a = last) :
    mapTurn d perm last (a, pa) = (mapFrom d perm 0 a pa >>= fun r => pure (.inr r)) := by
  rw [mapFrom, mapTurn, bind_assoc]
  congr 1
  funext b
  split
  · rfl
  · rw [bind_assoc]
    congr 1
    funext s
    split
    · rfl
    · simp

theorem mapFrom_turn (k : Nat) (h : a ≠ last) : mapFrom d perm (k + 1) a pa =
      mapTurn d perm last (a, pa) >>= Sum.elim (fun x => mapFrom d perm k x.1 x.2) pure := by
  rw [mapFrom, mapTurn, bind_assoc]
  congr 1
  funext b
  split
  · rfl
  · rw [bind_assoc]
    congr 1
    funext s
    split
    · rfl
    · simp

theorem mapTurn_next (s : Vm) : spec (mapTurn d perm last (a, pa)) s
    (fun r _ => ∀ x, r = .inl x → x = (uint (a + PGSIZE), uint (pa + PGSIZE)))
    (fun _ _ => True) := by
  have hend : ∀ t : Vm, ∀ r : (Nat × Nat) ⊕ Int,
      (∀ x, r = .inl x → x = (uint (a + PGSIZE), uint (pa + PGSIZE))) →
      spec (pure r : VmM ((Nat × Nat) ⊕ Int)) t
        (fun r _ => ∀ x, r = .inl x → x = (uint (a + PGSIZE), uint (pa + PGSIZE)))
        (fun _ _ => True) :=
    fun _ _ h => (spec_pure _).mpr h
  rw [mapTurn, spec_bind]
  refine spec_of_forall (fun b t => ?_) (fun _ _ => trivial)
  rw [spec_ite]
  refine ⟨fun _ => hend t _ fun x hx => (by cases hx), fun _ => ?_⟩
  simp only [spec_bind, spec_get, spec_ite, spec_throw, implies_true, true_and, spec_set]
  exact fun _ => ⟨fun _ => hend _ _ fun x hx => (by cases hx),
    fun _ => hend _ _ fun x hx => (Sum.inl.inj hx).symm⟩

/-- The cursor reaches `last` exactly after the pages before it. -/
theorem mapFrom_loops (k : Nat) : ∀ (a pa : Nat) (s : Vm) (r : Int) (s' : Vm),
    a < 2 ^ 32 → k < 2 ^ 20 → uint (a + k * PGSIZE) = last → mapFrom d perm k a pa s = .ok r s' →
    Loops (mapTurn d perm last) (a, pa) s r s' := by
  induction k with
  | zero =>
    intro a pa s r s' ha _ hlast h
    have hlast : a = last := by grind
    refine .stop ?_
    rw [mapTurn_last hlast, bind_ok h]
    rfl
  | succ k ih =>
    intro a pa s r s' ha hk hlast h
    have hne : a ≠ last := by grind
    rw [mapFrom_turn k hne] at h
    obtain ⟨x, t, hturn, hrest⟩ := bind_eq_ok h
    cases x with
    | inr b =>
      simp only [Sum.elim_inr, pure, EStateM.pure] at hrest
      cases hrest
      exact .stop hturn
    | inl x =>
      obtain rfl := of_spec (mapTurn_next s) hturn x rfl
      refine .turn hturn (ih _ _ t r s' (Nat.mod_lt _ (by decide)) (by omega) ?_ hrest)
      rw [uint_add_page]
      exact hlast

end Loop

/-! ## setupkvm -/

/-- `a - KERNBASE`. -/
def V2P (a : Nat) : Nat := (2 ^ 32 - KERNBASE + a) % 2 ^ 32

def P2V (a : Nat) : Nat := (KERNBASE + a) % 2 ^ 32

/-- A range of the kernel's part of a page directory. -/
structure Kmap where
  virt : Nat
  phys_start : Nat
  phys_end : Nat
  perm : Nat

/-- The kernel's mappings, where `data` is the link address of the kernel's data. -/
def kmap (data : Nat) : List Kmap :=
  [ { virt := KERNBASE, phys_start := 0, phys_end := EXTMEM, perm := PTE_W },
    { virt := KERNLINK, phys_start := V2P KERNLINK, phys_end := V2P data, perm := 0 },
    { virt := data, phys_start := V2P data, phys_end := PHYSTOP, perm := PTE_W },
    { virt := DEVSPACE, phys_start := DEVSPACE, phys_end := 0, perm := PTE_W } ]

/-- `k->phys_end - k->phys_start`. -/
def Kmap.size (k : Kmap) : Nat := (2 ^ 32 - k.phys_start + k.phys_end) % 2 ^ 32

/-- The loop of `setupkvm`. -/
def mapAll (d : Nat) : List Kmap → VmM Bool
  | [] => pure true
  | k :: ks => do
    if (← mappages d k.virt k.size k.phys_start k.perm) < 0 then pure false
    else mapAll d ks

/-- Set up the kernel part of a page table. -/
def setupkvm (data : Nat) : VmM (Option Nat) := do
  match ← kalloc with
  | none => pure none
  | some pgdir =>
    -- memset(pgdir, 0, PGSIZE)
    modify fun s => { s with dirs := Function.update s.dirs pgdir fun _ => none }
    if P2V PHYSTOP > DEVSPACE then throw "PHYSTOP too high"
    else
      if ← mapAll pgdir (kmap data) then pure (some pgdir)
      else pure none

/-- The entry that a range gives page `pg`. -/
def Kmap.entry (k : Kmap) (pg : Nat) : Option Pte :=
  if k.virt / PGSIZE ≤ pg ∧ pg < k.virt / PGSIZE + k.size / PGSIZE then
    some ⟨uint (k.phys_start + (pg - k.virt / PGSIZE) * PGSIZE), k.perm⟩
  else none

/-- A range of whole pages that does not wrap, with its page tables in `T`. -/
structure Kmap.Fits (k : Kmap) (T : Finset Nat) : Prop where
  virt : k.virt % PGSIZE = 0
  size : k.size % PGSIZE = 0
  pos : 0 < k.size
  wrap : k.virt + k.size ≤ 2 ^ 32
  phys : k.phys_start < 2 ^ 32
  tables : ∀ pg, k.entry pg ≠ none → pg / 1024 ∈ T

/-- Only directory `d` is not as in `s0`, and its page tables are from the free list of `s0`. -/
structure OnlyDir (s0 : Vm) (d : Nat) (s : Vm) : Prop where
  kend : s.kend = s0.kend
  ram : s.ram = s0.ram
  free : s.free <:+ s0.free
  dirs : ∀ d', d' ≠ d → s.dirs d' = s0.dirs d'
  tables : ∀ i t, s.dirs d i = some t → t.page ∈ s0.free

/-- Directory `d` has the entries of these ranges. -/
def Laid (d : Nat) (ks : List Kmap) (s : Vm) : Prop :=
  ∀ pg < 2 ^ 20, s.pte d (pg * PGSIZE) = ks.findSome? (·.entry pg)

section Laid

variable {s0 s s' : Vm} {d : Nat} {ks : List Kmap} {k : Kmap} {T : Finset Nat}

theorem OnlyDir.map {p n pa perm : Nat} (h : OnlyDir s0 d s) (hm : Mapped s d p n pa perm s') :
    OnlyDir s0 d s' := by
  refine ⟨hm.kend.trans h.kend, hm.ram.trans h.ram, hm.free.trans h.free,
    fun d' hd => (hm.dirs d' hd).trans (h.dirs d' hd), fun i t ht => ?_⟩
  rcases hm.tables i with hsame | ⟨-, t', ht', hpage⟩
  · rw [ht, Option.map_some] at hsame
    obtain ⟨t', ht', hpage⟩ := Option.map_eq_some_iff.mp hsame.symm
    exact hpage ▸ h.tables i t' ht'
  · grind [Option.some.inj, h.free.subset]

theorem span_kmap (h : k.Fits T) : span k.virt k.size = k.size / PGSIZE := by
  have h1 := h.virt
  have h2 := h.size
  have h3 := h.pos
  simp only [span, PGSIZE] at *
  omega

/-- The pages of a range. -/
theorem entry_of_lt (h : k.Fits T) {i : Nat} (hi : i < span k.virt k.size) :
    k.entry (k.virt / PGSIZE + i) ≠ none ∧ k.virt / PGSIZE + i < 2 ^ 20 := by
  rw [span_kmap h] at hi
  have h1 := h.wrap
  constructor
  · rw [Kmap.entry, if_pos ⟨by omega, by omega⟩]
    exact Option.some_ne_none _
  · simp only [PGSIZE] at *
    omega

/-- The next range, when no page of it is mapped yet. -/
theorem Laid.map (h : Laid d ks s) (hk : k.Fits T)
    (hdisj : ∀ pg, k.entry pg ≠ none → ks.findSome? (·.entry pg) = none)
    (hm : Mapped s d (k.virt / PGSIZE) (span k.virt k.size) k.phys_start k.perm s') :
    Laid d (ks ++ [k]) s' := by
  rw [span_kmap hk] at hm
  intro pg hpg
  rw [List.findSome?_append]
  by_cases hin : k.virt / PGSIZE ≤ pg ∧ pg < k.virt / PGSIZE + k.size / PGSIZE
  · have hentry : k.entry pg = some ⟨uint (k.phys_start + (pg - k.virt / PGSIZE) * PGSIZE),
        k.perm⟩ := if_pos hin
    have hnew := hm.new (pg - k.virt / PGSIZE) (by omega)
    rw [Nat.add_sub_cancel' hin.1] at hnew
    rw [hnew, hdisj pg (by rw [hentry]; exact Option.some_ne_none _)]
    simp [hentry]
  · have hentry : k.entry pg = none := if_neg hin
    rw [hm.old d pg hpg (fun hc => hin hc.2), h pg hpg]
    simp [hentry]

/-- How the loop of `setupkvm` ends. -/
structure AllMapped (s0 : Vm) (d : Nat) (ks : List Kmap) (T : Finset Nat) (s : Vm) (ok : Bool)
    (s' : Vm) : Prop where
  only : OnlyDir s0 d s'
  done : ok = true → Laid d ks s' ∧ Paid s d T s'
  short : ok = false → s.free.length < (s.lacks d T).card

/-- No page is in two ranges. -/
def Apart (ks : List Kmap) : Prop :=
  ∀ pg, ks.Pairwise fun k k' => k'.entry pg ≠ none → k.entry pg = none

theorem Apart.next {done ks : List Kmap} (h : Apart (done ++ k :: ks)) (pg : Nat)
    (hk : k.entry pg ≠ none) :
    done.findSome? (·.entry pg) = none := by
  rw [List.findSome?_eq_none_iff]
  intro k' hk'
  exact (pairwise_append.mp (h pg)).2.2 k' hk' k (mem_cons_self ..) hk

theorem mapAll_laid (ks : List Kmap) :
    ∀ (done : List Kmap) (s : Vm), OnlyDir s0 d s → Laid d done s →
    (∀ k ∈ ks, k.Fits T) → Apart (done ++ ks) →
    spec (mapAll d ks) s (fun ok s' => AllMapped s0 d (done ++ ks) T s ok s')
    (fun _ _ => False) := by
  induction ks with
  | nil =>
    intro done s ho hl _ _
    rw [mapAll, spec_pure, append_nil]
    exact ⟨ho, fun _ => ⟨hl, Nat.le_refl _⟩, fun hx => by cases hx⟩
  | cons k ks ih =>
    intro done s ho hl hfits hdisj
    have hk := hfits k (mem_cons_self ..)
    have hnext := hdisj.next
    have hva : k.virt < 2 ^ 32 := by
      have h1 := hk.wrap
      have h2 := hk.pos
      omega
    rw [mapAll, spec_bind]
    refine spec_mono (mappages_ends (T := T) hva hk.pos hk.wrap hk.phys (fun i hi hm => ?_)
      fun i hi => ?_) ?_ (fun _ _ h => h)
    · obtain ⟨hentry, hlt⟩ := entry_of_lt hk hi
      rw [Vm.maps, hl _ hlt, hnext _ hentry] at hm
      exact hm rfl
    · exact hk.tables _ (entry_of_lt hk hi).1
    · rintro r s' (⟨rfl, hm, hpaid⟩ | ⟨j, rfl, hlen, -, hm⟩)
      · rw [if_neg (by decide)]
        have happ : done ++ k :: ks = done ++ [k] ++ ks := by simp
        rw [happ] at hdisj ⊢
        refine spec_mono (ih (done ++ [k]) s' (ho.map hm) (hl.map hk hnext hm)
          (fun k' hk' => hfits k' (mem_cons_of_mem _ hk')) hdisj) (fun ok s'' h => ?_)
          (fun _ _ h => h)
        refine ⟨h.only, fun hok => ⟨(h.done hok).1, hpaid.trans (h.done hok).2⟩, fun hno => ?_⟩
        have := h.short hno
        unfold Paid at hpaid
        omega
      · rw [if_pos (by decide), spec_pure]
        exact ⟨ho.map hm, fun hx => (by cases hx), fun _ => hlen⟩

end Laid

/-! ## The kernel's map -/

/-- The page tables of the kernel's part. -/
def kernelTables : Finset Nat := Finset.Icc 512 567 ∪ Finset.Icc 1016 1023

/-- The entry of page `pg` in the kernel's map. -/
def kpte (data pg : Nat) : Option Pte :=
  if KERNBASE ≤ pg * PGSIZE ∧ pg * PGSIZE < KERNBASE + PHYSTOP then
    some ⟨pg * PGSIZE - KERNBASE, if KERNLINK ≤ pg * PGSIZE ∧ pg * PGSIZE < data then 0 else PTE_W⟩
  else if DEVSPACE ≤ pg * PGSIZE then some ⟨pg * PGSIZE, PTE_W⟩
  else none

section Kernel

variable {s s' : Vm} {data q : Nat}

/-- A range of `n` pages from page `p` on. -/
structure Kmap.Pages (k : Kmap) (p n : Nat) : Prop where
  virt : k.virt = p * PGSIZE
  size : k.size = n * PGSIZE
  pos : 0 < n
  last : p + n ≤ 2 ^ 20
  phys : k.phys_start < 2 ^ 32

theorem Kmap.Pages.entry {k : Kmap} {p n : Nat} (h : k.Pages p n) (pg : Nat) :
    k.entry pg = if p ≤ pg ∧ pg < p + n then some ⟨uint (k.phys_start + (pg - p) * PGSIZE), k.perm⟩
    else none := by
  rw [Kmap.entry, h.virt, h.size, Nat.mul_div_cancel _ (by decide),
    Nat.mul_div_cancel _ (by decide)]

theorem Kmap.Pages.fits {k : Kmap} {p n : Nat} {T : Finset Nat} (h : k.Pages p n)
    (hT : ∀ pg, p ≤ pg → pg < p + n → pg / 1024 ∈ T) : k.Fits T := by
  have h1 := h.last
  have h2 := h.pos
  refine ⟨?_, ?_, ?_, ?_, h.phys, fun pg hpg => ?_⟩
  · rw [h.virt, Nat.mul_mod_left]
  · rw [h.size, Nat.mul_mod_left]
  · rw [h.size]
    exact Nat.mul_pos h2 (by decide)
  · grind [h.virt, h.size]
  · grind [h.entry]

/-- I/O space. -/
theorem pages_io : Kmap.Pages ⟨KERNBASE, 0, EXTMEM, PTE_W⟩ 524288 256 :=
  ⟨by decide, by decide, by decide, by decide, by decide⟩

/-- More devices. -/
theorem pages_devices : Kmap.Pages ⟨DEVSPACE, DEVSPACE, 0, PTE_W⟩ 1040384 8192 :=
  ⟨by decide, by decide, by decide, by decide, by decide⟩

theorem V2P_page (h1 : 524544 < q) (h2 : q < 581632) :
    V2P (q * PGSIZE) = (q - 524288) * PGSIZE := by
  simp only [V2P, PGSIZE, KERNBASE]
  omega

/-- Kernel text and read-only data, where `q` is the first page of the kernel's data. -/
theorem pages_text (h1 : 524544 < q) (h2 : q < 581632) :
    Kmap.Pages ⟨KERNLINK, V2P KERNLINK, V2P (q * PGSIZE), 0⟩ 524544 (q - 524544) := by
  refine ⟨show KERNLINK = _ by decide, ?_, by omega, by omega, show V2P KERNLINK < _ by decide⟩
  rw [Kmap.size, V2P_page h1 h2, show V2P KERNLINK = 256 * PGSIZE by decide]
  simp only [PGSIZE]
  omega

/-- Kernel data and memory. -/
theorem pages_data (h1 : 524544 < q) (h2 : q < 581632) :
    Kmap.Pages ⟨q * PGSIZE, V2P (q * PGSIZE), PHYSTOP, PTE_W⟩ q (581632 - q) := by
  refine ⟨rfl, ?_, by omega, by omega, Nat.mod_lt _ (by decide)⟩
  rw [Kmap.size, V2P_page h1 h2]
  simp only [PGSIZE, PHYSTOP]
  omega

theorem kmap_fits (h1 : 524544 < q) (h2 : q < 581632) :
    ∀ k ∈ kmap (q * PGSIZE), k.Fits kernelTables := by
  have htab : ∀ pg, 524288 ≤ pg ∧ pg < 581632 ∨ 1040384 ≤ pg ∧ pg < 1048576 →
      pg / 1024 ∈ kernelTables := by
    intro pg h
    rw [kernelTables, Finset.mem_union, Finset.mem_Icc, Finset.mem_Icc]
    omega
  intro k hk
  simp only [kmap, mem_cons, not_mem_nil, or_false] at hk
  rcases hk with rfl | rfl | rfl | rfl
  · exact pages_io.fits fun pg h1 h2 => htab pg (by omega)
  · exact (pages_text h1 h2).fits fun pg h1 h2 => htab pg (by omega)
  · exact (pages_data h1 h2).fits fun pg h1 h2 => htab pg (by omega)
  · grind [pages_devices.fits]

theorem kmap_apart (h1 : 524544 < q) (h2 : q < 581632) : Apart (kmap (q * PGSIZE)) := by
  have hdisj : ∀ {k k' : Kmap} {p n p' n' : Nat}, k.Pages p n → k'.Pages p' n' → p + n ≤ p' → ∀ pg,
      k'.entry pg ≠ none → k.entry pg = none := by
    intro k k' p n p' n' hk hk' hle pg hpg
    rw [hk'.entry] at hpg
    rw [hk.entry, if_neg]
    intro hin
    rw [if_neg (by omega)] at hpg
    exact hpg rfl
  have ht := pages_text h1 h2
  have hd := pages_data h1 h2
  intro pg
  simp only [kmap, pairwise_cons, mem_cons, not_mem_nil, or_false, forall_eq_or_imp, forall_eq,
    false_implies, implies_true, List.Pairwise.nil, and_true]
  exact ⟨⟨hdisj pages_io ht (by omega) pg, hdisj pages_io hd (by omega) pg,
    hdisj pages_io pages_devices (by omega) pg⟩,
    ⟨hdisj ht hd (by omega) pg, hdisj ht pages_devices (by omega) pg⟩,
    hdisj hd pages_devices (by omega) pg⟩

/-- The four ranges together. -/
theorem kmap_entry (h1 : 524544 < q) (h2 : q < 581632) {pg : Nat} (hpg : pg < 2 ^ 20) :
    (kmap (q * PGSIZE)).findSome? (·.entry pg) = kpte (q * PGSIZE) pg := by
  have hmem : KERNBASE ≤ pg * PGSIZE ∧ pg * PGSIZE < KERNBASE + PHYSTOP ↔
      524288 ≤ pg ∧ pg < 581632 := by
    grind
  have htext : KERNLINK ≤ pg * PGSIZE ∧ pg * PGSIZE < q * PGSIZE ↔ 524544 ≤ pg ∧ pg < q := by grind
  have hdev : 1040384 * PGSIZE ≤ pg * PGSIZE ↔ 1040384 ≤ pg := Nat.mul_le_mul_right_iff (by decide)
  -- the start of a range and the distance from it give the physical address
  have hphys : ∀ a b, a ≤ b → b ≤ pg →
      uint (a * PGSIZE + (pg - b) * PGSIZE) = (pg - (b - a)) * PGSIZE := by
    grind
  have hsub : pg * PGSIZE - KERNBASE = (pg - 524288) * PGSIZE := by
    simp only [KERNBASE, PGSIZE]
    omega
  rw [kmap]
  simp only [List.findSome?_cons, List.findSome?_nil]
  rw [pages_io.entry, (pages_text h1 h2).entry, (pages_data h1 h2).entry, pages_devices.entry,
    V2P_page h1 h2, kpte,
    show V2P KERNLINK = 256 * PGSIZE by decide, show DEVSPACE = 1040384 * PGSIZE by decide]
  simp only [hmem, htext, hdev, hsub]
  by_cases hlow : pg < 524288
  · simp only [show ¬ 524288 ≤ pg by omega, show ¬ 524544 ≤ pg by omega, show ¬ q ≤ pg by omega,
      show ¬ 1040384 ≤ pg by omega, false_and, if_false]
  by_cases hio : pg < 524544
  · have hpa : uint (0 + (pg - 524288) * PGSIZE) = (pg - 524288) * PGSIZE := by grind
    simp only [show 524288 ≤ pg by omega, show pg < 524288 + 256 by omega,
      show pg < 581632 by omega,
      show ¬ 524544 ≤ pg by omega, and_self, false_and, if_true, if_false, hpa]
  by_cases htx : pg < q
  · have hpa : uint (256 * PGSIZE + (pg - 524544) * PGSIZE) = (pg - 524288) * PGSIZE :=
      hphys 256 524544 (by omega) (by omega)
    simp only [show 524288 ≤ pg by omega, show ¬ pg < 524288 + 256 by omega,
      show pg < 581632 by omega, show 524544 ≤ pg by omega,
      show pg < 524544 + (q - 524544) by omega, htx, and_self, and_false, if_true,
      if_false, hpa]
  by_cases hdt : pg < 581632
  · have hpa : uint ((q - 524288) * PGSIZE + (pg - q) * PGSIZE) = (pg - 524288) * PGSIZE := by grind
    simp only [show 524288 ≤ pg by omega, show ¬ pg < 524288 + 256 by omega, hdt,
      show ¬ pg < 524544 + (q - 524544) by omega, show q ≤ pg by omega,
      show pg < q + (581632 - q) by omega, htx, and_self, and_false, if_true, if_false, hpa]
  by_cases hdv : 1040384 ≤ pg
  · have hpa : uint (1040384 * PGSIZE + (pg - 1040384) * PGSIZE) = pg * PGSIZE :=
      hphys 1040384 1040384 (by omega) hdv
    simp only [show ¬ pg < 524288 + 256 by omega, show ¬ pg < 524544 + (q - 524544) by omega,
      show ¬ pg < q + (581632 - q) by omega, hdt, hdv, show pg < 1040384 + 8192 by omega,
      and_self, and_false, if_true, if_false, hpa]
  · simp only [show ¬ pg < 524288 + 256 by omega, show ¬ pg < 524544 + (q - 524544) by omega,
      show ¬ pg < q + (581632 - q) by omega, hdt, hdv, false_and, and_false, if_false]

/-! ### What setupkvm returns -/

/-- A new directory with the kernel's map and nothing else. -/
structure Kvm (s : Vm) (data d : Nat) (s' : Vm) : Prop where
  taken : s.free.head? = some d
  only : OnlyDir s d s'
  left : s.free.length ≤ s'.free.length + 65
  pte : ∀ pg < 2 ^ 20, s'.pte d (pg * PGSIZE) = kpte data pg

/-- A number of free pages that is enough for the kernel's part. -/
theorem card_kernelTables : kernelTables.card = 64 := by decide +kernel

/-- `setupkvm` builds the kernel's map, or there are not the 65 free pages that it takes. -/
theorem setupkvm_kvm (h1 : KERNLINK < data) (h2 : data < KERNBASE + PHYSTOP)
    (h3 : data % PGSIZE = 0) :
    spec (setupkvm data) s (fun r s' => (∀ d, r = some d → Kvm s data d s') ∧
        (r = none → s.free.length ≤ 64 ∧ (s' = s ∨ ∃ d, s.free.head? = some d ∧ OnlyDir s d s')))
      (fun _ _ => False) := by
  obtain ⟨q, rfl⟩ : ∃ q, data = q * PGSIZE := ⟨data / PGSIZE, by simp only [PGSIZE] at *; omega⟩
  have hq1 : 524544 < q := by
    simp only [KERNLINK, KERNBASE, EXTMEM, PGSIZE] at h1
    omega
  have hq2 : q < 581632 := by
    simp only [KERNBASE, PHYSTOP, PGSIZE] at h2
    omega
  unfold setupkvm kalloc
  simp only [spec_bind, spec_get]
  cases hf : s.free with
  | nil =>
    simp only [spec_pure]
    exact ⟨fun _ hx => (by cases hx), fun _ => ⟨Nat.zero_le _, Or.inl trivial⟩⟩
  | cons d next =>
    simp only [spec_bind, spec_set, spec_pure, spec_modify, spec_ite, spec_throw]
    refine ⟨fun hc => absurd hc (by decide), fun _ => ?_⟩
    set t : Vm := { s with free := next, dirs := Function.update s.dirs d fun _ => none } with ht
    have hnone : ∀ i, t.dirs d i = none := fun i => by simp [ht]
    have honly : OnlyDir s d t := by
      refine ⟨rfl, rfl, ?_, fun d' hd => Function.update_of_ne hd .., fun i x hx => ?_⟩
      · rw [hf]
        exact suffix_cons ..
      · rw [hnone] at hx
        cases hx
    have hlaid : Laid d [] t := by
      intro pg _
      rw [Vm.pte, hnone]
      rfl
    have hlacks : (t.lacks d kernelTables).card = 64 := by
      rw [Vm.lacks, Finset.filter_true_of_mem (fun i _ => by rw [hnone]; rfl), card_kernelTables]
    refine spec_mono (mapAll_laid (kmap (q * PGSIZE)) [] t honly hlaid (kmap_fits hq1 hq2)
      (kmap_apart hq1 hq2)) (fun ok s' h => ?_) (fun _ _ h => h)
    cases ok with
    | true =>
      refine ⟨fun _ => ⟨fun d' hd => ?_, fun hx => (by cases hx)⟩, fun hc => absurd rfl hc⟩
      obtain rfl := Option.some.inj hd
      obtain ⟨hl, hpaid⟩ := h.done rfl
      refine ⟨by rw [hf]; rfl, h.only, ?_, fun pg hpg => ?_⟩
      · have hlen : s.free.length = t.free.length + 1 := by rw [hf, length_cons]
        unfold Paid at hpaid
        omega
      · rw [hl pg hpg, nil_append, kmap_entry hq1 hq2 hpg]
    | false =>
      refine ⟨fun hx => (by cases hx),
        fun _ => ⟨fun _ hx => (by cases hx), fun _ => ⟨?_, Or.inr ⟨d, rfl, h.only⟩⟩⟩⟩
      have := h.short rfl
      rw [hlacks] at this
      exact this

/-! ## The maps as they are used -/

/-- The translation that the kernel's map gives. -/
def ktranslate (data va : Nat) : Option (Nat × Nat) :=
  if KERNBASE ≤ va ∧ va < KERNBASE + PHYSTOP then
    some (va - KERNBASE, (if KERNLINK ≤ va ∧ va < data then 0 else PTE_W) ||| PTE_P)
  else if DEVSPACE ≤ va then some (va, PTE_W ||| PTE_P)
  else none

theorem Kvm.translate {d va : Nat} (h : Kvm s data d s') (h3 : data % PGSIZE = 0)
    (hva : va < 2 ^ 32) :
    s'.translate d va = ktranslate data va := by
  have hpg : va / PGSIZE < 2 ^ 20 := by
    simp only [PGSIZE]
    omega
  have hpte := h.pte (va / PGSIZE) hpg
  -- the bounds of the map are at page boundaries
  have hmem : KERNBASE ≤ va / PGSIZE * PGSIZE ∧ va / PGSIZE * PGSIZE < KERNBASE + PHYSTOP ↔
      KERNBASE ≤ va ∧ va < KERNBASE + PHYSTOP := by
    simp only [KERNBASE, PHYSTOP, PGSIZE]
    omega
  have htext : KERNLINK ≤ va / PGSIZE * PGSIZE ∧ va / PGSIZE * PGSIZE < data ↔
      KERNLINK ≤ va ∧ va < data := by
    grind
  have hdev : DEVSPACE ≤ va / PGSIZE * PGSIZE ↔ DEVSPACE ≤ va := by grind
  simp only [kpte, hmem, htext, hdev] at hpte
  unfold ktranslate
  by_cases hm : KERNBASE ≤ va ∧ va < KERNBASE + PHYSTOP
  · rw [if_pos hm] at hpte ⊢
    have hpa : (va / PGSIZE * PGSIZE - KERNBASE) % PGSIZE = 0 ∧
        va / PGSIZE * PGSIZE - KERNBASE + va % PGSIZE = va - KERNBASE := by
      simp only [KERNBASE, PGSIZE] at *
      omega
    rw [translate_of_pte hpte hpa.1 (by split <;> decide), hpa.2]
  · rw [if_neg hm] at hpte ⊢
    by_cases hd : DEVSPACE ≤ va
    · rw [if_pos hd] at hpte ⊢
      have hpa : va / PGSIZE * PGSIZE + va % PGSIZE = va := by
        simp only [PGSIZE]
        omega
      rw [translate_of_pte hpte (Nat.mul_mod_left ..) (by decide), hpa]
    · rw [if_neg hd] at hpte ⊢
      rw [Vm.translate, pte_of_page, hpte]
      rfl

end Kernel

/-- The addresses of the pages from that of `va` to that of `va + size - 1`. -/
def covers (va size x : Nat) : Prop :=
  PGROUNDDOWN va ≤ PGROUNDDOWN x ∧ PGROUNDDOWN x ≤ PGROUNDDOWN (va + size - 1)

section Exact

variable {s s' : Vm} {d va size pa perm : Nat}

theorem covers_iff {x : Nat} :
    covers va size x ↔ va / PGSIZE ≤ x / PGSIZE ∧ x / PGSIZE ≤ (va + size - 1) / PGSIZE := by
  simp only [covers, PGROUNDDOWN, PGSIZE]
  omega

theorem Mapped.translate (h : Mapped s d (va / PGSIZE) (span va size) pa perm s')
    (hpa : pa % PGSIZE = 0) (hperm : perm < PGSIZE) {x : Nat} (hx : covers va size x) :
    s'.translate d x = some (uint (pa + (PGROUNDDOWN x - PGROUNDDOWN va)) + x % PGSIZE,
    perm ||| PTE_P) := by
  rw [covers_iff] at hx
  have hnew := h.new (x / PGSIZE - va / PGSIZE) (by unfold span; omega)
  rw [Nat.add_sub_cancel' hx.1] at hnew
  have hdist : (x / PGSIZE - va / PGSIZE) * PGSIZE = PGROUNDDOWN x - PGROUNDDOWN va := by
    rw [PGROUNDDOWN, PGROUNDDOWN, Nat.sub_mul]
  rw [translate_of_pte hnew ?_ hperm, hdist]
  simp only [uint, PGSIZE] at *
  omega

theorem Mapped.translate_old (h : Mapped s d (va / PGSIZE) (span va size) pa perm s')
    (hpos : 0 < size) (d' : Nat) {x : Nat} (hx32 : x < 2 ^ 32)
    (hx : ¬ (d' = d ∧ covers va size x)) : s'.translate d' x = s.translate d' x := by
  rw [covers_iff] at hx
  have hpg : x / PGSIZE < 2 ^ 20 := by
    simp only [PGSIZE]
    omega
  have hspan : va / PGSIZE + span va size = (va + size - 1) / PGSIZE + 1 := by
    simp only [span, PGSIZE]
    omega
  have hold := h.old d' (x / PGSIZE) hpg (by omega)
  rw [Vm.translate, Vm.translate, pte_of_page, hold, ← pte_of_page]

/-- `mappages` and `setupkvm` build the maps that they are to build, and nothing else. -/
theorem mappages_setupkvm_exact :
    (∀ (s : Vm) (d va size pa perm : Nat), va < 2 ^ 32 → 0 < size → va + size - 1 < 2 ^ 32 →
      pa % PGSIZE = 0 → pa < 2 ^ 32 → perm < PGSIZE →
      (∀ x < 2 ^ 32, covers va size x → s.translate d x = none) →
      (s.lacks d (Finset.Icc (PDX va) (PDX (va + size - 1)))).card ≤ s.free.length →
      ∃ s', mappages d va size pa perm s = .ok 0 s' ∧
        Loops (mapTurn d perm (PGROUNDDOWN (va + size - 1))) (PGROUNDDOWN va, pa) s 0 s' ∧
        (∀ x < 2 ^ 32, covers va size x → s'.translate d x =
          some (uint (pa + (PGROUNDDOWN x - PGROUNDDOWN va)) + x % PGSIZE, perm ||| PTE_P)) ∧
        ∀ d', ∀ x < 2 ^ 32, ¬ (d' = d ∧ covers va size x) → s'.translate d' x = s.translate d' x) ∧
    (∀ (s : Vm) (data : Nat), KERNLINK < data → data < KERNBASE + PHYSTOP → data % PGSIZE = 0 →
      65 ≤ s.free.length →
      ∃ d s', setupkvm data s = .ok (some d) s' ∧
        ∀ va < 2 ^ 32, s'.translate d va = ktranslate data va) := by
  refine ⟨fun s d va size pa perm hva hpos hwrap hpa hpa32 hperm hno hfree => ?_,
    fun s data h1 h2 h3 hfree => ?_⟩
  · have hends : spec (mappages d va size pa perm) s
        (fun r s' => MapEnds s d (va / PGSIZE) (span va size) pa perm
        (Finset.Icc (PDX va) (PDX (va + size - 1))) r s') (fun _ _ => False) :=
      mappages_ends hva hpos (by omega) hpa32 (fun i hi hm => ?_) fun i hi => ?_
    · obtain ⟨r, s', hrun, hend⟩ := exists_of_spec hends
      rcases hend with ⟨rfl, hm, -⟩ | ⟨j, -, hlen, -, -⟩
      · refine ⟨s', hrun, ?_, fun x _ hx => hm.translate hpa hperm hx,
          fun d' x hx32 hx => hm.translate_old hpos d' hx32 hx⟩
        rw [mappages_eq hva hpos (by omega)] at hrun
        refine mapFrom_loops (span va size - 1) _ pa s 0 s' ?_ ?_ ?_ hrun
        all_goals
          simp only [span, uint, PGROUNDDOWN, PGSIZE]
          omega
      · omega
    · have hx := hno ((va / PGSIZE + i) * PGSIZE) (by simp only [span, PGSIZE] at *; omega) (by
        rw [covers_iff, Nat.mul_div_cancel _ (by decide)]
        simp only [span, PGSIZE] at *
        omega)
      rw [Vm.translate, Option.map_eq_none_iff] at hx
      exact hm hx
    · rw [Finset.mem_Icc]
      simp only [PDX, span, PGSIZE, NPDENTRIES] at *
      omega
  · obtain ⟨r, s', hrun, hsome, hnone⟩ := exists_of_spec (setupkvm_kvm (s := s) h1 h2 h3)
    cases r with
    | none =>
      have := (hnone rfl).1
      omega
    | some d => exact ⟨d, s', hrun, fun va hva => (hsome d rfl).translate h3 hva⟩

/-- The very last page of the address space, where the cursor must not go on. -/
theorem the_last_page_is_mapped : ∃ s',
    mappages 0x300000 0xFFFFF000 PGSIZE 0xFFFFF000 PTE_W (freshVm [0x400000]) = .ok 0 s' ∧
      s'.translate 0x300000 0xFFFFFFFF = some (0xFFFFFFFF, PTE_W ||| PTE_P) := by
  obtain ⟨s', hrun, -, hnew, -⟩ :=
    mappages_setupkvm_exact.1 (freshVm [0x400000]) 0x300000 0xFFFFF000 PGSIZE 0xFFFFF000
    PTE_W (by decide) (by decide) (by decide) (by decide) (by decide) (by decide) (fun _ _ _ => rfl)
    (by decide +kernel)
  exact ⟨s', hrun, hnew 0xFFFFFFFF (by decide) ⟨by decide, by decide⟩⟩

end Exact

end xv6.vm
