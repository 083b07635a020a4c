-- What allocuvm and deallocuvm of vm.c do to the pages that a page directory maps, and how many
-- free pages they need for it.
import Xv6.VmDealloc

open bytes WP

namespace xv6.vm

/-- The pages that directory `d` maps are those of `s0` and the `k` pages from `p0` on, and its
page tables are those of `s0` and the ones that these pages need. -/
structure Grown (s0 : Vm) (d p0 k : Nat) (s : Vm) : Prop where
  maps : ∀ d' q, q < 2 ^ 20 → (s.maps d' q ↔ s0.maps d' q ∨ d' = d ∧ p0 ≤ q ∧ q < p0 + k)
  tables : ∀ i, s.dirs d i = none ↔ s0.dirs d i = none ∧ ∀ j < k, (p0 + j) / 1024 ≠ i

/-- Page `pg` is the first of the pages from `p0` on that needs the page table it is in, and
`s0` does not have that table. -/
def Vm.needsTable (s0 : Vm) (d p0 pg : Nat) : Prop :=
  s0.dirs d (pg / 1024) = none ∧ (pg = p0 ∨ pg % 1024 = 0)

instance (s0 : Vm) (d p0 pg : Nat) : Decidable (s0.needsTable d p0 pg) := by
  unfold Vm.needsTable
  have : Decidable (s0.dirs d (pg / 1024) = none) :=
    decidable_of_iff ((s0.dirs d (pg / 1024)).isNone = true) Option.isNone_iff_eq_none
  infer_instance

/-- The free pages that mapping the `k` pages from `p0` on takes. -/
def Vm.need (s0 : Vm) (d p0 : Nat) : Nat → Nat
  | 0 => 0
  | k + 1 => s0.need d p0 k + 1 + if s0.needsTable d p0 (p0 + k) then 1 else 0

theorem Grown.refl (s0 : Vm) (d p0 : Nat) : Grown s0 d p0 0 s0 :=
  ⟨fun d' q _ => by simp, fun i => by simp⟩

/-- The next page finds no page table exactly if it needs a new one. -/
theorem Grown.needsTable_iff {s0 s : Vm}
    {d p0 k : Nat} (h : Grown s0 d p0 k s) (hpg : p0 + k < 2 ^ 20) :
    s.dirs d (PDX ((p0 + k) * PGSIZE)) = none ↔ s0.needsTable d p0 (p0 + k) := by
  have hidx : PDX ((p0 + k) * PGSIZE) = (p0 + k) / 1024 := by
    rw [PDX_page]
    omega
  rw [hidx, h.tables, Vm.needsTable]
  refine and_congr_right fun _ => ⟨fun hall => ?_, fun hfirst j hj => ?_⟩
  · rcases Nat.eq_zero_or_pos k with rfl | hk
    · exact Or.inl rfl
    · have := hall (k - 1) (by omega)
      omega
  · omega

/-- The entry of the next page, in a state whose tables have room for it. -/
theorem Grown.succ {s0 s t : Vm} {d p0 k : Nat} (h : Grown s0 d p0 k s) (hpg : p0 + k < 2 ^ 20)
    (ht : t.dirs d (PDX ((p0 + k) * PGSIZE)) ≠ none)
    (hm : ∀ d' q, q < 2 ^ 20 → (t.maps d' q ↔ s.maps d' q))
    (htab : ∀ i, i ≠ (p0 + k) / 1024 → (t.dirs d i = none ↔ s.dirs d i = none)) (x : Pte) :
    Grown s0 d p0 (k + 1) (t.setPte d ((p0 + k) * PGSIZE) (some x)) := by
  have hidx : PDX ((p0 + k) * PGSIZE) = (p0 + k) / 1024 := by
    rw [PDX_page]
    omega
  refine ⟨fun d' q hq => ?_, fun i => ?_⟩
  · rw [maps_setPte ht hpg _ d' q hq, hm d' q hq, h.maps d' q hq]
    split
    · grind
    · grind
  · rw [dirs_setPte]
    by_cases hi : i = (p0 + k) / 1024
    · subst hi
      rw [hidx] at ht
      exact iff_of_false ht (fun hall => hall.2 k (Nat.lt_succ_self k) rfl)
    · rw [htab i hi, h.tables]
      refine and_congr_right fun _ => ⟨fun hall j hj => ?_, fun hall j hj => hall j (by omega)⟩
      rcases Nat.lt_succ_iff_lt_or_eq.mp hj with hj | rfl
      · exact hall j hj
      · exact Ne.symm hi

/-- Mapping the next page, which is not mapped: there is no panic, and it fails only for want of
a page for its page table. -/
theorem Grown.map_next {s0 s : Vm} {d p0 k : Nat} (h : Grown s0 d p0 k s) (hpg : p0 + k < 2 ^ 20)
    (hfree : ¬ s0.maps d (p0 + k)) (pa perm : Nat) :
    spec (mappages d ((p0 + k) * PGSIZE) PGSIZE pa perm) s (fun _ s' => (Grown s0 d p0 (k + 1) s' ∧
          s'.free.length + (if s0.needsTable d p0 (p0 + k) then 1 else 0) = s.free.length) ∨
        (s0.needsTable d p0 (p0 + k) ∧ s.free = [] ∧ s' = s)) (fun _ _ => False) := by
  have hnot : ¬ s.maps d (p0 + k) := by grind [h.maps]
  rw [mappages_page hpg, mapFrom, spec_bind, walkpgdir_alloc]
  have hneed := h.needsTable_iff hpg
  constructor
  · intro ht
    rw [Ne, hneed] at ht
    simp only [not_true_eq_false, if_false, spec_bind, spec_get]
    rw [spec_ite]
    refine ⟨fun hc => absurd hc hnot, fun _ => ?_⟩
    simp only [spec_bind, spec_set, spec_pure]
    refine Or.inl ⟨h.succ hpg (hneed.not.mpr ht) (fun _ _ _ => Iff.rfl) (fun _ _ => Iff.rfl) _, ?_⟩
    rw [if_neg ht, free_setPte, Nat.add_zero]
  · intro ht
    refine ⟨fun he => ?_, fun page next hf => ?_⟩
    · grind [Bool.false_eq_true, spec_pure]
    · simp only [not_true_eq_false, if_false, spec_bind, spec_get]
      rw [spec_ite]
      refine ⟨fun hc => absurd ?_ hnot, fun _ => ?_⟩
      · rwa [pte_addTable ht] at hc
      · simp only [spec_bind, spec_set, spec_pure]
        refine Or.inl ⟨h.succ hpg ?_ (fun d' q _ => ?_) (fun i hi => ?_) _, ?_⟩
        · simp [Vm.addTable]
        · unfold Vm.maps
          rw [pte_addTable ht]
        · have hidx : i ≠ PDX ((p0 + k) * PGSIZE) := by
            rw [PDX_page]
            omega
          simp [Vm.addTable, hidx]
        · rw [if_pos (hneed.mp ht), free_setPte, hf]
          rfl

/-! ## allocuvm -/

theorem need_lt {s0 : Vm} {d p0 j n : Nat} (h : j < n) : s0.need d p0 j < s0.need d p0 n := by
  induction n with
  | zero => omega
  | succ n ih =>
    grind [Vm.need]

/-- The range that `allocuvm` is to map: `n` pages from `p0` on, none of them mapped. -/
structure Range (s0 : Vm) (d oldsz newsz p0 n : Nat) : Prop where
  first : p0 = (oldsz + PGSIZE - 1) / PGSIZE
  last : ∀ pg, p0 ≤ pg → (pg * PGSIZE < newsz ↔ pg < p0 + n)
  small : newsz < KERNBASE
  fresh : ∀ pg, p0 ≤ pg → pg < p0 + n → ¬ s0.maps d pg

theorem Range.page_lt {s0 : Vm} {d oldsz newsz p0 n j : Nat} (h : Range s0 d oldsz newsz p0 n)
    (hj : j < n) : p0 + j < 2 ^ 19 :=
  page_lt_of_lt (Nat.le_of_lt h.small) ((h.last (p0 + j) (by omega)).mpr (by omega))

theorem Range.lt {s0 : Vm} {d oldsz newsz p0 n j : Nat} (h : Range s0 d oldsz newsz p0 n)
    (hj : j < n) : oldsz < newsz := by
  have h1 := (h.last p0 (Nat.le_refl _)).mpr (by omega)
  have h2 := h.first
  simp only [PGSIZE] at *
  omega

/-- How `allocuvm` can end: it maps the range; or there is no page for the page table of the very
last page, which stays unmapped; or it fails and leaves the mapped pages as they were. -/
inductive Allocated (s0 : Vm) (d newsz p0 n r : Nat) (s' : Vm) : Prop where
  | all : r = newsz → Grown s0 d p0 n s' → s0.need d p0 n ≤ s0.free.length →
      Allocated s0 d newsz p0 n r s'
  | short (j : Nat) : n = j + 1 → r = newsz → s0.needsTable d p0 (p0 + j) →
      s0.free.length + 1 = s0.need d p0 n → Allocated s0 d newsz p0 n r s'
  | none : r = 0 → (∀ d' q, q < 2 ^ 20 → (s'.maps d' q ↔ s0.maps d' q)) →
      s0.free.length < s0.need d p0 n → Allocated s0 d newsz p0 n r s'

/-- With no free page left, the loop undoes what it did. -/
theorem alloc_undone {s0 s : Vm} {d oldsz newsz p0 n j k a : Nat}
    (hr : Range s0 d oldsz newsz p0 n) (hg : Grown s0 d p0 j s) (hj : j < n) (hf : s.free = [])
    (hneed : s0.free.length < s0.need d p0 n) : spec (allocFrom d oldsz newsz (k + 1) a) s
      (fun r s' => Allocated s0 d newsz p0 n r s') (fun e _ => e ≠ "remap") := by
  have hin : ∀ pg, p0 ≤ pg → pg * PGSIZE < newsz → pg < 2 ^ 20 := fun pg _ h =>
    Nat.lt_trans (page_lt_of_lt (Nat.le_of_lt hr.small) h) (by decide)
  have hpacked : s.packed d ((oldsz + PGSIZE - 1) / PGSIZE) newsz := by
    refine ⟨p0 + j, fun pg h1 h2 => ?_⟩
    rw [← hr.first] at h1
    rw [hg.maps d pg (hin pg h1 h2)]
    have hno := hr.fresh pg h1 ((hr.last pg h1).mp h2)
    exact ⟨fun h => (h.resolve_left hno).2.2, fun h => Or.inr ⟨rfl, h1, h⟩⟩
  rw [allocFrom, spec_bind]
  simp only [kalloc, spec_bind, spec_get, hf, spec_pure]
  refine spec_mono (deallocuvm_spec (Nat.le_of_lt hr.small) (hr.lt hj) hpacked) ?_ (fun _ _ h => h)
  rintro _ s' ⟨_, hun⟩
  refine .none rfl (fun d' q hq => ?_) hneed
  rw [← hr.first] at hun
  rw [hun d' q hq, hg.maps d' q hq]
  constructor
  · grind [hr.last]
  · grind [hr.fresh, hr.last]

theorem allocFrom_spec {s0 : Vm} {d oldsz newsz p0 n : Nat} (hr : Range s0 d oldsz newsz p0 n)
    (k : Nat) : ∀ (s : Vm) (j : Nat), j + k = n → Grown s0 d p0 j s →
      s.free.length + s0.need d p0 j = s0.free.length →
      spec (allocFrom d oldsz newsz k ((p0 + j) * PGSIZE)) s
        (fun r s' => Allocated s0 d newsz p0 n r s') (fun e _ => e ≠ "remap") := by
  induction k with
  | zero =>
    intro s j hjn hg hfree
    obtain rfl : j = n := hjn
    rw [allocFrom, spec_pure]
    exact .all rfl hg (by omega)
  | succ k ih =>
    intro s j hjn hg hfree
    have hj : j < n := by omega
    have hpg := hr.page_lt hj
    cases hf : s.free with
    | nil =>
      refine alloc_undone hr hg hj hf ?_
      have : s0.need d p0 j < s0.need d p0 n := need_lt hj
      simp only [hf, List.length_nil] at hfree
      omega
    | cons mem next =>
      have hnext : (p0 + j) * PGSIZE + PGSIZE = (p0 + (j + 1)) * PGSIZE := by grind
      rw [allocFrom, spec_bind]
      simp only [kalloc, zeroPage, spec_bind, spec_get, hf, spec_set, spec_pure, spec_modify, hnext]
      have hg' :
          Grown s0 d p0 j { s with free := next, ram := Function.update s.ram mem fun _ => 0 } :=
        ⟨hg.maps, hg.tables⟩
      refine spec_mono (hg'.map_next (by omega) (hr.fresh _ (by omega) (by omega)) mem _) ?_
        (fun _ _ h => h.elim)
      have hlen : next.length + 1 = s.free.length := by rw [hf]; rfl
      rintro r1 s1 (⟨hg1, hl1⟩ | ⟨ht, he, rfl⟩)
      · grind [Vm.need]
      · -- no page for the page table
        have hnextn : s0.need d p0 (j + 1) = s0.need d p0 j + 2 := by
          rw [Vm.need, if_pos ht]
        simp only at he
        rw [he] at hlen
        simp only [List.length_nil] at hlen
        cases k with
        | zero =>
          obtain rfl : n = j + 1 := by omega
          rw [allocFrom, spec_pure]
          exact .short j rfl rfl ht (by omega)
        | succ k =>
          refine alloc_undone hr hg' hj he ?_
          have : s0.need d p0 (j + 1) < s0.need d p0 n := need_lt (by omega)
          omega

/-- The number of pages that growing from `oldsz` to `newsz` adds. -/
def pages (oldsz newsz : Nat) : Nat := (newsz - PGROUNDUP oldsz + PGSIZE - 1) / PGSIZE

theorem range_of_fresh {s : Vm} {d oldsz newsz : Nat} (hle : oldsz ≤ newsz) (hk : newsz < KERNBASE)
    (hfresh : ∀ pg, oldsz ≤ pg * PGSIZE → pg * PGSIZE < newsz → ¬ s.maps d pg) :
    Range s d oldsz newsz ((oldsz + PGSIZE - 1) / PGSIZE) (pages oldsz newsz) := by
  have hup : PGROUNDUP oldsz = _ := PGROUNDUP_eq (by omega)
  have hlast : ∀ pg, (oldsz + PGSIZE - 1) / PGSIZE ≤ pg →
      (pg * PGSIZE < newsz ↔ pg < (oldsz + PGSIZE - 1) / PGSIZE + pages oldsz newsz) := by
    intro pg hpg
    rw [pages, hup]
    simp only [PGSIZE] at *
    omega
  refine ⟨rfl, hlast, hk, fun pg h1 h2 => hfresh pg ?_ ((hlast pg h1).mpr h2)⟩
  simp only [PGSIZE] at *
  omega

theorem allocuvm_spec {s : Vm} {d oldsz newsz : Nat} (hle : oldsz ≤ newsz) (hk : newsz < KERNBASE)
    (hfresh : ∀ pg, oldsz ≤ pg * PGSIZE → pg * PGSIZE < newsz → ¬ s.maps d pg) :
    spec (allocuvm d oldsz newsz) s
      (fun r s' => Allocated s d newsz ((oldsz + PGSIZE - 1) / PGSIZE) (pages oldsz newsz) r s')
      (fun e _ => e ≠ "remap") := by
  have hr := range_of_fresh hle hk hfresh
  unfold allocuvm
  rw [if_neg (by omega), if_neg (by omega), PGROUNDUP_eq (by omega)]
  have h := allocFrom_spec hr (pages oldsz newsz) s 0 (Nat.zero_add _) (Grown.refl s d _) rfl
  rw [Nat.add_zero] at h
  rw [pages, PGROUNDUP_eq (by omega)] at h ⊢
  exact h

/-! ## The pages that are left alone -/

/-- `mappages` of page `q`. -/
theorem mappages_outside {s : Vm} {d q lo hi : Nat} (hq : q < 2 ^ 20) (h1 : lo ≤ q * PGSIZE)
    (h2 : q * PGSIZE < hi) (pa perm : Nat) :
    spec (mappages d (q * PGSIZE) PGSIZE pa perm) s (fun _ s' => Outside s d lo hi s')
    (fun _ _ => True) := by
  rw [mappages_page hq, mapFrom, spec_bind, walkpgdir_alloc]
  have hset : ∀ t : Vm, t.dirs d (PDX (q * PGSIZE)) ≠ none → Outside s d lo hi t →
      spec ((do
        let s ← get
        if s.pte d (q * PGSIZE) ≠ none then throw "remap"
        else do
          set (s.setPte d (q * PGSIZE) (some { pa := pa, perm := perm }))
          pure 0) : VmM Int) t (fun _ s' => Outside s d lo hi s') (fun _ _ => True) := by
    intro t ht hout
    simp only [spec_bind, spec_get, spec_ite, spec_throw, implies_true, true_and,
      spec_set, spec_pure]
    exact fun _ => hout.trans (outside_setPte ht hq h1 h2 _)
  constructor
  · grind [Outside.refl]
  · intro ht
    refine ⟨fun _ => ?_, fun page next _ => ?_⟩
    · simp only [Bool.false_eq_true, not_false_eq_true, if_true, spec_pure]
      exact Outside.refl
    · simp only [not_true_eq_false, if_false]
      refine hset _ ?_ fun pg _ _ => pte_addTable ht _ _
      simp [Vm.addTable]

theorem allocFrom_outside {d oldsz newsz : Nat} (hk : newsz < KERNBASE)
    (hle : oldsz ≤ newsz) (k : Nat) :
    ∀ (s : Vm) (q : Nat), PGROUNDUP oldsz ≤ q * PGSIZE → (k ≠ 0 → (q + k - 1) * PGSIZE < newsz) →
      spec (allocFrom d oldsz newsz k (q * PGSIZE)) s
        (fun r s' => (r = 0 ∨ r = newsz) ∧ Outside s d (PGROUNDUP oldsz) newsz s')
        (fun _ _ => True) := by
  induction k with
  | zero =>
    intro s q _ _
    rw [allocFrom, spec_pure]
    exact ⟨Or.inr rfl, Outside.refl⟩
  | succ k ih =>
    intro s q hq hlast
    have hlast : (q + k) * PGSIZE < newsz := hlast (Nat.succ_ne_zero k)
    have hqlt : q * PGSIZE < newsz :=
      lt_of_le_of_lt (Nat.mul_le_mul_right _ (Nat.le_add_right q k)) hlast
    have hne : oldsz < newsz := by grind [PGROUNDUP_eq]
    rw [allocFrom, spec_bind]
    unfold kalloc
    simp only [spec_bind, spec_get]
    cases hf : s.free with
    | nil =>
      rw [spec_pure, spec_bind]
      refine spec_mono (deallocuvm_outside (Nat.le_of_lt hk) hne) (fun _ t ht => ?_)
        (fun _ _ h => h)
      exact (spec_pure _).mpr ⟨Or.inl rfl, ht.2⟩
    | cons mem next =>
      simp only [spec_bind, spec_set, spec_pure, zeroPage, spec_modify]
      refine spec_mono (mappages_outside
        (by have := page_lt_of_lt (Nat.le_of_lt hk) hqlt; omega) hq hqlt _ _)
        (fun _ t ht => ?_) (fun _ _ h => h)
      have hstep := ih t (q + 1) (hq.trans (Nat.mul_le_mul_right _ (Nat.le_succ q))) (fun _ => by
        rw [show q + 1 + k - 1 = q + k by omega]
        exact hlast)
      rw [Nat.succ_mul] at hstep
      refine spec_mono hstep (fun r u hu => ⟨hu.1, ?_⟩) (fun _ _ h => h)
      exact Outside.trans (fun pg hpg ho => ht pg hpg ho) hu.2

/-- `allocuvm` leaves the pages below the old size and from the new size on. -/
theorem allocuvm_outside {s : Vm} {d oldsz newsz : Nat} (hk : newsz < KERNBASE)
    (hle : oldsz ≤ newsz) :
    spec (allocuvm d oldsz newsz) s
      (fun r s' => (r = 0 ∨ r = newsz) ∧ Outside s d (PGROUNDUP oldsz) newsz s')
      (fun _ _ => True) := by
  unfold allocuvm
  rw [if_neg (by omega), if_neg (by omega)]
  simp only [PGROUNDUP_eq (show oldsz < KERNBASE by omega)]
  have h := allocFrom_outside (d := d) hk hle
    ((newsz - (oldsz + PGSIZE - 1) / PGSIZE * PGSIZE + PGSIZE - 1) / PGSIZE) s
    ((oldsz + PGSIZE - 1) / PGSIZE)
  rw [PGROUNDUP_eq (show oldsz < KERNBASE by omega)] at h
  refine h le_rfl fun hk0 => ?_
  simp only [PGSIZE] at *
  omega

end xv6.vm
