-- The physical pages under the page tables of vm.c: allocuvm writes only to pages that it took from
-- the free list, deallocuvm only to the pages that it gives back, and new pages are zero.
import Xv6.VmPages

open bytes WP

namespace xv6.vm

/-! ## allocuvm -/

/-- After `j` pages from `p0` on: they are zero and come from the free list of `s0`, and no other
page was written to. -/
structure Filled (s0 : Vm) (d p0 j : Nat) (s : Vm) : Prop where
  kend : s.kend = s0.kend
  free : s.free <:+ s0.free
  old : ∀ p, p ∉ s0.free → s.ram p = s0.ram p
  new : ∀ i < j, ∃ e, s.pte d ((p0 + i) * PGSIZE) = some e ∧
    e.pa ∈ s0.free ∧ e.pa ∉ s.free ∧ s.ram e.pa = fun _ => 0

theorem Filled.refl (s0 : Vm) (d p0 : Nat) : Filled s0 d p0 0 s0 :=
  ⟨rfl, List.suffix_rfl, fun _ _ => rfl, fun i hi => absurd hi (Nat.not_lt_zero i)⟩

/-- The next page, taken from the free list and zeroed. -/
theorem Filled.take {s0 s : Vm} {d p0 j mem : Nat} {next : List Nat} (h : Filled s0 d p0 j s)
    (hk : s0.Kmem) (hf : s.free = mem :: next) :
    Filled s0 d p0 j { s with free := next, ram := Function.update s.ram mem fun _ => 0 } ∧
      mem ∈ s0.free ∧ mem ∉ next := by
  have hmem : mem ∈ s0.free := h.free.subset (by simp [hf])
  have hnodup : (mem :: next).Nodup := hf ▸ hk.once.sublist h.free.sublist
  have hsuf : next <:+ s.free := hf ▸ List.suffix_cons mem next
  refine ⟨⟨h.kend, hsuf.trans h.free, fun p hp => ?_, fun i hi => ?_⟩, hmem,
    (List.nodup_cons.mp hnodup).1⟩
  · have hne : p ≠ mem := fun e => hp (e ▸ hmem)
    simp only [Function.update_of_ne hne]
    exact h.old p hp
  · obtain ⟨e, he, h1, h2, h3⟩ := h.new i hi
    have hne : e.pa ≠ mem := fun hc => h2 (by simp [hf, hc])
    refine ⟨e, he, h1, fun hin => h2 (hsuf.subset hin), ?_⟩
    simpa only [Function.update_of_ne hne] using h3

/-- The entry for the next page. -/
theorem Filled.map {s0 s : Vm} {d p0 j mem perm : Nat} (h : Filled s0 d p0 j s)
    (hpg : p0 + j < 2 ^ 20) (ht : ¬ s.NoTable d ((p0 + j) * PGSIZE)) (hmem : mem ∈ s0.free)
    (hout : mem ∉ s.free) (hzero : s.ram mem = fun _ => 0) : Filled s0 d p0 (j + 1)
      ((s.withTable d ((p0 + j) * PGSIZE)).setPte d ((p0 + j) * PGSIZE) (some ⟨mem, perm⟩)) := by
  have hsuf := free_withTable s d ((p0 + j) * PGSIZE)
  refine ⟨by simpa using h.kend, by simpa using hsuf.trans h.free, by simpa using h.old,
    fun i hi => ?_⟩
  simp only [pte_setPte (table_withTable ht), pte_withTable, free_setPte, ram_setPte,
    ram_withTable, page_eq_iff (show p0 + i < 2 ^ 20 by omega) hpg, true_and]
  rcases Nat.lt_succ_iff_lt_or_eq.mp hi with hlt | rfl
  · grind [h.new, hsuf.subset]
  · grind

/-- The free pages run out at the page table of the last of `n` pages. -/
def Vm.ShortAtLast (s0 : Vm) (d p0 n : Nat) : Prop :=
  s0.needsTable d p0 (p0 + (n - 1)) ∧ s0.free.length + 1 = s0.need d p0 n

/-- The last of `n` pages needs two free pages, after those of the pages before it. -/
theorem need_of_shortAtLast {s0 : Vm} {d p0 j n : Nat} (h : s0.ShortAtLast d p0 n) (hj : j < n) :
    s0.need d p0 j + 2 ≤ s0.need d p0 n := by
  obtain ⟨m, rfl⟩ : ∃ m, n = m + 1 := ⟨n - 1, by omega⟩
  have htab : s0.needsTable d p0 (p0 + m) := h.1
  rw [Vm.need, if_pos htab]
  rcases Nat.lt_succ_iff_lt_or_eq.mp hj with hlt | rfl
  · have : s0.need d p0 j < s0.need d p0 m := need_lt hlt
    omega
  · omega

/-- What `allocuvm` leaves, whatever it returns: nothing but pages of the free list was written to,
and unless it failed it mapped some of the range to zero pages. -/
structure Taken (s0 : Vm) (d p0 n r : Nat) (s' : Vm) : Prop where
  old : ∀ p, p ∉ s0.free → s'.ram p = s0.ram p
  new : r ≠ 0 → ∃ j ≤ n, Grown s0 d p0 j s' ∧ Filled s0 d p0 j s' ∧
    s'.free.length + s0.need d p0 j ≤ s0.free.length
  failed : r = 0 → ¬ s0.ShortAtLast d p0 n

/-- The first page that was not mapped tells how many were. -/
theorem Grown.count_eq {s0 s : Vm} {d p0 j n : Nat} (hj : Grown s0 d p0 j s)
    (hn : Grown s0 d p0 n s) (hle : j ≤ n)
    (hfresh : j < n → p0 + j < 2 ^ 20 ∧ ¬ s0.maps d (p0 + j)) : j = n := by
  by_contra hne
  have hlt : j < n := by omega
  obtain ⟨hpg, hfresh⟩ := hfresh hlt
  have hm := (hn.maps d (p0 + j) hpg).mpr (Or.inr ⟨rfl, by omega, by omega⟩)
  rw [hj.maps d (p0 + j) hpg] at hm
  have := (hm.resolve_left hfresh).2.2
  omega

section Alloc

variable {s0 : Vm} {d oldsz newsz p0 n : Nat}

/-- With no free page left, the pages go back. -/
theorem alloc_gives_back {s : Vm} {j k a : Nat} (hk : s0.Kmem)
    (hr : Range s0 d oldsz newsz p0 n) (hg : Grown s0 d p0 j s) (hfill : Filled s0 d p0 j s)
    (hj : j < n) (hf : s.free = []) (hno : ¬ s0.ShortAtLast d p0 n) :
    spec (allocFrom d oldsz newsz (k + 1) a) s (fun r s' => Taken s0 d p0 n r s')
    (fun _ _ => False) := by
  have hframe : ∀ p, p ∈ s0.free → s.Frame p := by
    intro p hp
    have h1 := hk.frames p hp
    exact ⟨h1.aligned, hfill.kend ▸ h1.above, h1.below, h1.nonzero⟩
  have hw : s.Within d ((oldsz + PGSIZE - 1) / PGSIZE) newsz (· ∈ s0.free) := by
    intro pg e h1 h2 he
    rw [← hr.first] at h1
    have hpg : pg < 2 ^ 20 :=
      Nat.lt_trans (page_lt_of_lt (Nat.le_of_lt hr.small) h2) (by decide)
    have hmaps : s.maps d pg := by simp [Vm.maps, he]
    rw [hg.maps d pg hpg] at hmaps
    obtain ⟨-, -, hlt⟩ := hmaps.resolve_left (hr.fresh pg h1 ((hr.last pg h1).mp h2))
    obtain ⟨f, hf, hin, -, -⟩ := hfill.new (pg - p0) (by omega)
    rw [show p0 + (pg - p0) = pg by omega, he] at hf
    cases hf
    exact hin
  rw [allocFrom, spec_bind]
  simp only [kalloc, spec_bind, spec_get, hf, spec_pure]
  refine spec_mono (deallocuvm_frames (Nat.le_of_lt hr.small) (hr.lt hj) hframe hw)
    (fun _ s' hs' => ?_) (fun _ _ h => h)
  exact ⟨fun p hp => (hs' p hp).trans (hfill.old p hp), fun h => absurd rfl h, fun _ => hno⟩

theorem allocFrom_frames (hk : s0.Kmem) (hr : Range s0 d oldsz newsz p0 n) (hpos : newsz ≠ 0)
    (k : Nat) : ∀ (s : Vm) (j : Nat), j + k = n → Grown s0 d p0 j s → Filled s0 d p0 j s →
      s.free.length + s0.need d p0 j = s0.free.length →
      spec (allocFrom d oldsz newsz k ((p0 + j) * PGSIZE)) s
        (fun r s' => Taken s0 d p0 n r s') (fun _ _ => False) := by
  induction k with
  | zero =>
    intro s j hjn hg hfill hlen
    rw [allocFrom, spec_pure]
    exact ⟨hfill.old, fun _ => ⟨j, by omega, hg, hfill, by omega⟩, fun h => absurd h hpos⟩
  | succ k ih =>
    intro s j hjn hg hfill hlen
    have hj : j < n := by omega
    have hpg : p0 + j < 2 ^ 20 := Nat.lt_trans (hr.page_lt hj) (by decide)
    cases hf : s.free with
    | nil =>
      refine alloc_gives_back hk hr hg hfill hj hf fun hshort => ?_
      have h1 := need_of_shortAtLast hshort hj
      have h2 := hshort.2
      simp only [hf, List.length_nil] at hlen
      omega
    | cons mem next =>
      obtain ⟨htake, hmem, hout⟩ := hfill.take hk hf
      have hnext : (p0 + j) * PGSIZE + PGSIZE = (p0 + (j + 1)) * PGSIZE := by grind
      rw [allocFrom, spec_bind]
      simp only [kalloc, zeroPage, spec_bind, spec_get, hf, spec_set, spec_pure, spec_modify, hnext]
      set t : Vm := { s with free := next, ram := Function.update s.ram mem fun _ => 0 } with ht
      have hgt : Grown s0 d p0 j t := ⟨hg.maps, hg.tables⟩
      have htlen : t.free.length + 1 = s.free.length := by simp [ht, hf]
      have hnot : ¬ t.maps d (p0 + j) := by grind [hgt.maps, hr.fresh]
      have hgrown := hgt.map_next hpg (hr.fresh _ (by omega) (by omega)) mem (PTE_W ||| PTE_U)
      have hfilled : spec (mappages d ((p0 + j) * PGSIZE) PGSIZE mem (PTE_W ||| PTE_U)) t
          (fun _ t' => t' = t ∧ t.free = [] ∨ Filled s0 d p0 (j + 1) t') (fun _ _ => False) := by
        refine mappages_one hpg hnot _ _ (fun h => Or.inl ⟨rfl, h.2⟩) fun h => Or.inr ?_
        exact htake.map hpg h hmem (by simpa [ht] using hout) (by simp [ht])
      refine spec_mono (spec_and hgrown hfilled) ?_ (fun _ _ h => h.1)
      rintro r1 s1 ⟨⟨hg1, hl1⟩ | ⟨htab, he, rfl⟩, hfill1⟩
      · grind [Filled, hg1.maps, Vm.need]
      · -- no page for the page table, and none for a further page
        cases k with
        | zero =>
          rw [allocFrom, spec_pure]
          exact ⟨htake.old, fun _ => ⟨j, by omega, hgt, htake, by omega⟩, fun h => absurd h hpos⟩
        | succ k =>
          refine alloc_gives_back hk hr hgt htake hj he fun hshort => ?_
          have h1 := need_of_shortAtLast hshort (show j + 1 < n by omega)
          have h2 := hshort.2
          rw [Vm.need, if_pos htab] at h1
          simp only [he, List.length_nil] at htlen
          omega

/-- `allocuvm` of pages that are not mapped does not panic. -/
theorem allocuvm_frames (hk : s0.Kmem) (hle : oldsz ≤ newsz) (hsmall : newsz < KERNBASE)
    (hpos : newsz ≠ 0) (hfresh : ∀ pg, oldsz ≤ pg * PGSIZE → pg * PGSIZE < newsz → ¬ s0.maps d pg) :
    spec (allocuvm d oldsz newsz) s0
      (fun r s' => Taken s0 d ((oldsz + PGSIZE - 1) / PGSIZE) (pages oldsz newsz) r s')
      (fun _ _ => False) := by
  have hr := range_of_fresh hle hsmall hfresh
  unfold allocuvm
  rw [if_neg (by omega), if_neg (by omega), PGROUNDUP_eq (by omega)]
  have h := allocFrom_frames hk hr hpos (pages oldsz newsz) s0 0 (Nat.zero_add _)
    (Grown.refl s0 d _) (Filled.refl s0 d _) rfl
  rw [Nat.add_zero] at h
  rw [pages, PGROUNDUP_eq (by omega)] at h ⊢
  exact h

end Alloc

end xv6.vm
