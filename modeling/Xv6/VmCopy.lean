-- copyuvm of vm.c: what fork gives a child is a copy of the parent's user memory in pages of its
-- own, so neither can see what the other writes from then on.
import Xv6.VmMap

open Option bytes WP

namespace xv6.vm

/-! ## freevm and copyuvm -/

/-- Free a page table and all the physical memory pages in the user part. -/
def freevm (d : Nat) : VmM Unit := do
  let _ ← deallocuvm d KERNBASE 0
  loop NPDENTRIES fun i => do
    match (← get).dirs d i with
    | some t => kfree t.page
    | none => pure ()
  kfree d

/-- The loop of `copyuvm`, with `k` pages from `i` on. -/
def copyFrom (pgdir d : Nat) : Nat → Nat → VmM (Option Nat)
  | 0, _ => pure (some d)
  | k + 1, i => do
    if ¬ (← walkpgdir pgdir i false) then throw "copyuvm: pte should exist"
    else
      match (← get).pte pgdir i with
      | none => throw "copyuvm: page not present"
      | some pte =>
        match ← kalloc with
        | none =>
          -- bad:
          freevm d
          pure none
        | some mem =>
          -- memmove(mem, p2v(pa), PGSIZE)
          modify fun s => { s with ram := Function.update s.ram mem (s.ram pte.pa) }
          if (← mappages d i PGSIZE mem (pte.perm ||| PTE_P)) < 0 then
            -- bad:
            freevm d
            pure none
          else copyFrom pgdir d k (i + PGSIZE)

/-- Given a parent's page directory, create a copy of it for a child. The loop cannot go round the
end of the address space: the kernel's part of the copy is mapped already. -/
def copyuvm (data pgdir sz : Nat) : VmM (Option Nat) := do
  match ← setupkvm data with
  | none => pure none
  | some d => copyFrom pgdir d ((sz + PGSIZE - 1) / PGSIZE) 0

/-! ## User code -/

/-- What user code reads at `va`. -/
def Vm.load (s : Vm) (d va : Nat) : Option UInt8 :=
  match s.pte d va with
  | some e => if e.perm &&& PTE_U ≠ 0 then some (s.ram e.pa (va % PGSIZE)) else none
  | none => none

/-- A store of user code at `va`. -/
def Vm.store (s : Vm) (d va : Nat) (b : UInt8) : Vm :=
  match s.pte d va with
  | some e =>
    if e.perm &&& PTE_U ≠ 0 ∧ e.perm &&& PTE_W ≠ 0 then
      { s with ram := Function.update s.ram e.pa (Function.update (s.ram e.pa) (va % PGSIZE) b) }
    else s
  | none => s

/-- No page that user code of `d` can use is one that user code of `d'` can use. -/
def Vm.Separate (s : Vm) (d d' : Nat) : Prop :=
  ∀ va va' e e', s.pte d va = some e → e.perm &&& PTE_U ≠ 0 → s.pte d' va' = some e' →
    e'.perm &&& PTE_U ≠ 0 → e.pa ≠ e'.pa

/-- Then a store of the one is not seen by the other. -/
theorem load_store_of_separate {s : Vm} {d d' : Nat} (h : s.Separate d d') (va va' : Nat)
    (b : UInt8) :
    (s.store d va b).load d' va' = s.load d' va' := by
  unfold Vm.store
  cases he : s.pte d va with
  | none => rfl
  | some e =>
    dsimp only
    split
    · rename_i hu
      unfold Vm.load
      change (match s.pte d' va' with | some e' => _ | none => _) = _
      cases he' : s.pte d' va' with
      | none => rfl
      | some e' =>
        dsimp only
        split
        · rename_i hu'
          rw [Function.update_of_ne (h va va' e e' he hu.1 he' hu').symm]
        · rfl
    · rfl

theorem Vm.Separate.symm {s : Vm} {d d' : Nat} (h : s.Separate d d') : s.Separate d' d :=
  fun va va' e e' he hu he' hu' => (h va' va e' e he' hu' he hu).symm

/-! ## The loop of copyuvm -/

/-- After `j` pages of the copy, where `s1` is what `setupkvm` left: each is in a page from the free
list of `s` that is its own. -/
structure CopiedTo (s s1 : Vm) (pgdir d j : Nat) (t : Vm) : Prop where
  free : t.free <:+ s1.free
  dirs : ∀ d', d' ≠ d → t.dirs d' = s.dirs d'
  old : ∀ p, p ∉ s.free → t.ram p = s.ram p
  new : ∀ i < j, ∃ e mem, s.pte pgdir (i * PGSIZE) = some e ∧
    t.pte d (i * PGSIZE) = some ⟨mem, e.perm ||| PTE_P⟩ ∧ mem ∈ s.free ∧ mem ∉ t.free ∧
    t.ram mem = s.ram e.pa
  own : ∀ i < j, ∀ i' < j, ∀ e e', t.pte d (i * PGSIZE) = some e → t.pte d (i' * PGSIZE) = some e' →
    e.pa = e'.pa → i = i'
  rest : ∀ pg < 2 ^ 20, j ≤ pg → t.pte d (pg * PGSIZE) = s1.pte d (pg * PGSIZE)

section Copy

variable {s s1 t : Vm} {data pgdir d sz j : Nat}

theorem CopiedTo.pa_notMem (h : CopiedTo s s1 pgdir d j t) {i : Nat} (hi : i < j) {e : Pte}
    (he : t.pte d (i * PGSIZE) = some e) : e.pa ∉ t.free := by
  obtain ⟨_, mem, -, hpte, -, hout, -⟩ := h.new i hi
  rw [hpte] at he
  obtain rfl := some.inj he
  exact hout

/-- A page is taken from the free list, and the parent's next page is copied to it. -/
theorem CopiedTo.take {mem : Nat} {next : List Nat} (h : CopiedTo s s1 pgdir d j t)
    (hf : t.free = mem :: next) (hmem : mem ∈ s.free) (m : Mem) :
    CopiedTo s s1 pgdir d j { t with free := next, ram := Function.update t.ram mem m } := by
  have hsuf : next <:+ t.free := hf ▸ List.suffix_cons mem next
  refine ⟨hsuf.trans h.free, h.dirs, fun p hp => ?_, fun i hi => ?_, h.own, h.rest⟩
  · have hne : p ≠ mem := fun heq => hp (heq ▸ hmem)
    exact (Function.update_of_ne hne ..).trans (h.old p hp)
  · obtain ⟨e, m', h1, h2, h3, h4, h5⟩ := h.new i hi
    have hne : m' ≠ mem := fun heq => h4 (by rw [hf, heq]; exact List.mem_cons_self ..)
    exact ⟨e, m', h1, h2, h3, fun hin => h4 (hsuf.subset hin),
      (Function.update_of_ne hne ..).trans h5⟩

/-- It gets the entry of the next page. -/
theorem CopiedTo.map {mem : Nat} {e : Pte} (h : CopiedTo s s1 pgdir d j t) (hj : j < 2 ^ 20)
    (ht : ¬ t.NoTable d (j * PGSIZE)) (he : s.pte pgdir (j * PGSIZE) = some e) (hmem : mem ∈ s.free)
    (hout : mem ∉ t.free) (hbytes : t.ram mem = s.ram e.pa)
    (hnew : ∀ i < j, ∀ e', t.pte d (i * PGSIZE) = some e' → e'.pa ≠ mem) :
    CopiedTo s s1 pgdir d (j + 1) (t.withPage d j mem (e.perm ||| PTE_P)) := by
  have hpte : ∀ {pg : Nat}, pg < 2 ^ 20 →
      (t.withPage d j mem (e.perm ||| PTE_P)).pte d (pg * PGSIZE) =
      if d = d ∧ pg = j then some ⟨mem, e.perm ||| PTE_P⟩ else t.pte d (pg * PGSIZE) :=
    fun hpg => pte_withPage ht hj d hpg
  have hsuf : (t.withPage d j mem (e.perm ||| PTE_P)).free <:+ t.free := by
    rw [Vm.withPage, free_setPte]
    exact free_withTable ..
  have hram : (t.withPage d j mem (e.perm ||| PTE_P)).ram = t.ram := by
    rw [Vm.withPage, ram_setPte, ram_withTable]
  refine ⟨hsuf.trans h.free, fun d' hd => (dirs_withPage hd).trans
    (h.dirs d' hd), by rw [hram]; exact h.old,
    fun i hi => ?_, fun i hi i' hi' x x' hx hx' heq => ?_, fun pg hpg hle => ?_⟩
  · rw [hpte (by omega), hram]
    rcases Nat.lt_succ_iff_lt_or_eq.mp hi with hlt | rfl
    · grind [h.new, hsuf.subset]
    · grind
  · rw [hpte (by omega)] at hx hx'
    by_cases h1 : i = j
    · grind
    · grind [some.inj, h.own]
  · grind [h.rest]

/-- A page that is mapped cannot be mapped again. -/
theorem mappages_remap {pg pa perm : Nat} (hpg : pg < 2 ^ 20) (h : t.maps d pg)
    {Q : Int → Vm → Prop} {E : String → Vm → Prop} (hE : E "remap" t) :
    spec (mappages d (pg * PGSIZE) PGSIZE pa perm) t Q E := by
  have htable : t.dirs d (PDX (pg * PGSIZE)) ≠ none := by
    rw [PDX_low hpg]
    exact table_of_maps hpg h
  rw [mappages_page hpg, mapFrom, spec_bind, walkpgdir_alloc]
  refine ⟨fun _ => ?_, fun hn => absurd hn htable⟩
  simp only [not_true_eq_false, if_false, spec_bind, spec_get, spec_ite, spec_throw]
  exact ⟨fun _ => hE, fun hno => absurd h hno⟩

/-- What the copy is made from: the parent's pages are not free, and the kernel's part of
the copy is there. -/
structure CopyFrom (s s1 : Vm) (pgdir d : Nat) : Prop where
  ne : pgdir ≠ d
  sub : ∀ p ∈ s1.free, p ∈ s.free
  once : s1.free.Nodup
  used : ∀ pg e, pg * PGSIZE < KERNBASE → s.pte pgdir (pg * PGSIZE) = some e → e.pa ∉ s.free
  empty : ∀ pg < KERNBASE / PGSIZE, ¬ s1.maps d pg
  kernel : s1.maps d (KERNBASE / PGSIZE)

/-- The page tables of the user part. -/
def userTables : Finset Nat := Finset.range 512

/-- The pages from `j` on that cannot all be copied: there are not enough free pages for them and
their page tables, or one is not there, or one is in the kernel's part. -/
def NoCopy (s t : Vm) (pgdir d j k : Nat) : Prop :=
  t.free.length < k + (t.lacks d userTables).card ∨ (∃ i < k, ¬ s.maps pgdir (j + i)) ∨
  KERNBASE / PGSIZE < j + k

theorem copyFrom_copied (h0 : CopyFrom s s1 pgdir d) (k : Nat) : ∀ (t : Vm) (j : Nat),
    j ≤ KERNBASE / PGSIZE → CopiedTo s s1 pgdir d j t →
    spec (copyFrom pgdir d k (j * PGSIZE)) t
      (fun r s' => (∀ d', r = some d' → d' = d ∧ j + k ≤ KERNBASE / PGSIZE ∧
        CopiedTo s s1 pgdir d (j + k) s') ∧
        (r = none → NoCopy s t pgdir d j k)) (fun _ _ => NoCopy s t pgdir d j k) := by
  induction k with
  | zero =>
    intro t j hj h
    rw [copyFrom, spec_pure]
    refine ⟨fun d' hd => ?_, fun hx => (by cases hx)⟩
    obtain rfl := some.inj hd
    exact ⟨rfl, hj, h⟩
  | succ k ih =>
    intro t j hj h
    have hj20 : j < 2 ^ 20 := Nat.lt_of_le_of_lt hj (by decide)
    have hsame : t.pte pgdir (j * PGSIZE) = s.pte pgdir (j * PGSIZE) := by
      rw [Vm.pte, Vm.pte, h.dirs pgdir h0.ne]
    have habsent : t.pte pgdir (j * PGSIZE) = none → NoCopy s t pgdir d j (k + 1) := fun hn =>
      Or.inr (Or.inl ⟨0, Nat.succ_pos k, fun hm => hm (hsame ▸ hn)⟩)
    have hfreevm : ∀ u : Vm, NoCopy s t pgdir d j (k + 1) →
        spec (do freevm d; pure none : VmM (Option Nat)) u
          (fun r s' => (∀ d', r = some d' → d' = d ∧ j + (k + 1) ≤ KERNBASE / PGSIZE ∧
            CopiedTo s s1 pgdir d (j + (k + 1)) s') ∧ (r = none → NoCopy s t pgdir d j (k + 1)))
          (fun _ _ => NoCopy s t pgdir d j (k + 1)) := by
      intro u hno
      rw [spec_bind]
      exact spec_of_forall (fun _ _ => (spec_pure _).mpr ⟨fun _ hx => (by cases hx), fun _ => hno⟩)
        fun _ _ => hno
    rw [copyFrom, spec_bind, walkpgdir_look, spec_ite]
    refine ⟨fun htable => (spec_throw _).mpr (habsent ?_), fun _ => ?_⟩
    · rw [Vm.pte, not_isSome_iff_eq_none.mp htable]
      rfl
    rw [spec_bind, spec_get]
    cases he : t.pte pgdir (j * PGSIZE) with
    | none => exact (spec_throw _).mpr (habsent he)
    | some e =>
      have hes : s.pte pgdir (j * PGSIZE) = some e := hsame ▸ he
      simp only [kalloc, spec_bind, spec_get]
      cases hf : t.free with
      | nil =>
        rw [spec_pure]
        refine hfreevm t (Or.inl ?_)
        rw [hf, List.length_nil]
        omega
      | cons mem next =>
        have hin : mem ∈ t.free := by
          rw [hf]
          exact List.mem_cons_self ..
        have hmem : mem ∈ s.free := h0.sub mem (h.free.subset hin)
        have hnodup : (mem :: next).Nodup := hf ▸ h0.once.sublist h.free.sublist
        have hlen : t.free.length = next.length + 1 := by rw [hf, List.length_cons]
        simp only [spec_bind, spec_set, spec_pure, spec_modify]
        have htake := h.take hf hmem (t.ram e.pa)
        set u : Vm := { t with free := next, ram := Function.update t.ram mem (t.ram e.pa) } with hu
        by_cases hm : u.maps d j
        · -- the first page of the kernel's part
          refine mappages_remap hj20 hm (Or.inr (Or.inr ?_))
          have hge : ¬ j < KERNBASE / PGSIZE := by
            intro hlt
            rw [Vm.maps, htake.rest j hj20 (Nat.le_refl j)] at hm
            exact h0.empty j hlt hm
          omega
        · have hjk : j < KERNBASE / PGSIZE := by
            refine Nat.lt_of_le_of_ne hj fun heq => hm ?_
            rw [Vm.maps, htake.rest j hj20 (Nat.le_refl j), heq]
            exact h0.kernel
          have hT : j / 1024 ∈ userTables := by
            rw [userTables, Finset.mem_range]
            simp only [KERNBASE, PGSIZE] at hjk
            omega
          have hlacks : t.lacks d userTables = u.lacks d userTables := rfl
          refine mappages_one hj20 hm mem (e.perm ||| PTE_P) (fun hshort => ?_) (fun hdone => ?_)
          · rw [if_pos (by decide)]
            refine hfreevm u (Or.inl ?_)
            have hpos : u.free.length < _ := lacks_pos hj20 hshort hT
            have hnil : next.length = 0 := by rw [show next = [] from hshort.2, List.length_nil]
            rw [hlacks]
            omega
          · rw [if_neg (by decide)]
            have hbytes : u.ram mem = s.ram e.pa := by
              rw [hu]
              refine (Function.update_self ..).trans (h.old e.pa (h0.used j e ?_ hes))
              simp only [KERNBASE, PGSIZE] at hjk ⊢
              omega
            have hmap := htake.map hj20 hdone hes hmem (List.nodup_cons.mp hnodup).1 hbytes
              (fun i hi e' he' heq => h.pa_notMem hi he' (heq ▸ hin))
            have hpaid : Paid u d userTables (u.withPage d j mem (e.perm ||| PTE_P)) :=
              paid_withPage hj20 hdone hT
            have hnext : j * PGSIZE + PGSIZE = (j + 1) * PGSIZE := by rw [Nat.succ_mul]
            have hno : NoCopy s (u.withPage d j mem (e.perm ||| PTE_P)) pgdir d (j + 1) k →
                NoCopy s t pgdir d j (k + 1) := by
              rintro (hc | ⟨i, hi, hc⟩ | hc)
              · refine Or.inl ?_
                unfold Paid at hpaid
                have : u.free.length = next.length := rfl
                rw [hlacks]
                omega
              · refine Or.inr (Or.inl ⟨i + 1, by omega, ?_⟩)
                rwa [show j + (i + 1) = j + 1 + i by omega]
              · refine Or.inr (Or.inr ?_)
                omega
            rw [hnext]
            refine spec_mono (ih _ (j + 1) hjk hmap)
              (fun r s' hr => ⟨fun d' hd => ?_, fun hn => hno (hr.2 hn)⟩) (fun _ _ hc => hno hc)
            rw [show j + (k + 1) = j + 1 + k by omega]
            exact hr.1 d' hd

end Copy

/-! ## What fork gets -/

/-- The flags of an entry. -/
def Pte.flags (e : Pte) : Nat := e.perm ||| PTE_P

/-- What `copyuvm` of the first `sz` bytes of `pgdir` is to give: directory `d`. -/
structure Forked (s : Vm) (data pgdir sz d : Nat) (s' : Vm) : Prop where
  same : ∀ va < PGROUNDUP sz, ∃ e e', s.pte pgdir va = some e ∧ s'.pte d va = some e' ∧
    e'.flags = e.flags ∧ s'.ram e'.pa (va % PGSIZE) = s.ram e.pa (va % PGSIZE)
  fresh : ∀ va < PGROUNDUP sz, ∀ e, s'.pte d va = some e → e.pa ∈ s.free
  distinct : ∀ va < PGROUNDUP sz, ∀ va' < PGROUNDUP sz, ∀ e e', s'.pte d va = some e →
    s'.pte d va' = some e' → e.pa = e'.pa → va / PGSIZE = va' / PGSIZE
  disjoint : ∀ va < PGROUNDUP sz, ∀ va' < KERNBASE, ∀ e e', s'.pte d va = some e →
    s'.pte pgdir va' = some e' → e.pa ≠ e'.pa
  nothing : ∀ va, PGROUNDUP sz ≤ va → va < KERNBASE → s'.pte d va = none
  kernel : ∃ s1, setupkvm data s = .ok (some d) s1 ∧
    ∀ va, KERNBASE ≤ va → va < 2 ^ 32 → s'.pte d va = s1.pte d va
  /-- the parent's table and memory are as they were -/
  table : s'.dirs pgdir = s.dirs pgdir
  memory : ∀ va < KERNBASE, ∀ e, s.pte pgdir va = some e → s'.ram e.pa = s.ram e.pa
  /-- whatever the memory holds later, a store of one is not seen by the other -/
  apart : ∀ (ram : Nat → Mem) (va va' : Nat) (b : UInt8),
    (({ s' with ram := ram } : Vm).store d va b).load pgdir va' =
      ({ s' with ram := ram } : Vm).load pgdir va' ∧
      (({ s' with ram := ram } : Vm).store pgdir va b).load d va' =
      ({ s' with ram := ram } : Vm).load d va'

section Forked

variable {s s1 s' : Vm} {data pgdir d sz : Nat}

/-- An address has the entry of its page number, which is below 2^20. -/
theorem pte_page_mod (s : Vm) (d va : Nat) :
    s.pte d va = s.pte d (va / PGSIZE % 2 ^ 20 * PGSIZE) := by
  have h1 : PDX va = PDX (va / PGSIZE % 2 ^ 20 * PGSIZE) := by
    simp only [PDX, PGSIZE, NPDENTRIES]
    omega
  have h2 : PTX va = PTX (va / PGSIZE % 2 ^ 20 * PGSIZE) := by
    simp only [PTX, PGSIZE, NPTENTRIES]
    omega
  rw [Vm.pte, Vm.pte, h1, h2]

/-- The kernel's map has nothing for user code. -/
theorem kpte_user {pg : Nat} {e : Pte} (h : kpte data pg = some e) :
    e.perm &&& PTE_U = 0 ∧ KERNBASE ≤ pg * PGSIZE := by
  unfold kpte at h
  split at h
  · grind
  · grind

/-- The pages of the child that user code can use are from the free list. -/
theorem CopiedTo.user_fresh {n : Nat} (h : CopiedTo s s1 pgdir d n s') (hk : Kvm s data d s1)
    {va : Nat} {e : Pte} (he : s'.pte d va = some e) (hu : e.perm &&& PTE_U ≠ 0) :
    e.pa ∈ s.free := by
  rw [pte_page_mod] at he
  have hlt : va / PGSIZE % 2 ^ 20 < 2 ^ 20 := Nat.mod_lt _ (by decide)
  by_cases hn : va / PGSIZE % 2 ^ 20 < n
  · obtain ⟨_, mem, -, hpte, hmem, -⟩ := h.new _ hn
    rw [hpte] at he
    obtain rfl := some.inj he
    exact hmem
  · rw [h.rest _ hlt (by omega), hk.pte _ hlt] at he
    exact absurd (kpte_user he).1 hu

theorem forked_of_copied {n : Nat} (hrun : setupkvm data s = .ok (some d) s1) (hk : Kvm s data d s1)
    (h : CopiedTo s s1 pgdir d n s') (hn : n ≤ KERNBASE / PGSIZE) (hsz : PGROUNDUP sz = n * PGSIZE)
    (hne : pgdir ≠ d)
    (hused : ∀ va e, s.pte pgdir va = some e → va < KERNBASE ∨ e.perm &&& PTE_U ≠ 0 →
      e.pa ∉ s.free) :
    Forked s data pgdir sz d s' := by
  have htable : s'.dirs pgdir = s.dirs pgdir := h.dirs pgdir hne
  have hparent : ∀ va, s'.pte pgdir va = s.pte pgdir va := fun va => by rw [Vm.pte, Vm.pte, htable]
  have hpage : ∀ {va : Nat}, va < PGROUNDUP sz → va / PGSIZE < n := fun hva =>
    Nat.div_lt_of_lt_mul (by rw [Nat.mul_comm, ← hsz]; exact hva)
  have hfresh : ∀ va < PGROUNDUP sz, ∀ e, s'.pte d va = some e → e.pa ∈ s.free := by
    intro va hva e he
    obtain ⟨_, mem, -, hpte, hmem, -⟩ := h.new (va / PGSIZE) (hpage hva)
    rw [pte_of_page, hpte] at he
    obtain rfl := some.inj he
    exact hmem
  have hseparate : ∀ ram : Nat → Mem, ({ s' with ram := ram } : Vm).Separate d pgdir := by
    intro ram va va' e e' he hu he' hu' heq
    have h1 : e.pa ∈ s.free := h.user_fresh hk he hu
    exact hused va' e' ((hparent va').symm.trans he') (Or.inr hu') (heq ▸ h1)
  refine ⟨fun va hva => ?_, hfresh, fun va hva va' hva' e e' he he' heq => ?_,
    fun va hva va' hva' e e' he he' heq => ?_, fun va h1 h2 => ?_,
    ⟨s1, hrun, fun va h1 h2 => ?_⟩, htable,
    fun va hva e he => h.old e.pa (hused va e he (Or.inl hva)), fun ram va va' b => ?_⟩
  · obtain ⟨e, mem, he, hpte, -, -, hbytes⟩ := h.new (va / PGSIZE) (hpage hva)
    refine ⟨e, ⟨mem, e.perm ||| PTE_P⟩, ?_, ?_, ?_, ?_⟩
    · rw [pte_of_page, he]
    · rw [pte_of_page, hpte]
    · rw [Pte.flags, Pte.flags, Nat.or_assoc, Nat.or_self]
    · rw [hbytes]
  · rw [pte_of_page] at he he'
    exact h.own _ (hpage hva) _ (hpage hva') e e' he he' heq
  · grind
  · have hpg : va / PGSIZE < KERNBASE / PGSIZE := by grind
    have hge : n ≤ va / PGSIZE := (Nat.le_div_iff_mul_le (by decide)).mpr (hsz ▸ h1)
    have h20 : va / PGSIZE < 2 ^ 20 := Nat.lt_trans hpg (by decide)
    rw [pte_of_page, h.rest _ h20 hge, hk.pte _ h20]
    by_contra hsome
    obtain ⟨e, he⟩ := ne_none_iff_exists'.mp hsome
    have := (kpte_user he).2
    simp only [KERNBASE, PGSIZE] at *
    omega
  · grind [Nat.div_le_div_right, pte_of_page, h.rest]
  · exact ⟨load_store_of_separate (hseparate ram) va va' b,
      load_store_of_separate (hseparate ram).symm va va' b⟩

/-- After `setupkvm`, the copy can start. -/
theorem Kvm.copyFrom (hk : Kvm s data d s1) (hkmem : s.Kmem) (hpgdir : pgdir ∉ s.free)
    (hused : ∀ va e, s.pte pgdir va = some e → va < KERNBASE ∨ e.perm &&& PTE_U ≠ 0 →
      e.pa ∉ s.free) :
    CopyFrom s s1 pgdir d ∧ CopiedTo s s1 pgdir d 0 s1 := by
  have hd : d ∈ s.free := List.mem_of_mem_head? hk.taken
  refine ⟨⟨fun heq => hpgdir (heq ▸ hd), fun p hp => hk.only.free.subset hp,
    hkmem.once.sublist hk.only.free.sublist, fun pg e hpg he => hused _ e he (Or.inl hpg),
    fun pg hpg hm => ?_, ?_⟩, ⟨List.suffix_rfl, hk.only.dirs, fun p _ => by rw [hk.only.ram],
      fun i hi => absurd hi (Nat.not_lt_zero i),
      fun i hi => absurd hi (Nat.not_lt_zero i), fun _ _ _ => rfl⟩⟩
  · rw [Vm.maps, hk.pte pg (Nat.lt_trans hpg (by decide))] at hm
    obtain ⟨e, he⟩ := ne_none_iff_exists'.mp hm
    have := (kpte_user he).2
    simp only [KERNBASE, PGSIZE] at *
    omega
  · rw [Vm.maps, hk.pte _ (by decide)]
    exact some_ne_none _

/-- `copyuvm` gives a child the parent's user memory in pages of its own. -/
theorem copyuvm_forked (h1 : KERNLINK < data) (h2 : data < KERNBASE + PHYSTOP)
    (h3 : data % PGSIZE = 0) (hkmem : s.Kmem) (hpgdir : pgdir ∉ s.free)
    (hused : ∀ va e, s.pte pgdir va = some e → va < KERNBASE ∨ e.perm &&& PTE_U ≠ 0 → e.pa ∉ s.free)
    (hrun : copyuvm data pgdir sz s = .ok (some d) s') : Forked s data pgdir sz d s' := by
  rw [copyuvm] at hrun
  obtain ⟨r, s1, hset, hrest⟩ := bind_eq_ok hrun
  cases r with
  | none => cases hrest
  | some d1 =>
    have hk := (of_spec (setupkvm_kvm h1 h2 h3) hset).1 d1 rfl
    obtain ⟨hfrom, hstart⟩ := hk.copyFrom hkmem hpgdir hused
    have hcopy := copyFrom_copied hfrom ((sz + PGSIZE - 1) / PGSIZE) s1 0 (Nat.zero_le _) hstart
    rw [Nat.zero_add, Nat.zero_mul] at hcopy
    obtain ⟨rfl, hn, hto⟩ := (of_spec hcopy hrest).1 d rfl
    refine forked_of_copied hset hk hto hn ?_ hfrom.ne hused
    simp only [PGROUNDUP, uint, KERNBASE, PGSIZE] at *
    omega

/-- It returns a copy if the pages are there and there is memory for it. -/
theorem copyuvm_returns (h1 : KERNLINK < data) (h2 : data < KERNBASE + PHYSTOP)
    (h3 : data % PGSIZE = 0) (hkmem : s.Kmem) (hpgdir : pgdir ∉ s.free)
    (hused : ∀ va e, s.pte pgdir va = some e → va < KERNBASE ∨ e.perm &&& PTE_U ≠ 0 → e.pa ∉ s.free)
    (hsz : sz ≤ KERNBASE) (hall : ∀ pg, pg * PGSIZE < sz → s.maps pgdir pg)
    (hfree : 577 + (sz + PGSIZE - 1) / PGSIZE ≤ s.free.length) :
    ∃ d s', copyuvm data pgdir sz s = .ok (some d) s' := by
  obtain ⟨r, s1, hset, hsome, hnone⟩ := exists_of_spec (setupkvm_kvm (s := s) h1 h2 h3)
  cases r with
  | none =>
    grind
  | some d =>
    have hk := hsome d rfl
    obtain ⟨hfrom, hstart⟩ := hk.copyFrom hkmem hpgdir hused
    have hcopy := copyFrom_copied hfrom ((sz + PGSIZE - 1) / PGSIZE) s1 0 (Nat.zero_le _) hstart
    have hno : ¬ NoCopy s s1 pgdir d 0 ((sz + PGSIZE - 1) / PGSIZE) := by
      rintro (hc | ⟨i, hi, hc⟩ | hc)
      · have hcard : (s1.lacks d userTables).card ≤ 512 := by
          refine (Finset.card_filter_le _ _).trans ?_
          rw [userTables, Finset.card_range]
        have := hk.left
        omega
      · grind
      · grind
    have hdone := spec_mono hcopy (P := fun r _ => ∃ d', r = some d') (F := fun _ _ => False)
      (fun r s' hr => by
        cases r with
        | none => exact absurd (hr.2 rfl) hno
        | some d' => exact ⟨d', rfl⟩) (fun _ _ hc => hno hc)
    obtain ⟨r, s', hrun, d', rfl⟩ := exists_of_spec hdone
    refine ⟨d', s', ?_⟩
    rw [copyuvm, bind_ok hset]
    rw [Nat.zero_mul] at hrun
    exact hrun

/-- A process with one page at address 0, and 600 free pages. -/
def onePage : Vm :=
  { kend := 0x200000
    free := (List.range 600).map fun i => 0x500000 + i * PGSIZE
    ram := fun _ _ => 7
    dirs := fun _ i => if i = 0 then
      some { page := 0x310000, pte := fun j => if j = 0 then some ⟨0x400000, PTE_W ||| PTE_U⟩
        else none }
    else none }

theorem onePage_pte {va : Nat} {e : Pte} (he : onePage.pte 0x300000 va = some e) :
    e.pa = 0x400000 := by
  rw [Vm.pte] at he
  simp only [onePage] at he
  split at he
  · grind
  · cases he

theorem mem_onePage_free {p : Nat} (h : p ∈ onePage.free) :
    ∃ i < 600, 0x500000 + i * PGSIZE = p := by
  simpa only [onePage, List.mem_map, List.mem_range] using h

theorem onePage_kmem : onePage.Kmem := by
  refine ⟨fun p hp => ?_, ?_⟩
  · obtain ⟨i, hi, rfl⟩ := mem_onePage_free hp
    refine ⟨?_, ?_, ?_, ?_⟩
    all_goals
      simp only [onePage, PGSIZE, PHYSTOP]
      omega
  · simp only [onePage]
    refine List.Nodup.map (fun i j hij => ?_) List.nodup_range
    simp only [PGSIZE] at hij
    omega

theorem one_page_is_copied : ∃ d s', copyuvm 0x80108000 0x300000 PGSIZE onePage = .ok (some d) s' ∧
    Forked onePage 0x80108000 0x300000 PGSIZE d s' := by
  have hout : ∀ p, p < 0x500000 → p ∉ onePage.free := by
    grind [mem_onePage_free]
  have hused : ∀ va e, onePage.pte 0x300000 va = some e → va < KERNBASE ∨ e.perm &&& PTE_U ≠ 0 →
      e.pa ∉ onePage.free := fun va e he _ => hout _ (by rw [onePage_pte he]; decide)
  obtain ⟨d, s', hrun⟩ : ∃ d s', copyuvm 0x80108000 0x300000 PGSIZE onePage = .ok (some d) s' :=
    copyuvm_returns (by decide) (by decide) (by decide) onePage_kmem
      (hout 0x300000 (by decide)) hused (by decide) (fun pg hpg => by
        obtain rfl : pg = 0 := by simp only [PGSIZE] at hpg; omega
        exact Option.some_ne_none _)
          (by simp only [onePage, List.length_map, List.length_range]; decide)
  exact ⟨d, s', hrun, copyuvm_forked (by decide) (by decide) (by decide) onePage_kmem
    (hout 0x300000 (by decide)) hused hrun⟩

end Forked

end xv6.vm
