-- What the result of allocuvm says: a new size when all of the range is mapped, each page to a
-- zeroed page of its own, and 0 when nothing changed. It does not look at the result of mappages,
-- so a page table that is refused in the middle makes the result untrue.
import Xv6.VmPages

open Function bytes WP

namespace xv6.vm

/-! ## Among other processors -/

/-- What the other processors have left on the free list when turn `i` of `allocuvm` asks for the
page itself, and when it asks for a page table. -/
structure Seen where
  data : Nat → List Nat
  table : Nat → List Nat

/-- The free list is `l` by now. -/
def see (l : List Nat) : VmM Unit := modify fun s => { s with free := l }

/-- The loop of `allocuvm` while other processors take and free pages: `k` pages from `a` on, from
turn `i` on. -/
def allocAmong (w : Seen) (d oldsz newsz : Nat) : Nat → Nat → Nat → VmM Nat
  | 0, _, _ => pure newsz
  | k + 1, i, a => do
    see (w.data i)
    match ← kalloc with
    | none =>
      let _ ← deallocuvm d newsz oldsz
      pure 0
    | some mem =>
      zeroPage mem
      see (w.table i)
      let _ ← mappages d a PGSIZE mem (PTE_W ||| PTE_U)
      allocAmong w d oldsz newsz k (i + 1) (a + PGSIZE)

def allocuvmAmong (w : Seen) (d oldsz newsz : Nat) : VmM Nat :=
  if newsz ≥ KERNBASE then pure 0
  else if newsz < oldsz then pure oldsz
  else allocAmong w d oldsz newsz (pages oldsz newsz) 0 (PGROUNDUP oldsz)

/-- The pages that the allocator hands out are pages that `kfree` takes, and no page is
handed out twice. -/
structure Seen.Sound (w : Seen) (s0 : Vm) : Prop where
  frames : ∀ i p, (w.data i).head? = some p → s0.Frame p
  once : ∀ i j p, (w.data i).head? = some p → (w.data j).head? = some p → i = j

section Alone

variable {d oldsz newsz : Nat}

/-- Only the lists from turn `i` on count. -/
theorem allocAmong_congr {w w' : Seen} (k : Nat) : ∀ i a,
    (∀ j, i ≤ j → w.data j = w'.data j ∧ w.table j = w'.table j) →
    allocAmong w d oldsz newsz k i a = allocAmong w' d oldsz newsz k i a := by
  induction k with
  | zero => exact fun _ _ _ => rfl
  | succ k ih =>
    intro i a h
    unfold allocAmong
    rw [(h i (Nat.le_refl i)).1, (h i (Nat.le_refl i)).2, ih (i + 1) _ fun j hj => h j (by omega)]

/-- The state when the next page is taken and zeroed, and the free list is `l`. -/
def Vm.take (s : Vm) (mem : Nat) (l : List Nat) : Vm :=
  { s with free := l, ram := Function.update s.ram mem fun _ => 0 }

theorem kalloc_cons {s : Vm} {mem : Nat} {next : List Nat} (hf : s.free = mem :: next) :
    kalloc s = .ok (some mem) { s with free := next } := by
  rw [kalloc, bind_ok (x := get) (t := s) (a := s) rfl]
  simp only [hf]
  rfl

theorem kalloc_nil {s : Vm} (hf : s.free = []) : kalloc s = .ok none s := by
  rw [kalloc, bind_ok (x := get) (t := s) (a := s) rfl]
  simp only [hf]
  rfl

theorem allocFrom_cons {s : Vm} {mem : Nat} {next : List Nat} (hf : s.free = mem :: next)
    (k a : Nat) :
    allocFrom d oldsz newsz (k + 1) a s =
      (mappages d a PGSIZE mem (PTE_W ||| PTE_U) >>= fun _ => allocFrom d oldsz newsz k
        (a + PGSIZE)) (s.take mem next) := by
  rw [allocFrom, bind_ok (kalloc_cons hf)]
  exact bind_ok (t := s.take mem next) (a := ()) rfl

theorem allocAmong_cons {w : Seen} {i mem : Nat} {next : List Nat} (hf : w.data i = mem :: next)
    (k a : Nat) (s : Vm) : allocAmong w d oldsz newsz (k + 1) i a s =
      (mappages d a PGSIZE mem (PTE_W ||| PTE_U) >>= fun _ => allocAmong w d oldsz newsz k (i + 1)
        (a + PGSIZE)) (s.take mem (w.table i)) := by
  rw [allocAmong, bind_ok (x := see (w.data i)) (t := { s with free := w.data i }) (a := ()) rfl,
    bind_ok (kalloc_cons hf)]
  exact (bind_ok (x := zeroPage mem) (t := s.take mem next) (a := ()) rfl).trans
    (bind_ok (x := see (w.table i)) (t := s.take mem (w.table i)) (a := ()) rfl)

theorem allocAmong_nil {w : Seen} {i : Nat} (hf : w.data i = []) (k a : Nat) (s : Vm) :
    allocAmong w d oldsz newsz (k + 1) i a s =
      (deallocuvm d newsz oldsz >>= fun _ => pure 0) { s with free := [] } := by
  rw [allocAmong, bind_ok (x := see (w.data i)) (t := { s with free := w.data i }) (a := ()) rfl,
    bind_ok (kalloc_nil hf), hf]

theorem walkpgdir_free (s : Vm) (d a : Nat) :
    spec (walkpgdir d a true) s (fun _ u => u.free <:+ s.free) (fun _ _ => True) := by
  rw [walkpgdir_alloc]
  refine ⟨fun _ => List.suffix_rfl, fun _ => ⟨fun _ => List.suffix_rfl, fun page next hf => ?_⟩⟩
  rw [hf]
  exact List.suffix_cons page next

/-- `mappages` takes pages from the front of the free list. -/
theorem mapFrom_free {perm : Nat} (k : Nat) : ∀ (a pa : Nat) (s : Vm),
    spec (mapFrom d perm k a pa) s (fun _ u => u.free <:+ s.free) (fun _ _ => True) := by
  induction k with
  | zero =>
    intro a pa s
    rw [mapFrom, spec_bind]
    refine spec_mono (walkpgdir_free s d a) (fun found t ht => ?_) fun _ _ _ => trivial
    simp only [spec_ite, spec_pure, spec_bind, spec_get, spec_throw, spec_set, free_setPte]
    exact ⟨fun _ => ht, fun _ => ⟨fun _ => trivial, fun _ => ht⟩⟩
  | succ k ih =>
    intro a pa s
    rw [mapFrom, spec_bind]
    refine spec_mono (walkpgdir_free s d a) (fun found t ht => ?_) fun _ _ _ => trivial
    simp only [spec_ite, spec_pure, spec_bind, spec_get, spec_throw, spec_set]
    refine ⟨fun _ => ht, fun _ => ⟨fun _ => trivial, fun _ => ?_⟩⟩
    refine spec_mono (ih _ _ _) (fun _ u hu => ?_) fun _ _ _ => trivial
    rw [free_setPte] at hu
    exact hu.trans ht

/-- The lists come from the free list `l`, and each begins at a page of its own. -/
structure Seen.From (w : Seen) (l : List Nat) : Prop where
  suffix : ∀ j, w.data j <:+ l
  once : l.Nodup → ∀ j j' p, (w.data j).head? = some p → (w.data j').head? = some p → j = j'

theorem Seen.From.nil (l : List Nat) : Seen.From ⟨fun _ => [], fun _ => []⟩ l :=
  ⟨fun _ => List.nil_suffix, fun _ _ _ _ h => by cases h⟩

/-- One turn more in front. -/
theorem Seen.From.cons {w : Seen} {i mem : Nat} {next l : List Nat} (h : w.From l)
    (hl : l <:+ next) :
    Seen.From ⟨update w.data i (mem :: next), update w.table i next⟩ (mem :: next) := by
  have hhead : ∀ j p, (update w.data i (mem :: next) j).head? = some p →
      j = i ∧ p = mem ∨ j ≠ i ∧ p ∈ next ∧ (w.data j).head? = some p := by
    intro j p hp
    by_cases hj : j = i
    · rw [hj, update_self] at hp
      exact Or.inl ⟨hj, (Option.some.inj hp).symm⟩
    · rw [update_of_ne hj] at hp
      exact Or.inr ⟨hj, ((h.suffix j).trans hl).subset (List.mem_of_head? hp), hp⟩
  refine ⟨fun j => ?_, fun hnd j j' p hp hp' => ?_⟩
  · show update w.data i (mem :: next) j <:+ _
    by_cases hj : j = i
    · exact ⟨[], by rw [hj, update_self, List.nil_append]⟩
    · rw [update_of_ne hj]
      exact ((h.suffix j).trans hl).trans (List.suffix_cons ..)
  · have hnot := (List.nodup_cons.mp hnd).1
    rcases hhead j p hp with ⟨rfl, rfl⟩ | ⟨_, hin, hp⟩ <;>
      rcases hhead j' p hp' with ⟨rfl, hmem⟩ | ⟨_, hin', hp'⟩
    · rfl
    · exact absurd hin' hnot
    · exact absurd (hmem ▸ hin) hnot
    · exact h.once (hnd.of_cons.sublist hl.sublist) j j' p hp hp'

/-- A processor alone sees what it leaves itself. -/
theorem allocFrom_alone (k : Nat) : ∀ (i a : Nat) (s : Vm),
    ∃ w : Seen, w.From s.free ∧ allocFrom d oldsz newsz k a s =
    allocAmong w d oldsz newsz k i a s := by
  induction k with
  | zero => exact fun _ _ s => ⟨⟨fun _ => [], fun _ => []⟩, .nil s.free, rfl⟩
  | succ k ih =>
    intro i a s
    cases hf : s.free with
    | nil =>
      refine ⟨⟨fun _ => [], fun _ => []⟩, .nil [], ?_⟩
      have hs : ({ s with free := [] } : Vm) = s := by rw [← hf]
      rw [allocAmong_nil rfl, hs, allocFrom, bind_ok (kalloc_nil hf)]
    | cons mem next =>
      -- the lists of this turn, in front of those of the others
      obtain ⟨w, l, hl, hfrom, hw⟩ : ∃ (w : Seen) (l : List Nat), l <:+ next ∧ w.From l ∧
          ∀ r u, mappages d a PGSIZE mem (PTE_W ||| PTE_U) (s.take mem next) = .ok r u →
          allocFrom d oldsz newsz k (a + PGSIZE) u = allocAmong w d oldsz newsz k (i + 1)
          (a + PGSIZE) u := by
        cases hm : mappages d a PGSIZE mem (PTE_W ||| PTE_U) (s.take mem next) with
        | error e u =>
          exact ⟨⟨fun _ => [], fun _ => []⟩, [], List.nil_suffix, .nil _, fun _ _ h => by cases h⟩
        | ok r u =>
          obtain ⟨w, hfrom, hw⟩ := ih (i + 1) (a + PGSIZE) u
          have hfree := of_spec (mapFrom_free _ _ _ _) hm
          refine ⟨w, u.free, hfree, hfrom, fun _ _ h => ?_⟩
          cases h
          exact hw
      let w' : Seen := ⟨update w.data i (mem :: next), update w.table i next⟩
      have hsame : allocAmong w' d oldsz newsz k (i + 1) (a + PGSIZE) =
          allocAmong w d oldsz newsz k (i + 1) (a + PGSIZE) :=
        allocAmong_congr k (i + 1) (a + PGSIZE) fun j hj =>
          ⟨update_of_ne (by omega) .., update_of_ne (by omega) ..⟩
      refine ⟨w', hfrom.cons hl, ?_⟩
      rw [allocFrom_cons hf, allocAmong_cons (show w'.data i = mem :: next from update_self ..),
        hsame, show w'.table i = next from update_self ..]
      cases hm : mappages d a PGSIZE mem (PTE_W ||| PTE_U) (s.take mem next) with
      | error e u => rw [bind_error hm, bind_error hm]
      | ok r u => rw [bind_ok hm, bind_ok hm, hw r u hm]

theorem Seen.From.sound {w : Seen} {s : Vm} (h : w.From s.free) (hk : s.Kmem) : w.Sound s :=
  ⟨fun j p hp => hk.frames p ((h.suffix j).subset (List.mem_of_head? hp)), h.once hk.once⟩

/-- `allocuvm` is the case of a processor that is alone. -/
theorem allocuvm_alone {s : Vm} (hk : s.Kmem) (d oldsz newsz : Nat) :
    ∃ w : Seen, w.Sound s ∧ allocuvm d oldsz newsz s = allocuvmAmong w d oldsz newsz s := by
  have hnil := (Seen.From.nil s.free).sound hk
  unfold allocuvm allocuvmAmong
  split
  · exact ⟨_, hnil, rfl⟩
  · split
    · exact ⟨_, hnil, rfl⟩
    · obtain ⟨w, hfrom, hw⟩ := allocFrom_alone (pages oldsz newsz) 0 (PGROUNDUP oldsz) s
      exact ⟨w, hfrom.sound hk, hw⟩

end Alone

/-! ## The pages that get an entry -/

section Tried

variable {s0 s s' : Vm} {w : Seen} {d oldsz newsz p0 j n : Nat}

/-- Page `i` of the range gets an entry: its page table is there, or it is granted at this page or
at one before it. -/
def Seen.Gets (w : Seen) (s0 : Vm) (d p0 i : Nat) : Prop :=
  s0.dirs d ((p0 + i) / 1024) = none →
    ∃ i' ≤ i, (p0 + i') / 1024 = (p0 + i) / 1024 ∧ w.table i' ≠ []

/-- After `j` turns. -/
structure Tried (w : Seen) (s0 : Vm) (d p0 j : Nat) (s : Vm) : Prop where
  kend : s.kend = s0.kend
  old : ∀ d', ∀ pg < 2 ^ 20, ¬ (d' = d ∧ p0 ≤ pg ∧ pg < p0 + j) →
    s.pte d' (pg * PGSIZE) = s0.pte d' (pg * PGSIZE)
  new : ∀ i < j, w.Gets s0 d p0 i → ∃ mem, (w.data i).head? = some mem ∧
    s.pte d ((p0 + i) * PGSIZE) = some ⟨mem, PTE_W ||| PTE_U⟩ ∧ s.ram mem = fun _ => 0
  missed : ∀ i < j, ¬ w.Gets s0 d p0 i → s.pte d ((p0 + i) * PGSIZE) = none
  tables : ∀ i, s.dirs d i = none ↔ s0.dirs d i = none ∧
    ∀ i' < j, (p0 + i') / 1024 = i → w.table i' = []

theorem tried_none (w : Seen) (s0 : Vm) (d p0 : Nat) : Tried w s0 d p0 0 s0 :=
  ⟨rfl, fun _ _ _ _ => rfl, fun i hi => absurd hi (Nat.not_lt_zero i),
    fun i hi => absurd hi (Nat.not_lt_zero i),
    fun _ => ⟨fun h => ⟨h, fun i' hi => absurd hi (Nat.not_lt_zero i')⟩, fun h => h.1⟩⟩

/-- The free list is not what the turns are about. -/
theorem Tried.see (h : Tried w s0 d p0 j s) (l : List Nat) :
    Tried w s0 d p0 j { s with free := l } :=
  ⟨h.kend, h.old, h.new, h.missed, h.tables⟩

theorem Tried.take {mem : Nat} {l : List Nat} (h : Tried w s0 d p0 j s) :
    Tried w s0 d p0 j (s.take mem l) := by
  refine ⟨h.kend, h.old, fun i hi hg => ?_, h.missed, h.tables⟩
  obtain ⟨m, h1, h2, h3⟩ := h.new i hi hg
  refine ⟨m, h1, h2, ?_⟩
  by_cases hm : m = mem
  · subst hm
    exact update_self ..
  · exact (update_of_ne hm ..).trans h3

/-- The page gets an entry exactly if there is a page table for it, or a page for one. -/
theorem Tried.noTable_iff (h : Tried w s0 d p0 j s) (hpg : p0 + j < 2 ^ 20)
    (hfree : s.free = w.table j) :
    s.NoTable d ((p0 + j) * PGSIZE) ↔ ¬ w.Gets s0 d p0 j := by
  unfold Vm.NoTable Seen.Gets
  rw [PDX_low hpg, h.tables, hfree]
  constructor
  · grind
  · grind

/-- A turn that finds no page for the page table. -/
theorem Tried.miss (h : Tried w s0 d p0 j s) (hpg : p0 + j < 2 ^ 20) (hfresh : ¬ s0.maps d (p0 + j))
    (hno : s.NoTable d ((p0 + j) * PGSIZE)) (hfree : s.free = w.table j) :
    Tried w s0 d p0 (j + 1) s := by
  have hmiss := (h.noTable_iff hpg hfree).mp hno
  refine ⟨h.kend, fun d' pg hlt hout => h.old d' pg hlt (by omega), fun i hi hg => ?_,
    fun i hi hg => ?_, fun i => ?_⟩
  · rcases Nat.lt_succ_iff_lt_or_eq.mp hi with hlt | rfl
    · exact h.new i hlt hg
    · exact absurd hg hmiss
  · rcases Nat.lt_succ_iff_lt_or_eq.mp hi with hlt | rfl
    · exact h.missed i hlt hg
    · rw [h.old d _ hpg (by omega)]
      exact not_not.mp hfresh
  · rw [h.tables]
    refine and_congr_right fun _ => ⟨fun hall i' hi' hsame => ?_,
      fun hall i' hi' => hall i' (by omega)⟩
    rcases Nat.lt_succ_iff_lt_or_eq.mp hi' with hlt | rfl
    · exact hall i' hlt hsame
    · exact hfree.symm.trans hno.2

/-- A turn that maps its page. -/
theorem Tried.map {mem : Nat} (h : Tried w s0 d p0 j s) (hpg : p0 + j < 2 ^ 20)
    (htab : ¬ s.NoTable d ((p0 + j) * PGSIZE)) (hfree : s.free = w.table j)
    (hmem : (w.data j).head? = some mem) (hzero : s.ram mem = fun _ => 0) :
    Tried w s0 d p0 (j + 1) ((s.withTable d ((p0 + j) * PGSIZE)).setPte d ((p0 + j) * PGSIZE)
      (some ⟨mem, PTE_W ||| PTE_U⟩)) := by
  have hgets := not_not.mp ((h.noTable_iff hpg hfree).not.mp htab)
  have hpte : ∀ d', ∀ pg < 2 ^ 20, ((s.withTable d ((p0 + j) * PGSIZE)).setPte d ((p0 + j) * PGSIZE)
      (some ⟨mem, PTE_W ||| PTE_U⟩)).pte d' (pg * PGSIZE) =
      if d' = d ∧ pg = p0 + j then some ⟨mem, PTE_W ||| PTE_U⟩ else s.pte d' (pg * PGSIZE) := by
    intro d' pg hlt
    rw [pte_setPte_page (table_withTable htab) hpg _ d' hlt, pte_withTable]
  refine ⟨by simpa using h.kend, fun d' pg hlt hout => ?_, fun i hi hg => ?_, fun i hi hg => ?_,
    fun i => ?_⟩
  · grind [h.old]
  · rw [hpte d (p0 + i) (by omega), ram_setPte, ram_withTable]
    rcases Nat.lt_succ_iff_lt_or_eq.mp hi with hlt | rfl
    · rw [if_neg (by omega)]
      exact h.new i hlt hg
    · grind
  · rcases Nat.lt_succ_iff_lt_or_eq.mp hi with hlt | rfl
    · rw [hpte d (p0 + i) (by omega), if_neg (by omega)]
      exact h.missed i hlt hg
    · exact absurd hgets hg
  · rw [dirs_setPte]
    by_cases hi : i = (p0 + j) / 1024
    · have htable := table_withTable htab
      rw [PDX_low hpg, ← hi] at htable
      refine iff_of_false htable fun hall => ?_
      obtain ⟨i', hi', hsame, hne⟩ := hgets (hi ▸ hall.1)
      exact hne (hall.2 i' (by omega) (hsame.trans hi.symm))
    · rw [dirs_withTable fun hc => hi (hc.2.trans (PDX_low hpg)), h.tables]
      refine and_congr_right fun _ => ⟨fun hall i' hi' hsame => ?_,
        fun hall i' hi' => hall i' (by omega)⟩
      rcases Nat.lt_succ_iff_lt_or_eq.mp hi' with hlt | rfl
      · exact hall i' hlt hsame
      · exact absurd hsame.symm hi

/-- How the loop ends: after all of its turns, or at a turn `j` that gets no page, where it gives
back what it can find. -/
inductive Ended (w : Seen) (s0 : Vm) (d oldsz newsz p0 n r : Nat) (s' : Vm) : Prop where
  | all : r = newsz → (∀ i < n, w.data i ≠ []) → Tried w s0 d p0 n s' →
      Ended w s0 d oldsz newsz p0 n r s'
  | refused (j : Nat) (t : Vm) : r = 0 → j < n → (∀ i < j, w.data i ≠ []) → w.data j = [] →
      Tried w s0 d p0 j t → Freed t d (t.looked d newsz oldsz) s' →
      Ended w s0 d oldsz newsz p0 n r s'

/-- The pages of the range that are mapped are those that the allocator handed out. -/
theorem Tried.frame (h : Tried w s0 d p0 j s) (hr : Range s0 d oldsz newsz p0 n) (hw : w.Sound s0)
    {pg : Nat} {e : Pte} (h1 : p0 ≤ pg) (h2 : pg * PGSIZE < newsz)
    (he : s.pte d (pg * PGSIZE) = some e) :
    s.Frame e.pa := by
  have hlast := (hr.last pg h1).mp h2
  obtain ⟨i, rfl⟩ : ∃ i, pg = p0 + i := ⟨pg - p0, by omega⟩
  have hpg : p0 + i < 2 ^ 20 := Nat.lt_trans (hr.page_lt (show i < n by omega)) (by decide)
  by_cases hi : i < j
  · by_cases hg : w.Gets s0 d p0 i
    · obtain ⟨mem, hmem, hpte, -⟩ := h.new i hi hg
      rw [hpte] at he
      obtain rfl := Option.some.inj he
      have hf := hw.frames i mem hmem
      exact ⟨hf.aligned, h.kend ▸ hf.above, hf.below, hf.nonzero⟩
    · rw [h.missed i hi hg] at he
      cases he
  · rw [h.old d _ hpg (by omega)] at he
    exact absurd (by simp [Vm.maps, he]) (hr.fresh (p0 + i) h1 hlast)

theorem allocAmong_ended (hr : Range s0 d oldsz newsz p0 n) (hw : w.Sound s0) (k : Nat) :
    ∀ (s : Vm) (j : Nat), j + k = n → (∀ i < j, w.data i ≠ []) → Tried w s0 d p0 j s →
      spec (allocAmong w d oldsz newsz k j ((p0 + j) * PGSIZE)) s
        (fun r s' => Ended w s0 d oldsz newsz p0 n r s') (fun _ _ => False) := by
  induction k with
  | zero =>
    intro s j hjn hdata ht
    obtain rfl : j = n := hjn
    rw [allocAmong, spec_pure]
    exact .all rfl hdata ht
  | succ k ih =>
    intro s j hjn hdata ht
    have hj : j < n := by omega
    have hpg : p0 + j < 2 ^ 20 := Nat.lt_trans (hr.page_lt hj) (by decide)
    have hfresh := hr.fresh (p0 + j) (by omega) (by omega)
    rw [allocAmong]
    simp only [see, kalloc, zeroPage, spec_bind, spec_modify, spec_get]
    cases hf : w.data j with
    | nil =>
      simp only [spec_pure, spec_bind]
      refine spec_mono (deallocuvm_freed (Nat.le_of_lt hr.small) (hr.lt hj) _) (fun _ s' h => ?_) ?_
      · exact .refused j _ rfl hj hdata hf (ht.see []) h.2
      · rintro _ _ ⟨-, pg, x, h1, h2, h3, h4⟩
        rw [← hr.first] at h1
        exact h4 ((ht.see []).frame hr hw h1 h2 h3)
    | cons mem next =>
      have hnext : (p0 + j) * PGSIZE + PGSIZE = (p0 + (j + 1)) * PGSIZE := by grind
      simp only [spec_set, spec_pure, spec_bind, spec_modify, hnext]
      have htake : Tried w s0 d p0 j (s.take mem (w.table j)) := ht.take
      have hdata' : ∀ i < j + 1, w.data i ≠ [] := by grind
      have hno : ¬ (s.take mem (w.table j)).maps d (p0 + j) := by
        rw [Vm.maps, htake.old d _ hpg (by omega)]
        exact hfresh
      refine mappages_one hpg hno mem (PTE_W ||| PTE_U) (fun hshort => ?_) (fun hdone => ?_)
      · exact ih _ (j + 1) (by omega) hdata' (htake.miss hpg hfresh hshort rfl)
      · refine ih _ (j + 1) (by omega) hdata' (htake.map hpg hdone rfl (by rw [hf]; rfl) ?_)
        exact update_self ..

end Tried

/-! ## The result -/

/-- What `allocuvm` is to mean by its result `r`. -/
structure Truthful (s : Vm) (d oldsz newsz r : Nat) (s' : Vm) : Prop where
  /-- every page of the range is mapped for user code to write, and to a zeroed page -/
  mapped : r = newsz → r ≠ 0 → ∀ pg, PGROUNDUP oldsz ≤ pg * PGSIZE → pg * PGSIZE < newsz →
    ∃ pa, s'.pte d (pg * PGSIZE) = some ⟨pa, PTE_W ||| PTE_U⟩ ∧ s'.ram pa = fun _ => 0
  /-- no two of them to one page -/
  distinct : r = newsz → r ≠ 0 → ∀ pg q, PGROUNDUP oldsz ≤ pg * PGSIZE → pg * PGSIZE < newsz →
    PGROUNDUP oldsz ≤ q * PGSIZE → q * PGSIZE < newsz → ∀ e, s'.pte d (pg * PGSIZE) = some e →
    ∀ e', s'.pte d (q * PGSIZE) = some e' → e.pa = e'.pa → pg = q
  /-- or the user mappings are those before the call -/
  failed : r = 0 → ∀ pg, pg * PGSIZE < KERNBASE → s'.pte d (pg * PGSIZE) = s.pte d (pg * PGSIZE)

/-- All pages are granted, but not all the page tables for them. -/
def Seen.Missing (w : Seen) (s : Vm) (d p0 n : Nat) : Prop :=
  (∀ i < n, w.data i ≠ []) ∧ ∃ i < n, ¬ w.Gets s d p0 i

/-- Page `j` is refused. Page `i` has an entry by then, in the first page table that there is, at a
smaller index than that of the first page of the range. -/
def Seen.Stray (w : Seen) (s : Vm) (d p0 n : Nat) : Prop :=
  ∃ j < n, (∀ i < j, w.data i ≠ []) ∧ w.data j = [] ∧ ∃ i < j, w.Gets s d p0 i ∧
    p0 / 1024 < (p0 + i) / 1024 ∧ (p0 + i) % 1024 < p0 % 1024 ∧
    ∀ k, p0 / 1024 ≤ k → k < (p0 + i) / 1024 →
      s.dirs d k = none ∧ ∀ i', (p0 + i') / 1024 = k → w.table i' = []

section Truthful

variable {s s' : Vm} {w : Seen} {d oldsz newsz p0 n : Nat}

theorem truthful_of_all (hr : Range s d oldsz newsz p0 n) (hk : oldsz < KERNBASE) (hw : w.Sound s)
    (ht : Tried w s d p0 n s') (hpos : newsz ≠ 0) (hall : ∀ i < n, w.Gets s d p0 i) :
    Truthful s d oldsz newsz newsz s' := by
  have hin : ∀ pg, PGROUNDUP oldsz ≤ pg * PGSIZE → pg * PGSIZE < newsz → ∃ i < n, pg = p0 + i := by
    intro pg h1 h2
    rw [first_page_le hk, ← hr.first] at h1
    have := (hr.last pg h1).mp h2
    exact ⟨pg - p0, by omega, by omega⟩
  refine ⟨fun _ _ pg h1 h2 => ?_, fun _ _ pg q h1 h2 h3 h4 e he e' he' heq => ?_,
    fun h => absurd h hpos⟩
  · obtain ⟨i, hi, rfl⟩ := hin pg h1 h2
    obtain ⟨mem, -, hpte, hzero⟩ := ht.new i hi (hall i hi)
    exact ⟨mem, hpte, hzero⟩
  · obtain ⟨i, hi, rfl⟩ := hin pg h1 h2
    obtain ⟨i', hi', rfl⟩ := hin q h3 h4
    obtain ⟨mem, hmem, hpte, -⟩ := ht.new i hi (hall i hi)
    obtain ⟨mem', hmem', hpte', -⟩ := ht.new i' hi' (hall i' hi')
    rw [hpte] at he
    rw [hpte'] at he'
    obtain rfl := Option.some.inj he
    obtain rfl := Option.some.inj he'
    obtain rfl : mem = mem' := heq
    rw [hw.once i i' mem hmem hmem']

theorem not_truthful_of_missing (hr : Range s d oldsz newsz p0 n) (hk : oldsz < KERNBASE)
    (ht : Tried w s d p0 n s') {i : Nat} (hi : i < n) (hmiss : ¬ w.Gets s d p0 i) :
    ¬ Truthful s d oldsz newsz newsz s' := by
  intro h
  have hlt := (hr.last (p0 + i) (by omega)).mpr (by omega)
  have hle : PGROUNDUP oldsz ≤ (p0 + i) * PGSIZE := by
    rw [first_page_le hk, ← hr.first]
    omega
  obtain ⟨pa, hpa, -⟩ := h.mapped rfl (by omega) _ hle hlt
  rw [ht.missed i hi hmiss] at hpa
  cases hpa

/-- When page `j` is refused, a page that has an entry is skipped exactly if the pattern says so. -/
theorem Tried.skipped_iff {t : Vm} {i j : Nat} (ht : Tried w s d p0 j t) (hi : i < j) :
    t.Skipped d p0 (p0 + i) ↔ p0 / 1024 < (p0 + i) / 1024 ∧ (p0 + i) % 1024 < p0 % 1024 ∧
      ∀ k, p0 / 1024 ≤ k → k < (p0 + i) / 1024 →
        s.dirs d k = none ∧ ∀ i', (p0 + i') / 1024 = k → w.table i' = [] := by
  refine and_congr_right fun _ => and_congr_right fun _ => forall_congr' fun k =>
    forall_congr' fun _ => forall_congr' fun hk => ?_
  rw [ht.tables]
  refine and_congr_right fun _ => ⟨fun h i' hsame => h i' ?_ hsame, fun h i' _ => h i'⟩
  by_contra hge
  have : (p0 + i) / 1024 ≤ (p0 + i') / 1024 := Nat.div_le_div_right (by omega)
  omega

theorem truthful_zero_iff {t : Vm} {j : Nat} (hr : Range s d oldsz newsz p0 n)
    (hj : j < n) (ht : Tried w s d p0 j t) (hf : Freed t d (t.looked d newsz oldsz) s') :
    Truthful s d oldsz newsz 0 s' ↔ ∀ i < j, w.Gets s d p0 i → ¬ t.Skipped d p0 (p0 + i) := by
  have hsmall := Nat.le_of_lt hr.small
  have hlt : ∀ i < n, p0 + i < 2 ^ 20 := fun i hi => Nat.lt_trans (hr.page_lt hi) (by decide)
  have hnone : ∀ i < n, s.pte d ((p0 + i) * PGSIZE) = none := fun i hi =>
    not_not.mp (hr.fresh (p0 + i) (by omega) (by omega))
  constructor
  · intro h i hi hg hs
    obtain ⟨mem, -, hpte, -⟩ := ht.new i hi hg
    have hsame := h.failed rfl (p0 + i)
      (Nat.lt_trans ((hr.last _ (by omega)).mpr (by omega)) hr.small)
    rw [hf.pte d _ (hlt i (by omega)), if_neg, hpte, hnone i (by omega)] at hsame
    · cases hsame
    · grind [mem_looked_iff, hr.first]
  · intro hall
    refine ⟨fun _ h => absurd rfl h, fun _ h => absurd rfl h, fun _ pg hpg => ?_⟩
    have hpg20 : pg < 2 ^ 20 := Nat.lt_trans (page_lt_of_lt (Nat.le_refl _) hpg) (by decide)
    by_cases hin : p0 ≤ pg ∧ pg * PGSIZE < newsz
    · have hlast := (hr.last pg hin.1).mp hin.2
      obtain ⟨i, rfl⟩ : ∃ i, pg = p0 + i := ⟨pg - p0, by omega⟩
      rw [hnone i (by omega), hf.pte d _ hpg20]
      split
      · rfl
      · rename_i hout
        by_contra hm
        have hm : t.maps d (p0 + i) := hm
        have hij : i < j := by
          by_contra hge
          rw [Vm.maps, ht.old d _ hpg20 (by omega)] at hm
          exact hm (hnone i (by omega))
        have hg : w.Gets s d p0 i := by
          by_contra hg
          exact hm (ht.missed i hij hg)
        refine hout ⟨rfl, (mem_looked_iff hsmall).mpr ⟨⟨hin.2, table_of_maps hpg20 hm⟩, ?_⟩⟩
        rw [← hr.first]
        exact ⟨hin.1, hall i hij hg⟩
    · rw [hf.pte d pg hpg20, if_neg, ht.old d pg hpg20]
      · rintro ⟨-, h1, h2⟩
        exact hin ⟨h1, (hr.last pg h1).mpr (by omega)⟩
      · grind [mem_looked_iff, hr.first]

/-- Whatever pages are granted and refused to it, the result of `allocuvm` is true unless all pages
are granted and a page table is not, or a page is refused and one before it is out of reach of
`deallocuvm`. -/
theorem allocuvm_truthful_iff (hw : w.Sound s) (hle : oldsz ≤ newsz) (hk : newsz < KERNBASE)
    (hfresh : ∀ pg, PGROUNDUP oldsz ≤ pg * PGSIZE → pg * PGSIZE < KERNBASE → ¬ s.maps d pg) :
    ∃ r s', allocuvmAmong w d oldsz newsz s = .ok r s' ∧
      (Truthful s d oldsz newsz r s' ↔
        ¬ w.Missing s d (PGROUNDUP oldsz / PGSIZE) (pages oldsz newsz) ∧
        ¬ w.Stray s d (PGROUNDUP oldsz / PGSIZE) (pages oldsz newsz)) := by
  have hold : oldsz < KERNBASE := by omega
  have hr : Range s d oldsz newsz (PGROUNDUP oldsz / PGSIZE) (pages oldsz newsz) := by
    rw [first_page hold]
    refine range_of_fresh hle hk fun pg h1 h2 => hfresh pg ?_ (Nat.lt_trans h2 hk)
    rw [first_page_le hold]
    simp only [PGSIZE] at *
    omega
  have hrun : allocuvmAmong w d oldsz newsz =
      allocAmong w d oldsz newsz (pages oldsz newsz) 0
      ((PGROUNDUP oldsz / PGSIZE + 0) * PGSIZE) := by
    rw [allocuvmAmong, if_neg (by omega), if_neg (by omega), Nat.add_zero, first_page hold,
      PGROUNDUP_eq hold]
  obtain ⟨r, s', hres, hend⟩ :=
    exists_of_spec (allocAmong_ended hr hw (pages oldsz newsz) s 0 (Nat.zero_add _)
    (fun i hi => absurd hi (Nat.not_lt_zero i)) (tried_none w s d _))
  refine ⟨r, s', by rw [hrun]; exact hres, ?_⟩
  rcases hend with ⟨rfl, hdata, ht⟩ | ⟨j, t, rfl, hj, hdata, hrefused, ht, hf⟩
  · have hstray : ¬ w.Stray s d (PGROUNDUP oldsz / PGSIZE) (pages oldsz r) := by
      rintro ⟨j, hj, -, hnil, -⟩
      exact hdata j hj hnil
    rw [and_iff_left hstray]
    constructor
    · rintro h ⟨-, i, hi, hmiss⟩
      exact not_truthful_of_missing hr hold ht hi hmiss h
    · intro hno
      have hall : ∀ i < pages oldsz r, w.Gets s d (PGROUNDUP oldsz / PGSIZE) i := by
        intro i hi
        by_contra hmiss
        exact hno ⟨hdata, i, hi, hmiss⟩
      by_cases hpos : r = 0
      · subst hpos
        have hnone : pages oldsz 0 = 0 := by
          rw [pages, Nat.zero_sub]
          rfl
        rw [hnone] at ht
        refine ⟨fun _ h => absurd rfl h, fun _ h => absurd rfl h,
          fun _ pg hpg => ht.old d pg ?_ (by omega)⟩
        exact Nat.lt_trans (page_lt_of_lt (Nat.le_refl _) hpg) (by decide)
      · exact truthful_of_all hr hold hw ht hpos hall
  · have hmissing : ¬ w.Missing s d (PGROUNDUP oldsz / PGSIZE) (pages oldsz newsz) := by
      rintro ⟨hall, -⟩
      exact hall j hj hrefused
    rw [and_iff_right hmissing, truthful_zero_iff hr hj ht hf]
    constructor
    · rintro h ⟨j', hj', hdata', hnil, i, hi, hg, hskip⟩
      obtain rfl : j' = j := by
        grind
      exact h i hi hg ((ht.skipped_iff hi).mpr hskip)
    · intro h i hi hg hs
      exact h ⟨j, hj, hdata, hrefused, i, hi, hg, (ht.skipped_iff hi).mp hs⟩

/-- One page is granted, and then one for its page table. -/
def twoGranted : Seen := ⟨fun i => if i = 0 then [0x400000] else [], fun _ => [0x401000]⟩

theorem two_pages_are_enough_for_one : ∃ r s',
    allocuvmAmong twoGranted 0x300000 0 PGSIZE (freshVm []) = .ok r s' ∧
      (Truthful (freshVm []) 0x300000 0 PGSIZE r s' ↔
        ¬ twoGranted.Missing (freshVm []) 0x300000 (PGROUNDUP 0 / PGSIZE) (pages 0 PGSIZE) ∧
        ¬ twoGranted.Stray (freshVm []) 0x300000 (PGROUNDUP 0 / PGSIZE) (pages 0 PGSIZE)) := by
  have hhead : ∀ i p, (twoGranted.data i).head? = some p → i = 0 ∧ p = 0x400000 := by
    intro i p h
    by_cases hi : i = 0
    · subst hi
      exact ⟨rfl, (Option.some.inj h).symm⟩
    · rw [show twoGranted.data i = [] from if_neg hi] at h
      cases h
  refine allocuvm_truthful_iff ⟨fun i p h => ?_, fun i j p h h' => ?_⟩ (by decide) (by decide)
    (fun pg _ _ h => h rfl)
  · rw [(hhead i p h).2]
    exact ⟨by decide, by decide, by decide, by decide⟩
  · grind

/-- With one free page, `allocuvm` of one page returns the new size. The page is not mapped. -/
theorem one_page_is_not_enough :
    ∃ s', allocuvm 0x300000 0 PGSIZE (freshVm [0x400000]) = .ok PGSIZE s' ∧
      s'.pte 0x300000 0 = none ∧ ¬ Truthful (freshVm [0x400000]) 0x300000 0 PGSIZE PGSIZE s' := by
  refine ⟨_, rfl, rfl, fun h => ?_⟩
  obtain ⟨pa, hpa, -⟩ := h.mapped rfl (by decide) 0 (by decide) (by decide)
  cases hpa

end Truthful

end xv6.vm
