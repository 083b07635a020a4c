-- copyout of vm.c: bytes that the kernel copies to a user address of some page directory. uva2ka
-- uses the result of walkpgdir without a test, so an address without a page table makes the kernel
-- read through a null pointer.
import Xv6.VmMap

open Function bytes WP

namespace xv6.vm

/-! ## The code -/

/-- Map a user virtual address to a kernel address, given as the physical address of its page. -/
def uva2ka (d uva : Nat) : VmM (Option Nat) := do
  -- `*pte`, where `pte` is 0
  if ¬ (← walkpgdir d uva false) then throw "null pte"
  else
    match (← get).pte d uva with
    | none => pure none
    | some pte => if pte.perm &&& PTE_U = 0 then pure none else pure (some pte.pa)

/-- The body of the loop of `copyout`, for the address and the bytes that are left. -/
def copyoutTurn (d : Nat) : Nat × List UInt8 → VmM ((Nat × List UInt8) ⊕ Int)
  | (va, buf) =>
    if buf.length > 0 then do
      let va0 := PGROUNDDOWN va
      match ← uva2ka d va0 with
      | none => pure (.inr (-1))
      | some pa0 =>
        let n := PGSIZE - (va - va0)
        let n := if n > buf.length then buf.length else n
        -- memmove(pa0 + (va - va0), buf, n)
        modify fun s => { s with
          ram := Function.update s.ram pa0 (blit (s.ram pa0) (va - va0) n fun i => buf.getD i 0) }
        pure (.inl (uint (va0 + PGSIZE), buf.drop n))
    else pure (.inr 0)

/-- Copy bytes to user address `va` of page directory `d`. A turn copies at least one byte. -/
def copyout (d va : Nat) (buf : List UInt8) : VmM Int :=
  turns (copyoutTurn d) 0 (buf.length + 1) (va, buf)

/-! ## What it writes -/

/-- The page that user code of `d` has at an address. -/
def Vm.upage (s : Vm) (d x : Nat) : Option Nat :=
  (s.pte d x).bind fun e => if e.perm &&& PTE_U = 0 then none else some e.pa

/-- The memory after the first `c` bytes, one by one. -/
def Vm.written (s : Vm) (d va : Nat) (buf : List UInt8) : Nat → Nat → Mem
  | 0 => s.ram
  | c + 1 =>
    match s.upage d (uint (va + c)) with
    | none => s.written d va buf c
    | some p => Function.update (s.written d va buf c) p
        (Function.update (s.written d va buf c p) (uint (va + c) % PGSIZE) (buf.getD c 0))

section Written

variable {s : Vm} {d va : Nat} {buf : List UInt8}

theorem upage_of_page (s : Vm) (d x : Nat) : s.upage d x = s.upage d (x / PGSIZE * PGSIZE) := by
  rw [Vm.upage, Vm.upage, pte_of_page]

/-- Bytes that go to one page are one copy. -/
theorem written_page {c p o : Nat} (n : Nat)
    (h : ∀ i < n, s.upage d (uint (va + (c + i))) = some p ∧ uint (va + (c + i)) % PGSIZE = o + i) :
    s.written d va buf (c + n) =
      update (s.written d va buf c) p
      (blit (s.written d va buf c p) o n fun i => buf.getD (c + i) 0) := by
  induction n with
  | zero =>
    have hblit : blit (s.written d va buf c p) o 0 (fun i => buf.getD (c + i) 0) =
        s.written d va buf c p := by
      funext j
      rw [blit, if_neg (by omega)]
    rw [hblit, update_eq_self]
    rfl
  | succ n ih =>
    obtain ⟨hp, ho⟩ := h n (Nat.lt_succ_self n)
    rw [← Nat.add_assoc, Vm.written, hp, ih fun i hi => h i (by omega)]
    simp only
    rw [update_self, update_idem, ho]
    congr 1
    funext j
    by_cases hj : j = o + n
    · subst hj
      rw [update_self, blit, if_pos (by omega), Nat.add_sub_cancel_left]
    · rw [update_of_ne hj]
      unfold blit
      by_cases hin : o ≤ j ∧ j < o + n
      · rw [if_pos hin, if_pos (by omega)]
      · rw [if_neg hin, if_neg (by omega)]

/-- A byte that none of them goes to. -/
theorem written_other {c p o : Nat}
    (h : ∀ i < c, ¬ (s.upage d (uint (va + i)) = some p ∧ uint (va + i) % PGSIZE = o)) :
    s.written d va buf c p o = s.ram p o := by
  induction c with
  | zero => rfl
  | succ c ih =>
    have hrest := ih fun i hi => h i (by omega)
    rw [Vm.written]
    cases hq : s.upage d (uint (va + c)) with
    | none => exact hrest
    | some q =>
      simp only
      by_cases hpq : p = q
      · subst hpq
        have ho : o ≠ uint (va + c) % PGSIZE := fun ho => h c (Nat.lt_succ_self c) ⟨hq, ho.symm⟩
        rw [update_self, update_of_ne ho]
        exact hrest
      · rw [update_of_ne hpq]
        exact hrest

/-- Bytes that go to one place are the same. -/
def Agree (s : Vm) (d va : Nat) (buf : List UInt8) : Prop :=
  ∀ i < buf.length, ∀ j < buf.length, s.upage d (uint (va + i)) = s.upage d (uint (va + j)) →
    uint (va + i) % PGSIZE = uint (va + j) % PGSIZE → buf.getD i 0 = buf.getD j 0

/-- Then each place has its byte. -/
theorem written_holds (hagree : Agree s d va buf) {c : Nat} (hc : c ≤ buf.length) {i p : Nat}
    (hi : i < c) (hp : s.upage d (uint (va + i)) = some p) :
    s.written d va buf c p (uint (va + i) % PGSIZE) = buf.getD i 0 := by
  induction c with
  | zero => exact absurd hi (Nat.not_lt_zero i)
  | succ c ih =>
    rw [Vm.written]
    cases hq : s.upage d (uint (va + c)) with
    | none =>
      grind
    | some q =>
      simp only
      by_cases hsame : p = q ∧ uint (va + i) % PGSIZE = uint (va + c) % PGSIZE
      · obtain ⟨rfl, ho⟩ := hsame
        rw [update_self, ho, update_self]
        exact hagree c (by omega) i (by omega) (hq.trans hp.symm) ho.symm
      · have hne : i ≠ c := by grind
        have hrest := ih (by omega) (by omega)
        by_cases hpq : p = q
        · subst hpq
          rw [update_self, update_of_ne fun ho => hsame ⟨rfl, ho⟩]
          exact hrest
        · rw [update_of_ne hpq]
          exact hrest

end Written

/-! ## The loop -/

section Loop

variable {s : Vm} {d va : Nat} {buf : List UInt8}

/-- The bytes before the `c`-th are at their places, and the `c`-th is next. -/
structure Copying (s : Vm) (d va : Nat) (buf : List UInt8) (c : Nat) (x : Nat × List UInt8)
    (t : Vm) : Prop where
  le : c ≤ buf.length
  left : x.2 = buf.drop c
  next : c < buf.length → x.1 = uint (va + c)
  user : ∀ i < c, s.upage d (uint (va + i)) ≠ none
  state : t = { s with ram := s.written d va buf c }

/-- The page of the `c`-th byte has no page table. -/
def NullAt (s : Vm) (d va c : Nat) : Prop := s.dirs d (PDX (uint (va + c))) = none

theorem uva2ka_spec (t : Vm) (d uva : Nat) {Q : Option Nat → Vm → Prop} {E : String → Vm → Prop}
    (hnull : t.dirs d (PDX uva) = none → E "null pte" t)
    (hsome : t.dirs d (PDX uva) ≠ none → Q (t.upage d uva) t) : spec (uva2ka d uva) t Q E := by
  rw [uva2ka, spec_bind, walkpgdir_look, spec_ite]
  refine ⟨fun h => ?_, fun h => ?_⟩
  · rw [spec_throw]
    exact hnull (Option.not_isSome_iff_eq_none.mp h)
  · have ht : t.dirs d (PDX uva) ≠ none := fun hn => h (by rw [hn]; exact Bool.false_ne_true)
    have hq := hsome ht
    rw [spec_bind, spec_get]
    rw [Vm.upage] at hq
    cases he : t.pte d uva with
    | none =>
      rw [he] at hq
      exact (spec_pure _).mpr hq
    | some e =>
      rw [he, Option.bind_some] at hq
      simp only [spec_ite, spec_pure]
      split at hq
      · grind
      · grind

/-- Within a page, the addresses do not wrap. -/
theorem uint_add_lt {x i : Nat} (hi : i < PGSIZE - uint x % PGSIZE) :
    uint (x + i) = uint x + i ∧ uint (x + i) / PGSIZE = uint x / PGSIZE ∧
      uint (x + i) % PGSIZE = uint x % PGSIZE + i := by
  simp only [uint, PGSIZE] at *
  omega

theorem copyoutTurn_spec {c : Nat} {x : Nat × List UInt8} {t : Vm} (h : Copying s d va buf c x t) :
    spec (copyoutTurn d x) t (fun r s' =>
        (∀ a', r = .inl a' → (∃ c', Copying s d va buf c' a' s') ∧ a'.2.length < x.2.length) ∧
        ∀ b, r = .inr b → (b = 0 ∧ Copying s d va buf buf.length x s') ∨
          (b = -1 ∧ c < buf.length ∧ s.upage d (uint (va + c)) = none ∧ ¬ NullAt s d va c ∧
            Copying s d va buf c x s'))
      (fun _ _ => c < buf.length ∧ (∀ i < c, s.upage d (uint (va + i)) ≠ none) ∧
        NullAt s d va c) := by
  obtain ⟨va', rest⟩ := x
  have hrest : rest = buf.drop c := h.left
  have hlen : rest.length = buf.length - c := by rw [hrest, List.length_drop]
  have hle := h.le
  rw [copyoutTurn, spec_ite]
  refine ⟨fun hpos => ?_, fun hzero => ?_⟩
  · have hc : c < buf.length := by omega
    have hva : va' = uint (va + c) := h.next hc
    have hpage : PDX (PGROUNDDOWN va') = PDX (uint (va + c)) := by
      rw [hva]
      simp only [PDX, PGROUNDDOWN, PGSIZE, NPDENTRIES]
      omega
    have hup : t.upage d (PGROUNDDOWN va') = s.upage d (uint (va + c)) := by
      rw [hva, PGROUNDDOWN, ← upage_of_page, h.state]
      rfl
    have hdirs : t.dirs = s.dirs := by rw [h.state]
    rw [spec_bind]
    refine uva2ka_spec t d _ (fun hn => ?_) (fun htab => ?_)
    · rw [hdirs, hpage] at hn
      exact ⟨hc, h.user, hn⟩
    · rw [hup]
      cases hp : s.upage d (uint (va + c)) with
      | none =>
        refine (spec_pure _).mpr ⟨fun _ hx => (by cases hx), fun b hb => ?_⟩
        obtain rfl := Sum.inr.inj hb
        rw [hdirs, hpage] at htab
        exact Or.inr ⟨rfl, hc, rfl, htab, h⟩
      | some pa0 =>
        dsimp only
        rw [spec_bind, spec_modify, spec_pure]
        refine ⟨fun a' ha => ?_, fun _ hx => (by cases hx)⟩
        obtain rfl := Sum.inl.inj ha
        have hoff : va' - PGROUNDDOWN va' = uint (va + c) % PGSIZE := by
          rw [hva, PGROUNDDOWN]
          simp only [PGSIZE]
          omega
        rw [hoff]
        set n := if PGSIZE - uint (va + c) % PGSIZE > rest.length then rest.length
          else PGSIZE - uint (va + c) % PGSIZE with hn
        have hbound : 0 < n ∧ n ≤ rest.length ∧ n ≤ PGSIZE - uint (va + c) % PGSIZE ∧
            (n < rest.length → n = PGSIZE - uint (va + c) % PGSIZE) := by
          have : uint (va + c) % PGSIZE < PGSIZE := Nat.mod_lt _ (by decide)
          rw [hn]
          split <;> omega
        have hplace : ∀ i < n, s.upage d (uint (va + (c + i))) = some pa0 ∧
            uint (va + (c + i)) % PGSIZE = uint (va + c) % PGSIZE + i := by
          intro i hi
          obtain ⟨-, h2, h3⟩ := uint_add_lt (x := va + c) (i := i) (by omega)
          rw [Nat.add_assoc] at h2 h3
          refine ⟨?_, h3⟩
          rw [upage_of_page, h2, ← upage_of_page]
          exact hp
        have hgetD : (fun i => rest.getD i 0) = fun i => buf.getD (c + i) 0 := by
          funext i
          rw [hrest, List.getD_eq_getElem?_getD, List.getD_eq_getElem?_getD, List.getElem?_drop]
        refine ⟨⟨c + n, by omega, ?_, fun hlt => ?_, fun i hi => ?_, ?_⟩, ?_⟩
        · rw [hrest, List.drop_drop]
        · have hfull := hbound.2.2.2 (by omega)
          rw [hva, hfull, PGROUNDDOWN]
          simp only [uint, PGSIZE]
          omega
        · by_cases hlt : i < c
          · exact h.user i hlt
          · have := (hplace (i - c) (by omega)).1
            rw [show c + (i - c) = i by omega] at this
            rw [this]
            exact Option.some_ne_none _
        · rw [written_page n hplace, h.state, hgetD]
        · rw [List.length_drop]
          omega
  · refine (spec_pure _).mpr ⟨fun _ hx => (by cases hx), fun b hb => ?_⟩
    obtain rfl := Sum.inr.inj hb
    have hc : c = buf.length := by omega
    exact Or.inl ⟨rfl, hc ▸ h⟩

/-- How `copyout` ends: with all bytes copied, or at a byte that is not in a user page. -/
inductive Ends (s : Vm) (d va : Nat) (buf : List UInt8) (r : Int) (s' : Vm) : Prop where
  | all : r = 0 → (∀ i < buf.length, s.upage d (uint (va + i)) ≠ none) →
      s' = { s with ram := s.written d va buf buf.length } → Ends s d va buf r s'
  | refused (c : Nat) : r = -1 → c < buf.length → (∀ i < c, s.upage d (uint (va + i)) ≠ none) →
      s.upage d (uint (va + c)) = none → ¬ NullAt s d va c →
      s' = { s with ram := s.written d va buf c } → Ends s d va buf r s'

theorem copyout_ends (s : Vm) (d : Nat) {va : Nat} (hva : va < 2 ^ 32) (buf : List UInt8) :
    spec (copyout d va buf) s (fun r s' => Ends s d va buf r s' ∧
      Loops (copyoutTurn d) (va, buf) s r s')
      (fun _ _ => ∃ c < buf.length, (∀ i < c, s.upage d (uint (va + i)) ≠ none) ∧
        NullAt s d va c) := by
  refine spec_turns (I := fun x t => ∃ c, Copying s d va buf c x t) (fun x => x.2.length) ?_
    (buf.length + 1) (va, buf) s (Nat.lt_succ_self _) ⟨0, Nat.zero_le _, rfl, fun _ => ?_,
      fun i hi => ?_, rfl⟩
  · rintro x t ⟨c, h⟩
    refine spec_mono (copyoutTurn_spec h) (fun r s' hr => ⟨hr.1, fun b hb => ?_⟩)
      (fun _ _ he => ⟨c, he.1, he.2.1, he.2.2⟩)
    rcases hr.2 b hb with ⟨rfl, hall⟩ | ⟨rfl, hc, hno, htab, hsome⟩
    · exact .all rfl hall.user hall.state
    · exact .refused c rfl hc hsome.user hno htab hsome.state
  · exact (Nat.mod_eq_of_lt hva).symm
  · omega

end Loop

/-! ## The law -/

/-- What `copyout` is to do. -/
structure CopiedOut (s : Vm) (d va : Nat) (buf : List UInt8) (r : Int) (s' : Vm) : Prop where
  /-- it returns 0 if all of the range is in user pages, and -1 otherwise -/
  result : r = if ∀ i < buf.length, s.upage d (uint (va + i)) ≠ none then 0 else -1
  /-- with 0, the range holds the bytes -/
  holds : r = 0 → ∀ i < buf.length, ∀ p, s.upage d (uint (va + i)) = some p →
    s'.ram p (uint (va + i) % PGSIZE) = buf.getD i 0
  /-- nothing is written outside of the user pages of the range -/
  only : ∀ p o, s'.ram p o ≠ s.ram p o →
    ∃ i < buf.length, s.upage d (uint (va + i)) = some p ∧ uint (va + i) % PGSIZE = o
  same : s' = { s with ram := s'.ram }

/-- The first byte of the range that is not in a user page has a page table. -/
def Reaches (s : Vm) (d va : Nat) (buf : List UInt8) : Prop :=
  ∀ c < buf.length, (∀ i < c, s.upage d (uint (va + i)) ≠ none) → ¬ NullAt s d va c

section Law

variable {s s' : Vm} {d va : Nat} {buf : List UInt8}

theorem upage_none_of_null {c : Nat} (h : NullAt s d va c) : s.upage d (uint (va + c)) = none := by
  rw [Vm.upage, Vm.pte, h]
  rfl

theorem written_only {c p o : Nat} (hc : c ≤ buf.length)
    (h : s.written d va buf c p o ≠ s.ram p o) :
    ∃ i < buf.length, s.upage d (uint (va + i)) = some p ∧ uint (va + i) % PGSIZE = o := by
  by_contra hno
  exact h (written_other fun i hi hin => hno ⟨i, by omega, hin⟩)

/-- `copyout` does what it is to do exactly if it does not meet an address without a page table and
no byte of memory is to hold two different bytes. -/
theorem copyout_iff (hva : va < 2 ^ 32) :
    (∃ r s', copyout d va buf s = .ok r s' ∧ Loops (copyoutTurn d) (va, buf) s r s' ∧
      CopiedOut s d va buf r s') ↔
    Reaches s d va buf ∧
      ((∀ i < buf.length, s.upage d (uint (va + i)) ≠ none) → Agree s d va buf) := by
  have hends := copyout_ends s d hva buf
  constructor
  · rintro ⟨r, s', hrun, -, hout⟩
    obtain ⟨hend, -⟩ := of_spec hends hrun
    rcases hend with ⟨rfl, hall, rfl⟩ | ⟨c, rfl, hc, huser, hno, htab, rfl⟩
    · refine ⟨fun c hc _ hnull => hall c hc (upage_none_of_null hnull),
        fun _ i hi j hj hpage hoff => ?_⟩
      obtain ⟨p, hp⟩ := Option.ne_none_iff_exists'.mp (hall i hi)
      rw [← hout.holds rfl i hi p hp, ← hout.holds rfl j hj p (hpage ▸ hp), hoff]
    · refine ⟨fun c' hc' huser' hnull => ?_, fun hall => absurd hno (hall c hc)⟩
      -- both are the first byte that is not in a user page
      rcases Nat.lt_trichotomy c c' with hlt | rfl | hlt
      · exact huser' c hlt hno
      · exact htab hnull
      · exact huser c' hlt (upage_none_of_null hnull)
  · rintro ⟨hreach, hagree⟩
    have hdone := spec_mono hends (fun _ _ h => h) (F := fun _ _ => False)
      (fun _ _ ⟨c, hc, huser, hnull⟩ => hreach c hc huser hnull)
    obtain ⟨r, s', hrun, hend, hloops⟩ := exists_of_spec hdone
    refine ⟨r, s', hrun, hloops, ?_⟩
    rcases hend with ⟨rfl, hall, rfl⟩ | ⟨c, rfl, hc, huser, hno, htab, rfl⟩
    · refine ⟨(if_pos hall).symm, fun _ i hi p hp => ?_,
        fun p o hne => written_only (Nat.le_refl _) hne, rfl⟩
      exact written_holds (hagree hall) (Nat.le_refl _) hi hp
    · refine ⟨(if_neg fun hall => hall c hc hno).symm, nofun, fun p o hne => ?_, rfl⟩
      exact written_only (Nat.le_of_lt hc) hne

/-- One user page at address 0. -/
def oneUserPage : Vm :=
  { kend := 0x200000, free := [], ram := fun _ _ => 0
    dirs := fun _ i => if i = 0 then
      some { page := 0x310000, pte := fun j => if j = 0 then some ⟨0x400000, PTE_W ||| PTE_U⟩
        else none }
    else none }

theorem a_byte_is_copied_out : (∃ r s', copyout 0x300000 0xFFF [7] oneUserPage = .ok r s' ∧
      Loops (copyoutTurn 0x300000) (0xFFF, [7]) oneUserPage r s' ∧
      CopiedOut oneUserPage 0x300000 0xFFF [7] r s') ↔
    Reaches oneUserPage 0x300000 0xFFF [7] ∧
      ((∀ i < [(7 : UInt8)].length, oneUserPage.upage 0x300000 (uint (0xFFF + i)) ≠ none) →
        Agree oneUserPage 0x300000 0xFFF [7]) :=
  copyout_iff (by decide)

/-- Four megabytes up there is no page table, and the kernel reads through a null pointer. -/
theorem no_page_table_stops_copyout :
    copyout 0x300000 0x400000 [7] oneUserPage = .error "null pte" oneUserPage ∧
      ¬ ∃ r s', copyout 0x300000 0x400000 [7] oneUserPage = .ok r s' ∧
        Loops (copyoutTurn 0x300000) (0x400000, [7]) oneUserPage r s' ∧
        CopiedOut oneUserPage 0x300000 0x400000 [7] r s' := by
  refine ⟨rfl, ?_⟩
  rintro ⟨r, s', hrun, -⟩
  cases hrun

end Law

end xv6.vm
