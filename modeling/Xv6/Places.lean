-- Processes that each stand at a place of their code: a lock whose holder the places name,
-- and a sum over all processes, as one process at a time moves.
import Mathlib.Algebra.BigOperators.Ring.Finset
import Mathlib.Algebra.Order.BigOperators.Group.Finset
import Mathlib.Tactic.Abel

open Finset Function

namespace places

variable {X : Type*} {pc pc' : Nat → X} {p : Nat} {y : X}

/-- Some process is still at such a place. -/
theorem exists_move {P : X → Prop} (h : ∃ q, P (pc q)) (hy : P (pc p) → P y) :
    ∃ q, P (update pc p y q) := by
  obtain ⟨q, hq⟩ := h
  by_cases hqp : q = p
  · subst hqp
    exact ⟨q, by simpa using hy hq⟩
  · exact ⟨q, by simpa [hqp] using hq⟩

theorem forall_move {P : X → Prop} (h : ∀ q, P (pc q)) (hy : P y) (q : Nat) :
    P (update pc p y q) := by
  by_cases hqp : q = p
  · subst hqp
    simpa using hy
  · simpa [hqp] using h q

/-! ## Locks -/

/-- The lock is held by the one process whose place holds it, or by none. -/
def Owns (held : X → Prop) (lock : Option Nat) (pc : Nat → X) : Prop :=
  ∀ p, lock = some p ↔ held (pc p)

variable {held : X → Prop} {lock : Option Nat}

theorem Owns.move (h : Owns held lock pc) (hy : held y ↔ held (pc p)) :
    Owns held lock (update pc p y) := by
  intro q
  by_cases hq : q = p
  · subst hq
    rw [update_self, hy]
    exact h q
  · rw [update_of_ne hq]
    exact h q

theorem Owns.acquire (h : Owns held none pc) (hy : held y) :
    Owns held (some p) (update pc p y) := by
  intro q
  by_cases hq : q = p
  · subst hq
    simpa using hy
  · rw [update_of_ne hq, ← h q]
    simp [Ne.symm hq]

theorem Owns.release (h : Owns held lock pc) (hp : held (pc p)) (hy : ¬ held y) :
    Owns held none (update pc p y) := by
  intro q
  by_cases hq : q = p
  · subst hq
    simpa using hy
  · rw [update_of_ne hq, ← h q, (h p).mpr hp]
    simp [Ne.symm hq]

theorem Owns.congr (h : Owns held lock pc) (hpc : ∀ q, held (pc' q) ↔ held (pc q)) :
    Owns held lock pc' := fun q => (h q).trans (hpc q).symm

/-- No two processes hold the lock. -/
theorem Owns.unique (h : Owns held lock pc) {p q : Nat} (hp : held (pc p)) (hq : held (pc q)) :
    p = q := by
  have h1 := (h p).mpr hp
  have h2 := (h q).mpr hq
  rw [h1] at h2
  exact Option.some.inj h2

theorem Owns.none_iff (h : Owns held lock pc) : lock = none ↔ ∀ p, ¬ held (pc p) := by
  constructor
  · intro hn p hp
    rw [← h p, hn] at hp
    cases hp
  · intro hall
    rcases lock with _ | p
    · rfl
    · exact absurd ((h p).mp rfl) (hall p)

/-! ## Sums -/

/-- One term of a sum replaced. -/
theorem sum_update {α M : Type} [AddCommMonoid M] (G : α → M) (a : Nat → α) {i n : Nat} (hi : i < n)
    (b : α) : ∑ j ∈ Finset.range n, G (update a i b j) + G (a i) = ∑ j ∈ Finset.range n,
    G (a j) + G b := by
  have hmem : i ∈ Finset.range n := mem_range.mpr hi
  have hrest : ∑ j ∈ (Finset.range n).erase i, G (update a i b j) = ∑ j ∈ (Finset.range n).erase i,
      G (a j) :=
    sum_congr rfl fun j hj => by rw [update_of_ne (ne_of_mem_erase hj)]
  rw [← add_sum_erase _ _ hmem, ← add_sum_erase _ (fun j => G (a j)) hmem, hrest, update_self]
  abel

/-- Two sums that differ in one term. -/
theorem sum_of_one {M : Type} [AddCommMonoid M] {f g : Nat → M} {i n : Nat} (hi : i < n)
    (h : ∀ j < n, j ≠ i → g j = f j) :
    ∑ j ∈ Finset.range n, g j + f i = ∑ j ∈ Finset.range n, f j + g i := by
  refine Eq.trans (congrArg (· + f i) (sum_congr rfl fun j hj => ?_)) (sum_update id f hi (g i))
  by_cases hji : j = i
  · grind
  · grind

/-- The weights of all places add up to `n`. All but finitely many are zero. -/
def Total (w : X → Nat) (pc : Nat → X) (n : Nat) : Prop :=
  ∃ A : Finset Nat, (∀ p, p ∉ A → w (pc p) = 0) ∧ ∑ p ∈ A, w (pc p) = n

variable {w : X → Nat} {n m : Nat}

theorem Total.zero (h : ∀ p, w (pc p) = 0) : Total w pc 0 := ⟨∅, fun p _ => h p, rfl⟩

theorem Total.congr (h : Total w pc n) (hpc : ∀ q, w (pc' q) = w (pc q)) : Total w pc' n := by
  obtain ⟨A, hA, hsum⟩ := h
  refine ⟨A, fun q hq => (hpc q).trans (hA q hq), ?_⟩
  rw [← hsum]
  exact sum_congr rfl (fun q _ => hpc q)

/-- A process may be counted whatever its weight. -/
theorem Total.with_mem (h : Total w pc n) (p : Nat) :
    ∃ A : Finset Nat, p ∈ A ∧ (∀ p, p ∉ A → w (pc p) = 0) ∧ ∑ p ∈ A, w (pc p) = n := by
  obtain ⟨A, hA, hsum⟩ := h
  refine ⟨insert p A, mem_insert_self p A, ?_, ?_⟩
  · grind
  · by_cases hp : p ∈ A
    · grind
    · grind

theorem Total.move (h : Total w pc n) (hm : m + w (pc p) = n + w y) :
    Total w (update pc p y) m := by
  obtain ⟨A, hp, hA, hsum⟩ := h.with_mem p
  refine ⟨A, ?_, ?_⟩
  · grind
  · have h1 := add_sum_erase A (fun q => w (pc q)) hp
    have h2 := add_sum_erase A (fun q => w (update pc p y q)) hp
    have h3 : ∑ q ∈ A.erase p, w (update pc p y q) = ∑ q ∈ A.erase p, w (pc q) := by
      apply sum_congr rfl
      intro q hq
      rw [update_of_ne (ne_of_mem_erase hq)]
    simp only [update_self] at h2
    omega

theorem Total.le (h : Total w pc n) (p : Nat) : w (pc p) ≤ n := by
  obtain ⟨A, hp, _, hsum⟩ := h.with_mem p
  rw [← hsum]
  exact single_le_sum (f := fun q => w (pc q)) (fun _ _ => Nat.zero_le _) hp

/-- Two processes together have at most the total. -/
theorem Total.add_le (h : Total w pc n) {p q : Nat} (hpq : p ≠ q) : w (pc p) + w (pc q) ≤ n := by
  obtain ⟨A, hp, hA, hsum⟩ := h.with_mem p
  by_cases hq : q ∈ A
  · have hrest := add_sum_erase A (fun r => w (pc r)) hp
    have hle := single_le_sum (f := fun r => w (pc r)) (fun _ _ => Nat.zero_le _)
      (mem_erase.mpr ⟨hpq.symm, hq⟩)
    omega
  · rw [hA q hq]
    exact h.le p

theorem Total.exists_pos (h : Total w pc n) (hn : 0 < n) : ∃ p, 0 < w (pc p) := by
  obtain ⟨A, _, hsum⟩ := h
  by_contra hc
  push Not at hc
  have hz : ∑ p ∈ A, w (pc p) = 0 := sum_eq_zero (fun p _ => Nat.le_zero.mp (hc p))
  omega

theorem Total.unique (h : Total w pc n) (h' : Total w pc m) : n = m := by
  obtain ⟨A, hA, hsA⟩ := h
  obtain ⟨B, hB, hsB⟩ := h'
  have h1 : ∑ p ∈ A ∪ B, w (pc p) = ∑ p ∈ A, w (pc p) :=
    (sum_subset subset_union_left (fun p _ hp => hA p hp)).symm
  have h2 : ∑ p ∈ A ∪ B, w (pc p) = ∑ p ∈ B, w (pc p) :=
    (sum_subset subset_union_right (fun p _ hp => hB p hp)).symm
  omega

/-- A weight that is nowhere more than `c` times another adds up to at most `c` times as much. -/
theorem Total.bound {v : X → Nat} {c : Nat} (h : Total w pc n) (hv : Total v pc m)
    (hle : ∀ q, v (pc q) ≤ c * w (pc q)) : m ≤ c * n := by
  obtain ⟨A, hA, hsA⟩ := h
  obtain ⟨B, hB, hsB⟩ := hv
  have h1 : ∑ p ∈ A ∪ B, w (pc p) = ∑ p ∈ A, w (pc p) :=
    (sum_subset subset_union_left (fun p _ hp => hA p hp)).symm
  have h2 : ∑ p ∈ A ∪ B, v (pc p) = ∑ p ∈ B, v (pc p) :=
    (sum_subset subset_union_right (fun p _ hp => hB p hp)).symm
  calc m = ∑ p ∈ A ∪ B, v (pc p) := by rw [h2, hsB]
    _ ≤ ∑ p ∈ A ∪ B, c * w (pc p) := sum_le_sum (fun q _ => hle q)
    _ = c * n := by rw [← mul_sum, h1, hsA]

end places
