-- A pool of resources and the places that hold them. The laws: a resource is in use exactly
-- when it is reserved or some place holds it, and no two places hold one.
import Mathlib.Logic.Function.Basic

open Function

namespace pool

variable {ι β : Type*} {reserved used : β → Prop} {held : ι → Option β}

structure Exact (reserved used : β → Prop) (held : ι → Option β) : Prop where
  used_iff : ∀ b, used b ↔ reserved b ∨ ∃ p, held p = some b
  apart : ∀ p b, held p = some b → ¬ reserved b
  once : ∀ p q b, held p = some b → held q = some b → p = q

theorem Exact.used_of_held (h : Exact reserved used held) {p : ι} {b : β} (hp : held p = some b) :
    used b :=
  (h.used_iff b).mpr (Or.inr ⟨p, hp⟩)

/-- No place holds a resource that is not in use. -/
theorem Exact.not_held (h : Exact reserved used held) {b : β} (hb : ¬ used b) (p : ι) :
    held p ≠ some b :=
  fun hp => hb (h.used_of_held hp)

theorem Exact.congr (h : Exact reserved used held) {used' : β → Prop} {held' : ι → Option β}
    (hu : ∀ b, used' b ↔ used b) (hh : ∀ p, held' p = held p) : Exact reserved used' held' := by
  obtain rfl : used' = used := funext fun b => propext (hu b)
  obtain rfl : held' = held := funext hh
  exact h

variable [DecidableEq ι]

/-- An empty place takes a resource that was not in use. -/
theorem Exact.take (h : Exact reserved used held) {p : ι} {b : β} (hb : ¬ used b)
    (hp : held p = none) :
    Exact reserved (fun c => c = b ∨ used c) (update held p (some b)) := by
  have hother : ∀ q c, q ≠ p → update held p (some b) q = some c → held q = some c := by grind
  have hself : ∀ c, update held p (some b) p = some c → c = b := by simp
  refine ⟨fun c => ?_, fun q c hq => ?_, fun q r c hq hr => ?_⟩
  · rw [h.used_iff c]
    constructor
    · rintro (rfl | hc | ⟨q, hq⟩)
      · exact Or.inr ⟨p, update_self ..⟩
      · exact Or.inl hc
      · grind
    · grind
  · grind [h.used_iff, h.apart]
  · by_cases hqp : q = p <;> by_cases hrp : r = p
    · rw [hqp, hrp]
    · grind [h.not_held]
    · grind [h.not_held]
    · grind [h.once]

/-- A place gives its resource back. -/
theorem Exact.drop (h : Exact reserved used held) {p : ι} {b : β} (hp : held p = some b) :
    Exact reserved (fun c => c ≠ b ∧ used c) (update held p none) := by
  have hother : ∀ q c, update held p none q = some c → q ≠ p ∧ held q = some c := by grind
  refine ⟨fun c => ?_, fun q c hq => h.apart q c (hother q c hq).2,
    fun q r c hq hr => h.once q r c (hother q c hq).2 (hother r c hr).2⟩
  rw [h.used_iff c]
  constructor
  · grind
  · grind [h.apart, h.once]

/-- A place hands its resource to an empty one. -/
theorem Exact.move (h : Exact reserved used held) {p q : ι} {b : β} (hp : held p = some b)
    (hq : held q = none) :
    Exact reserved used (update (update held p none) q (some b)) := by
  have hpq : p ≠ q := by grind
  have hfrom : ∀ r c, update (update held p none) q (some b) r = some c →
      held (if r = q then p else r) = some c := by
    intro r c hr
    split
    · grind
    · grind
  refine ⟨fun c => ?_, fun r c hr => h.apart _ c (hfrom r c hr), fun r r' c hr hr' => ?_⟩
  · rw [h.used_iff c]
    refine or_congr_right ⟨?_, fun ⟨r, hr⟩ => ⟨_, hfrom r c hr⟩⟩
    rintro ⟨r, hr⟩
    by_cases hrp : r = p
    · rw [hrp, hp] at hr
      exact ⟨q, by rw [update_self, hr]⟩
    · refine ⟨r, ?_⟩
      have hrq : r ≠ q := by grind
      rwa [update_of_ne hrq, update_of_ne hrp]
  · have hsame := h.once _ _ c (hfrom r c hr) (hfrom r' c hr')
    have hnot : ∀ r, update (update held p none) q (some b) r = some c → r ≠ q → r ≠ p := by grind
    split at hsame <;> split at hsame
    · rename_i h1 h2
      rw [h1, h2]
    · grind
    · grind
    · exact hsame

/-- The resource of a place is used up. -/
theorem Exact.retire (h : Exact reserved used held) {p : ι} {b : β} (hp : held p = some b) :
    Exact (fun c => c = b ∨ reserved c) used (update held p none) := by
  have hother : ∀ q c, update held p none q = some c → q ≠ p ∧ held q = some c := by grind
  refine ⟨fun c => ?_, fun q c hq => ?_,
    fun q r c hq hr => h.once q r c (hother q c hq).2 (hother r c hr).2⟩
  · rw [h.used_iff c]
    constructor
    · grind
    · grind
  · grind [h.once, h.apart]

end pool
