-- Lists of writes to a map: the state after all of them, place by place.
import Mathlib.Data.List.Nodup
import Mathlib.Logic.Function.Basic

namespace writes

variable {α β : Type*} [DecidableEq α]

/-- The map after the writes, in order. -/
def apply (ws : List (α × β)) (m : α → β) : α → β :=
  ws.foldl (fun m w => Function.update m w.1 w.2) m

@[simp] theorem apply_nil (m : α → β) : apply [] m = m := rfl

@[simp] theorem apply_cons (w : α × β) (ws : List (α × β)) (m : α → β) :
    apply (w :: ws) m = apply ws (Function.update m w.1 w.2) := rfl

/-- A place that no write names keeps its value. -/
theorem apply_of_notMem {ws : List (α × β)} {a : α} (h : a ∉ ws.map Prod.fst) (m : α → β) :
    apply ws m a = m a := by
  induction ws generalizing m with
  | nil => rfl
  | cons w ws ih =>
    simp only [List.map_cons, List.mem_cons, not_or] at h
    rw [apply_cons, ih h.2, Function.update_of_ne h.1]

/-- When no place is written twice, each write is there at the end. -/
theorem apply_of_mem {ws : List (α × β)} {a : α} {b : β} (hn : (ws.map Prod.fst).Nodup)
    (h : (a, b) ∈ ws) (m : α → β) : apply ws m a = b := by
  induction ws generalizing m with
  | nil => simp at h
  | cons w ws ih =>
    simp only [List.map_cons, List.nodup_cons] at hn
    rw [apply_cons]
    rcases List.mem_cons.mp h with h | h
    · grind [apply_of_notMem]
    · exact ih hn.2 h _

end writes
