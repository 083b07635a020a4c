-- Programs on two levels: one does on the level of an abstract state what the other does on the
-- level of a concrete one, result for result and error for error.
import Xv6.Wp

namespace refine

open WP

variable {ε σ τ α β γ δ : Type}

/-- A result seen from the level above, with its value and its state translated. -/
def lift (g : α → β) (h : σ → τ) : EStateM.Result ε σ α → EStateM.Result ε τ β
  | .ok a s => .ok (g a) (h s)
  | .error e s => .error e (h s)

/-- Seen through `h`, and with values translated by `g`, the program `x` does what `y` does. -/
def Reads (h : σ → τ) (g : α → β) (x : EStateM ε σ α) (y : EStateM ε τ β) : Prop :=
  ∀ s, lift g h (x s) = y (h s)

variable {h : σ → τ} {g : α → β} {k : γ → δ}

theorem Reads.pure {a : α} {b : β} (hab : g a = b) :
    Reads h g (Pure.pure a : EStateM ε σ α) (Pure.pure b) := by
  intro s
  rw [← hab]
  rfl

theorem Reads.throw (e : ε) :
    Reads h g (MonadExcept.throw e : EStateM ε σ α) (MonadExcept.throw e) := fun _ => rfl

theorem Reads.bind {x : EStateM ε σ α} {y : EStateM ε τ β} {f : α → EStateM ε σ γ}
    {f' : β → EStateM ε τ δ} (hx : Reads h g x y) (hf : ∀ a, Reads h k (f a) (f' (g a))) :
    Reads h k (x >>= f) (y >>= f') := by
  intro s
  have h1 := hx s
  simp only [Bind.bind, EStateM.bind]
  cases hxs : x s with
  | ok a t =>
    rw [hxs] at h1
    rw [← h1]
    exact hf a t
  | error e t =>
    rw [hxs] at h1
    rw [← h1]
    rfl

theorem Reads.ite {x x' : EStateM ε σ α} {y y' : EStateM ε τ β} {p : Prop} [Decidable p]
    (hx : Reads h g x y) (hx' : Reads h g x' y') :
    Reads h g (if p then x else x') (if p then y else y') := by
  split
  · exact hx
  · exact hx'

end refine
