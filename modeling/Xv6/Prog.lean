-- Programs as trees of operations. A tree can be run to its end on one state, or an operation at a
-- time between those of other trees. What a program holds while it runs is a ghost state of its
-- own, which each operation asks something of and changes.
import Xv6.Wp

open WP

namespace prog

/-- A program that has ended in a value, or that does an operation and goes on with its result. -/
inductive Prog {Op : Type} (Res : Op → Type) (α : Type) : Type where
  | pure (a : α)
  | vis (o : Op) (k : Res o → Prog Res α)

variable {Op : Type} {Res : Op → Type} {α β γ ε σ : Type}

def Prog.bind : Prog Res α → (α → Prog Res β) → Prog Res β
  | .pure a, f => f a
  | .vis o k, f => .vis o fun r => (k r).bind f

instance : Monad (Prog Res) where
  pure := .pure
  bind := .bind

/-- The program of one operation. -/
def op (o : Op) : Prog Res (Res o) := .vis o .pure

/-! ## What programs hold -/

/-- What an operation asks of the ghost state, the results that it can give, and what it makes of
the ghost state then. -/
structure Rules (Res : Op → Type) (γ : Type) where
  pre : Op → γ → Prop
  gives : (o : Op) → γ → Res o → Prop
  eff : (o : Op) → γ → Res o → γ

/-- From ghost state `g`, every operation of the program finds what it asks for, and `Q`
holds at the end. -/
def wp (A : Rules Res γ) : Prog Res α → γ → (α → γ → Prop) → Prop
  | .pure a, g, Q => Q a g
  | .vis o k, g, Q => A.pre o g ∧ ∀ r, A.gives o g r → wp A (k r) (A.eff o g r) Q

variable {A : Rules Res γ} {x : Prog Res α} {f : α → Prog Res β} {g : γ} {Q Q' : α → γ → Prop}
  {R : β → γ → Prop}

theorem wp_mono (h : wp A x g Q) (hq : ∀ a g', Q a g' → Q' a g') : wp A x g Q' := by
  induction x generalizing g with
  | pure a => exact hq a g h
  | vis o k ih => exact ⟨h.1, fun r hr => ih r (h.2 r hr)⟩

theorem wp_bind : wp A (x >>= f) g R ↔ wp A x g fun a g' => wp A (f a) g' R := by
  induction x generalizing g with
  | pure a => exact Iff.rfl
  | vis o k ih =>
    constructor
    · exact fun h => ⟨h.1, fun r hr => ih r |>.mp (h.2 r hr)⟩
    · exact fun h => ⟨h.1, fun r hr => ih r |>.mpr (h.2 r hr)⟩

/-- The rule of sequence: a law of the first program, and one of the rest for
each of its results. -/
theorem wp_seq (hx : wp A x g Q) (hf : ∀ a g', Q a g' → wp A (f a) g' R) : wp A (x >>= f) g R :=
  wp_bind.mpr (wp_mono hx hf)

theorem wp_ite {p : Prop} [Decidable p] {y : Prog Res α} (hx : p → wp A x g Q)
    (hy : ¬ p → wp A y g Q) : wp A (if p then x else y) g Q := by
  split
  · rename_i hp
    exact hx hp
  · rename_i hp
    exact hy hp

/-! ## One program on a state -/

/-- Run a program, with each operation done as `h` says. -/
def handle (h : (o : Op) → EStateM ε σ (Res o)) : Prog Res α → EStateM ε σ α
  | .pure a => pure a
  | .vis o k => h o >>= fun r => handle h (k r)

/-- A state that the ghost state describes stays so, if each operation keeps to the rules. -/
theorem spec_handle {h : (o : Op) → EStateM ε σ (Res o)} {I : γ → σ → Prop} {E : ε → σ → Prop}
    (hop : ∀ o g s, I g s → A.pre o g →
      spec (h o) s (fun r s' => A.gives o g r ∧ I (A.eff o g r) s') E)
    {s : σ} (hx : wp A x g Q) (hi : I g s) :
    spec (handle h x) s (fun a s' => ∃ g', Q a g' ∧ I g' s') E := by
  induction x generalizing g s with
  | pure a =>
    rw [handle, spec_pure]
    exact ⟨g, hx, hi⟩
  | vis o k ih =>
    rw [handle, spec_bind]
    apply spec_mono (hop o g s hi hx.1)
    · exact fun r s' hr => ih r (hx.2 r hr.1) hr.2
    · exact fun _ _ he => he

end prog
