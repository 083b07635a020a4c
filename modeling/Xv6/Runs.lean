-- Runs of a machine: a step function that may refuse an action, the run of a
-- list of actions, and the two rules that carry an invariant along a run.
import Mathlib.Data.List.Basic

open Option

namespace runs

variable {σ α : Type*}

/-- The state after the actions, or `none` when the machine refuses one of them. -/
def run (step : σ → α → Option σ) : σ → List α → Option σ
  | s, [] => some s
  | s, a :: as => (step s a).bind (fun s' => run step s' as)

/-- Every action of the run is taken in a state where `P` holds of the state and the action. -/
def Along (step : σ → α → Option σ) (P : σ → α → Prop) : σ → List α → Prop
  | _, [] => True
  | s, a :: as => P s a ∧ ∀ s', step s a = some s' → Along step P s' as

variable {step : σ → α → Option σ}

variable {s s' : σ} {as : List α}

theorem along_cons {P : σ → α → Prop} {t : σ} {a : α} (h : step s a = some t) :
    Along step P s (a :: as) ↔ P s a ∧ Along step P t as := by
  rw [Along]
  refine and_congr_right (fun _ => ⟨fun ht => ht t h, fun ht u hu => ?_⟩)
  rw [h] at hu
  exact some.inj hu ▸ ht

instance decidableAlong {P : σ → α → Prop} [∀ s a, Decidable (P s a)] :
    ∀ s as, Decidable (Along step P s as)
  | _, [] => isTrue trivial
  | s, a :: as =>
    match h : step s a with
    | none => decidable_of_iff (P s a) (by simp [Along, h])
    | some t =>
      have : Decidable (Along step P t as) := decidableAlong t as
      decidable_of_iff (P s a ∧ Along step P t as) (along_cons h).symm

/-- Whether the machine comes to an end, and to one where `P` holds. -/
instance decidableEnds {o : Option σ} {P : σ → Prop} [DecidablePred P] :
    Decidable (∃ s, o = some s ∧ P s) :=
  match o with
  | none => isFalse (by simp)
  | some s => decidable_of_iff (P s) (by simp)

theorem Along.mono {P Q : σ → α → Prop} (hpq : ∀ s a, P s a → Q s a) (h : Along step P s as) :
    Along step Q s as := by
  induction as generalizing s with
  | nil => trivial
  | cons a as ih => exact ⟨hpq s a h.1, fun t ht => ih (h.2 t ht)⟩

theorem along_of_forall {P : α → Prop} (h : ∀ a ∈ as, P a) : Along step (fun _ a => P a) s as := by
  induction as generalizing s with
  | nil => trivial
  | cons a as ih =>
    rw [List.forall_mem_cons] at h
    exact ⟨h.1, fun _ _ => ih h.2⟩

theorem run_cons {a : α} :
    run step s (a :: as) = some s' ↔ ∃ t, step s a = some t ∧ run step t as = some s' := by
  simp [run, bind_eq_some_iff]

theorem run_append {bs : List α} :
    run step s (as ++ bs) = some s' ↔ ∃ t, run step s as = some t ∧ run step t bs = some s' := by
  induction as generalizing s with
  | nil => simp [run]
  | cons a as ih =>
    rw [List.cons_append, run_cons]
    constructor
    · rintro ⟨t, ht, h⟩
      obtain ⟨u, hu, h'⟩ := ih.mp h
      exact ⟨u, run_cons.mpr ⟨t, ht, hu⟩, h'⟩
    · rintro ⟨u, hu, h'⟩
      obtain ⟨t, ht, h⟩ := run_cons.mp hu
      exact ⟨t, ht, ih.mpr ⟨u, h, h'⟩⟩

theorem run_snoc {a : α} :
    run step s (as ++ [a]) = some s' ↔ ∃ t, run step s as = some t ∧ step t a = some s' := by
  simp [run_append, run]

/-- An invariant that every step keeps under `P` holds at the end of every run along `P`. -/
theorem inv_of_along {I : σ → Prop} {P : σ → α → Prop}
    (hstep : ∀ s a s', I s → P s a → step s a = some s' → I s') (hi : I s) (hp : Along step P s as)
    (hr : run step s as = some s') : I s' := by
  induction as generalizing s with
  | nil =>
    grind [run, some.injEq]
  | cons a as ih =>
    obtain ⟨t, ht, hr⟩ := run_cons.mp hr
    exact ih (hstep s a t hi hp.1 ht) (hp.2 t ht) hr

/-- An invariant that every step keeps holds at the end of every run. -/
theorem inv_of_run {I : σ → Prop} (hstep : ∀ s a s', I s → step s a = some s' → I s') (hi : I s)
    (hr : run step s as = some s') : I s' := by
  induction as generalizing s with
  | nil =>
    grind [run, some.injEq]
  | cons a as ih =>
    obtain ⟨t, ht, hr⟩ := run_cons.mp hr
    exact ih (hstep s a t hi ht) hr

/-- A run is no longer than a number that every step makes smaller. -/
theorem length_le_of_run {I : σ → Prop} {toGo : σ → Nat}
    (hstep : ∀ s a s', I s → step s a = some s' → I s' ∧ toGo s' < toGo s) (hi : I s)
    (hr : run step s as = some s') : as.length + toGo s' ≤ toGo s := by
  induction as generalizing s with
  | nil =>
    simp only [run, some.injEq] at hr
    subst hr
    exact Nat.le_of_eq (Nat.zero_add _)
  | cons a as ih =>
    obtain ⟨t, ht, hr⟩ := run_cons.mp hr
    obtain ⟨hit, hlt⟩ := hstep s a t hi ht
    have := ih hit hr
    rw [List.length_cons]
    omega

end runs
