-- Weakest preconditions for programs over a state that can stop with an error: the
-- error keeps the state it stopped in, so one rule set serves panics and power cuts.
import Mathlib.Data.List.Basic

namespace WP

variable {ε σ α β : Type}

/-- From `s`, the program ends in a result that `Q` holds of, or stops in an error that
`E` holds of. -/
def spec (x : EStateM ε σ α) (s : σ) (Q : α → σ → Prop) (E : ε → σ → Prop) : Prop :=
  match x s with
  | .ok a s' => Q a s'
  | .error e s' => E e s'

variable {x : EStateM ε σ α} {f : α → EStateM ε σ β} {s s' : σ}
  {Q P : α → σ → Prop} {R : β → σ → Prop} {E F : ε → σ → Prop}

theorem spec_mono (h : spec x s Q E) (hq : ∀ a s', Q a s' → P a s')
    (he : ∀ e s', E e s' → F e s') : spec x s P F := by
  unfold spec at *
  cases hx : x s <;> rw [hx] at h
  · exact hq _ _ h
  · exact he _ _ h

/-- Two laws of one program hold together. -/
theorem spec_and (h : spec x s Q E) (h' : spec x s P F) :
    spec x s (fun a t => Q a t ∧ P a t) (fun e t => E e t ∧ F e t) := by
  unfold spec at *
  cases hx : x s <;> rw [hx] at h h' <;> exact ⟨h, h'⟩

theorem spec_of_forall (hq : ∀ a s', Q a s') (he : ∀ e s', E e s') : spec x s Q E := by
  unfold spec
  cases x s
  · exact hq _ _
  · exact he _ _

@[simp] theorem spec_pure (a : α) : spec (pure a : EStateM ε σ α) s Q E ↔ Q a s := Iff.rfl

@[simp] theorem spec_throw (e : ε) : spec (throw e : EStateM ε σ α) s Q E ↔ E e s := Iff.rfl

@[simp] theorem spec_get {Q : σ → σ → Prop} : spec (get : EStateM ε σ σ) s Q E ↔ Q s s := Iff.rfl

@[simp] theorem spec_modify (g : σ → σ) {Q : PUnit → σ → Prop} :
    spec (modify g : EStateM ε σ PUnit) s Q E ↔ Q ⟨⟩ (g s) := Iff.rfl

@[simp] theorem spec_set (t : σ) {Q : PUnit → σ → Prop} :
    spec (set t : EStateM ε σ PUnit) s Q E ↔ Q ⟨⟩ t := Iff.rfl

@[simp] theorem spec_bind : spec (x >>= f) s R E ↔ spec x s (fun a s' => spec (f a) s' R E) E := by
  unfold spec
  simp only [bind, EStateM.bind]
  cases x s <;> rfl

@[simp] theorem spec_ite {p : Prop} [Decidable p] {x y : EStateM ε σ α} :
    spec (if p then x else y) s Q E ↔ (p → spec x s Q E) ∧ (¬ p → spec y s Q E) := by
  split <;> simp_all

/-- A program that met its spec and ended well gave a result that the spec allows. -/
theorem of_spec {a : α} (h : spec x s Q E) (hx : x s = .ok a s') : Q a s' := by
  unfold spec at h
  rwa [hx] at h

theorem of_spec_error {e : ε} (h : spec x s Q E) (hx : x s = .error e s') : E e s' := by
  unfold spec at h
  rwa [hx] at h

theorem get_bind (g : σ → EStateM ε σ α) : (get >>= g) s = g s s := rfl

theorem bind_ok {a : α} {t : σ} (h : x s = .ok a t) : (x >>= f) s = f a t := by
  simp only [bind, EStateM.bind, h]

theorem bind_error {e : ε} (h : x s = .error e s') : (x >>= f) s = .error e s' := by
  simp only [bind, EStateM.bind, h]

theorem bind_eq_ok {b : β} (h : (x >>= f) s = .ok b s') :
    ∃ a t, x s = .ok a t ∧ f a t = .ok b s' := by
  cases hx : x s with
  | ok a t =>
    grind [bind_ok]
  | error e t =>
    rw [bind_error hx] at h
    cases h

theorem spec_self (x : EStateM ε σ α) (s : σ) :
    spec x s (fun a s' => x s = .ok a s') (fun e s' => x s = .error e s') := by
  unfold spec
  cases x s <;> rfl

/-- The state that a run ended in. -/
def final : EStateM.Result ε σ α → σ
  | .ok _ s => s
  | .error _ s => s

/-- A spec with one condition for all ends is about the final state. -/
theorem spec_final {I : σ → Prop} : spec x s (fun _ => I) (fun _ => I) ↔ I (final (x s)) := by
  unfold spec final
  cases x s <;> rfl

/-- How a run ended, if it did not end well. -/
def stopped : EStateM.Result ε σ α → Option ε
  | .ok .. => none
  | .error e _ => some e

theorem stopped_eq_none {r : EStateM.Result ε σ α} (h : stopped r = none) :
    ∃ a s', r = .ok a s' := by
  cases r with
  | ok a s' => exact ⟨a, s', rfl⟩
  | error e s' => cases h

/-- A program that cannot stop gives a result that the spec allows. -/
theorem exists_of_spec (h : spec x s Q fun _ _ => False) : ∃ a s', x s = .ok a s' ∧ Q a s' := by
  unfold spec at h
  cases hx : x s with
  | ok a s' =>
    grind
  | error e s' =>
    rw [hx] at h
    exact h.elim

-- The rules are the only way in: a unifier that unfolds `spec` runs the program.
attribute [irreducible] spec

/-! ## A part of the state -/

/-- Run a program of a part `τ` of the state. -/
def zoom {τ : Type} (part : σ → τ) (put : τ → σ → σ) (x : EStateM ε τ α) : EStateM ε σ α :=
  fun s =>
    match x (part s) with
    | .ok a t => .ok a (put t s)
    | .error e t => .error e (put t s)

theorem spec_zoom {τ : Type} {part : σ → τ} {put : τ → σ → σ} {y : EStateM ε τ α} :
    spec (zoom part put y) s Q E ↔
    spec y (part s) (fun a t => Q a (put t s)) (fun e t => E e (put t s)) := by
  unfold spec zoom
  cases y (part s) <;> rfl

/-! ## Counting loops -/

/-- `for (i = i0; i < i0 + k; i++) f(i)`. -/
def forFrom (f : Nat → EStateM ε σ PUnit) : Nat → Nat → EStateM ε σ PUnit
  | _, 0 => pure ⟨⟩
  | i, k + 1 => do
    f i
    forFrom f (i + 1) k

/-- `for (i = 0; i < n; i++) f(i)`. -/
def loop (n : Nat) (f : Nat → EStateM ε σ PUnit) : EStateM ε σ PUnit := forFrom f 0 n

theorem spec_forFrom {g : Nat → EStateM ε σ PUnit} {I : Nat → σ → Prop} {i k : Nat}
    (hstep : ∀ j s, i ≤ j → j < i + k → I j s → spec (g j) s (fun _ s' => I (j + 1) s') E)
    (h0 : I i s) : spec (forFrom g i k) s (fun _ s' => I (i + k) s') E := by
  induction k generalizing i s with
  | zero =>
    rw [forFrom, spec_pure]
    exact h0
  | succ k ih =>
    rw [forFrom, spec_bind]
    apply spec_mono (hstep i s (Nat.le_refl i) (by omega) h0)
    · grind
    · exact fun _ _ h => h

/-- The rule of the counting loop: the body takes the invariant from each turn to the next. -/
theorem spec_loop {g : Nat → EStateM ε σ PUnit} {I : Nat → σ → Prop} {n : Nat}
    (hstep : ∀ j s, j < n → I j s → spec (g j) s (fun _ s' => I (j + 1) s') E)
    (h0 : I 0 s) : spec (loop n g) s (fun _ s' => I n s') E := by
  have := spec_forFrom (i := 0) (k := n) (fun j s _ h2 h3 => hstep j s (by omega) h3) h0
  simpa [loop] using this

/-- The rule of a loop over a list. The invariant speaks of the part that is done. -/
theorem spec_forM {l : List β} {g : β → EStateM ε σ PUnit} {I : List β → σ → Prop}
    (hstep : ∀ pre b post s, l = pre ++ b :: post → I pre s →
      spec (g b) s (fun _ s' => I (pre ++ [b]) s') E)
    (h0 : I [] s) : spec (l.forM g) s (fun _ s' => I l s') E := by
  have key : ∀ post pre s, l = pre ++ post → I pre s →
      spec (post.forM g) s (fun _ s' => I l s') E := by
    intro post
    induction post with
    | nil =>
      intro pre s hl h
      rw [hl, List.append_nil, List.forM, spec_pure]
      exact h
    | cons b post ih =>
      intro pre s hl h
      rw [List.forM, spec_bind]
      apply spec_mono (hstep pre b post s hl h)
      · grind
      · exact fun _ _ h => h
  exact key l [] s rfl h0

/-! ## Loops without a bound -/

/-- `for(;;)` with the body `f`, which gives the next value of the loop variables or the result of
the loop: the loop ends with `b`, in state `s'`. -/
inductive Loops (f : α → EStateM ε σ (α ⊕ β)) : α → σ → β → σ → Prop where
  | stop {a : α} {s s' : σ} {b : β} : f a s = .ok (.inr b) s' → Loops f a s b s'
  | turn {a a' : α} {s t s' : σ} {b : β} :
      f a s = .ok (.inl a') t → Loops f a' t b s' → Loops f a s b s'

/-- A loop that is cut off after `n` turns ends by itself if there is a measure that each turn makes
smaller, and `n` turns are enough for it. -/
theorem loops_of_turns {f : α → EStateM ε σ (α ⊕ β)} {g : Nat → α → EStateM ε σ β} (m : α → Nat)
    (hg : ∀ n a, g (n + 1) a = f a >>= Sum.elim (g n) pure)
    (hdown : ∀ a s a' t, f a s = .ok (.inl a') t → m a' < m a)
    (hzero : ∀ a s, m a = 0 → ∃ b, f a s = .ok (.inr b) s ∧ g 0 a s = .ok b s) :
    ∀ (n : Nat) (a : α) (s : σ) (b : β) (s' : σ), m a ≤ n → g n a s = .ok b s' →
    Loops f a s b s' := by
  intro n
  induction n with
  | zero =>
    intro a s b s' hm h
    obtain ⟨c, hf, hg0⟩ := hzero a s (Nat.le_zero.mp hm)
    rw [hg0] at h
    cases h
    exact .stop hf
  | succ n ih =>
    intro a s b s' hm h
    rw [hg] at h
    obtain ⟨r, t, hf, hrest⟩ := bind_eq_ok h
    cases r with
    | inl a' =>
      have := hdown a s a' t hf
      exact .turn hf (ih a' t b s' (by omega) hrest)
    | inr c =>
      simp only [Sum.elim_inr, pure, EStateM.pure] at hrest
      cases hrest
      exact .stop hf

/-- The loop with the body `f`, cut off after `n` turns with the result `b0`. -/
def turns (f : α → EStateM ε σ (α ⊕ β)) (b0 : β) : Nat → α → EStateM ε σ β
  | 0, _ => pure b0
  | n + 1, a => f a >>= Sum.elim (turns f b0 n) pure

/-- The rule of such a loop: an invariant, and a measure that each turn makes smaller. The loop then
ends by itself. -/
theorem spec_turns {f : α → EStateM ε σ (α ⊕ β)} {b0 : β} {I : α → σ → Prop} {R : β → σ → Prop}
    (m : α → Nat) (hstep : ∀ a s, I a s → spec (f a) s
      (fun r s' => (∀ a', r = .inl a' → I a' s' ∧ m a' < m a) ∧ ∀ b, r = .inr b → R b s') E) :
    ∀ (n : Nat) (a : α) (s : σ), m a < n → I a s →
      spec (turns f b0 n a) s (fun b s' => R b s' ∧ Loops f a s b s') E := by
  intro n
  induction n with
  | zero => exact fun a s h => absurd h (Nat.not_lt_zero _)
  | succ n ih =>
    intro a s hm hi
    rw [turns, spec_bind]
    refine spec_mono (spec_and (hstep a s hi) (spec_self (f a) s)) (fun r s' hr => ?_)
      (fun _ _ he => he.1)
    obtain ⟨⟨hl, hr'⟩, hrun⟩ := hr
    cases r with
    | inl a' =>
      obtain ⟨hi', hlt⟩ := hl a' rfl
      exact spec_mono (ih a' s' (by omega) hi') (fun b u hu => ⟨hu.1, .turn hrun hu.2⟩)
        (fun _ _ he => he)
    | inr b => exact (spec_pure _).mpr ⟨hr' b rfl, .stop hrun⟩

end WP
