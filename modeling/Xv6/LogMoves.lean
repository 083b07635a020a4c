-- What one step of the processes in log.c can do, as a relation with a case for each kind of
-- step, and the first thing that every step keeps: who holds the two locks.
import Xv6.LogSteps
import Xv6.Places

open runs places

namespace xv6.log

/-! ## What a place in the code says -/

/-- The process holds `log.lock`. -/
@[simp] def Pc.holdsLog : Pc → Prop
  | .testing | .sleep_acquire | .sleep_release | .appending _ _ | .ending _ | .clearing
  | .wakeup_acquire | .waking | .leaving => True
  | _ => False

/-- The process holds `ptable.lock`. -/
@[simp] def Pc.holdsPt : Pc → Prop
  | .sleep_release | .sched | .waking => True
  | _ => False

/-- The operation that `log.outstanding` counts. -/
@[simp] def Pc.op : Pc → Option Op
  | .running o | .log_write o _ | .appending o _ | .end_op o | .ending o => some o
  | _ => none

/-- What the process adds to `log.outstanding`. -/
@[simp] def Pc.counted (x : Pc) : Nat := if x.op = none then 0 else 1

/-- The process has set `log.committing` and not cleared it yet. -/
@[simp] def Pc.commits : Pc → Prop
  | .commit | .erase | .committed | .clearing => True
  | _ => False

/-- The process has found that it must wait, and no one has woken it. -/
@[simp] def Pc.drowsy : Pc → Prop
  | .sleep_acquire | .sleep_release | .sched | .SLEEPING => True
  | _ => False

/-- The process is in a `wakeup(&log)`. -/
@[simp] def Pc.wakes : Pc → Prop
  | .wakeup_acquire | .waking => True
  | _ => False

/-! ## What a wakeup changes -/

theorem wakeup1_eq (pc : Nat → Pc) (q : Nat) :
    (pc q = .SLEEPING ∧ wakeup1 pc q = .woken) ∨ (pc q ≠ .SLEEPING ∧ wakeup1 pc q = pc q) := by
  unfold wakeup1
  by_cases h : pc q = .SLEEPING <;> simp [h]

@[simp] theorem wakeup1_holdsLog (pc : Nat → Pc) (q : Nat) :
    (wakeup1 pc q).holdsLog ↔ (pc q).holdsLog := by
  rcases wakeup1_eq pc q with ⟨h, hw⟩ | ⟨_, hw⟩ <;> simp [*]

@[simp] theorem wakeup1_holdsPt (pc : Nat → Pc) (q : Nat) :
    (wakeup1 pc q).holdsPt ↔ (pc q).holdsPt := by
  rcases wakeup1_eq pc q with ⟨h, hw⟩ | ⟨_, hw⟩ <;> simp [*]

@[simp] theorem wakeup1_op (pc : Nat → Pc) (q : Nat) : (wakeup1 pc q).op = (pc q).op := by
  rcases wakeup1_eq pc q with ⟨h, hw⟩ | ⟨_, hw⟩ <;> simp [*]

@[simp] theorem wakeup1_commits (pc : Nat → Pc) (q : Nat) :
    (wakeup1 pc q).commits ↔ (pc q).commits := by
  rcases wakeup1_eq pc q with ⟨h, hw⟩ | ⟨_, hw⟩ <;> simp [*]

/-! ## One step -/

/-- Everything that one step can do. -/
inductive Moves (size maxop : Nat) (s : Sys) : Sys → Prop where
  | begins (p : Nat) : s.pc p = .idle → Moves size maxop s (s.goto p .begin_op)
  | tests (p : Nat) : s.pc p = .begin_op → s.lock = none →
      Moves size maxop s { s.goto p .testing with lock := some p }
  | waits (p : Nat) : s.pc p = .testing → s.committing = true ∨ s.full →
      Moves size maxop s (s.goto p .sleep_acquire)
  | admits (p : Nat) : s.pc p = .testing → s.committing = false → ¬ s.full →
      Moves size maxop s { s.goto p (.running ⟨s.nextop, []⟩) with
        outstanding := s.outstanding + 1, lock := none, nextop := s.nextop + 1 }
  | takes_pt (p : Nat) : s.pc p = .sleep_acquire → s.ptlock = none →
      Moves size maxop s { s.goto p .sleep_release with ptlock := some p }
  | drops_log (p : Nat) : s.pc p = .sleep_release →
      Moves size maxop s { s.goto p .sched with lock := none }
  | sleeps (p : Nat) : s.pc p = .sched →
      Moves size maxop s { s.goto p .SLEEPING with ptlock := none }
  | killed (p : Nat) : s.pc p = .SLEEPING → Moves size maxop s (s.goto p .woken)
  | returns (p : Nat) : s.pc p = .woken → Moves size maxop s (s.goto p .begin_op)
  | fits (p : Nat) (o : Op) (b : Nat) : s.pc p = .running o →
      (absorb o.mine b).length ≤ maxop → ¬ tooBig s.lh size → 1 ≤ s.outstanding →
      Moves size maxop s (s.goto p (.log_write o b))
  | opens (p : Nat) (o : Op) (b : Nat) : s.pc p = .log_write o b → s.lock = none →
      Moves size maxop s { s.goto p (.appending o b) with lock := some p }
  | appends (p : Nat) (o : Op) (b : Nat) : s.pc p = .appending o b →
      Moves size maxop s { s.goto p (.running { o with mine := absorb o.mine b }) with
        lh := absorb s.lh b, lock := none, wrote := s.wrote ++ [(o.id, b)] }
  | ends (p : Nat) (o : Op) : s.pc p = .running o → Moves size maxop s (s.goto p (.end_op o))
  | closes (p : Nat) (o : Op) : s.pc p = .end_op o → s.lock = none →
      Moves size maxop s { s.goto p (.ending o) with lock := some p }
  | last (p : Nat) (o : Op) : s.pc p = .ending o → s.committing = false →
      s.outstanding - 1 = 0 →
      Moves size maxop s { s.goto p .commit with
        outstanding := s.outstanding - 1, committing := true, lock := none,
        ended := o.id :: s.ended }
  | notLast (p : Nat) (o : Op) : s.pc p = .ending o → s.committing = false →
      s.outstanding - 1 ≠ 0 →
      Moves size maxop s { s.goto p .wakeup_acquire with
        outstanding := s.outstanding - 1, ended := o.id :: s.ended }
  | installs (p : Nat) : s.pc p = .commit →
      Moves size maxop s { s.goto p .erase with lh := [], wrote := [] }
  | erases (p : Nat) : s.pc p = .erase → Moves size maxop s (s.goto p .committed)
  | reopens (p : Nat) : s.pc p = .committed → s.lock = none →
      Moves size maxop s { s.goto p .clearing with lock := some p }
  | clears (p : Nat) : s.pc p = .clearing →
      Moves size maxop s { s.goto p .wakeup_acquire with committing := false }
  | takes_pt_to_wake (p : Nat) : s.pc p = .wakeup_acquire → s.ptlock = none →
      Moves size maxop s { s.goto p .waking with ptlock := some p }
  | wakes (p : Nat) : s.pc p = .waking →
      Moves size maxop s { s with
        pc := Function.update (wakeup1 s.pc) p .leaving, ptlock := none }
  | leaves (p : Nat) : s.pc p = .leaving →
      Moves size maxop s { s.goto p .idle with lock := none }
  | overflows (p : Nat) (o : Op) (b : Nat) : s.pc p = .running o →
      (absorb o.mine b).length ≤ maxop → tooBig s.lh size →
      Moves size maxop s { s with panicked := some "too big a transaction" }
  | outside (p : Nat) (o : Op) : s.pc p = .running o → s.outstanding < 1 →
      Moves size maxop s { s with panicked := some "log_write outside of trans" }
  | collides (p : Nat) (o : Op) : s.pc p = .ending o → s.committing = true →
      Moves size maxop s
        { s with outstanding := s.outstanding - 1, panicked := some "log.committing" }

theorem go_moves {size maxop : Nat} {s s' : Sys} {p : Nat} (h : go s p = some s') :
    Moves size maxop s s' := by
  unfold go at h
  cases hpc : s.pc p with
  | idle | SLEEPING | running o => simp [hpc] at h
  | begin_op =>
    simp only [hpc] at h
    split at h
    · cases h
      exact .tests p hpc ‹_›
    · cases h
  | testing =>
    simp only [hpc] at h
    split at h
    · cases h
      exact .waits p hpc (Or.inl ‹_›)
    · split at h
      · cases h
        exact .waits p hpc (Or.inr ‹_›)
      · cases h
        exact .admits p hpc (by simpa using ‹¬ s.committing = true›) ‹_›
  | sleep_acquire =>
    simp only [hpc] at h
    split at h
    · cases h
      exact .takes_pt p hpc ‹_›
    · cases h
  | sleep_release =>
    simp only [hpc] at h
    cases h
    exact .drops_log p hpc
  | sched =>
    simp only [hpc] at h
    cases h
    exact .sleeps p hpc
  | woken =>
    simp only [hpc] at h
    split at h
    · cases h
      exact .returns p hpc
    · cases h
  | log_write o b =>
    simp only [hpc] at h
    split at h
    · cases h
      exact .opens p o b hpc ‹_›
    · cases h
  | appending o b =>
    simp only [hpc] at h
    cases h
    exact .appends p o b hpc
  | end_op o =>
    simp only [hpc] at h
    split at h
    · cases h
      exact .closes p o hpc ‹_›
    · cases h
  | ending o =>
    simp only [hpc] at h
    split at h
    · cases h
      exact .collides p o hpc ‹_›
    · have hc : s.committing = false := by simpa using ‹¬ s.committing = true›
      split at h
      · cases h
        exact .last p o hpc hc ‹_›
      · cases h
        exact .notLast p o hpc hc ‹_›
  | commit =>
    simp only [hpc] at h
    cases h
    exact .installs p hpc
  | erase =>
    simp only [hpc] at h
    cases h
    exact .erases p hpc
  | committed =>
    simp only [hpc] at h
    split at h
    · cases h
      exact .reopens p hpc ‹_›
    · cases h
  | clearing =>
    simp only [hpc] at h
    cases h
    exact .clears p hpc
  | wakeup_acquire =>
    simp only [hpc] at h
    split at h
    · cases h
      exact .takes_pt_to_wake p hpc ‹_›
    · cases h
  | waking =>
    simp only [hpc] at h
    cases h
    exact .wakes p hpc
  | leaving =>
    simp only [hpc] at h
    cases h
    exact .leaves p hpc

/-- A step is one of the moves, and it is taken before any panic. -/
theorem step_moves {size maxop : Nat} {s s' : Sys} {a : Act}
    (h : step size maxop s a = some s') : s.panicked = none ∧ Moves size maxop s s' := by
  unfold step at h
  split at h
  · cases h
  · refine ⟨by simpa using ‹¬ s.panicked ≠ none›, ?_⟩
    cases a with
    | begin_op p =>
      simp only at h
      split at h
      · cases h
        exact .begins p ‹_›
      · cases h
    | log_write p b =>
      simp only at h
      split at h
      · rename_i o hpc
        split at h
        · cases h
        · have hb : (absorb o.mine b).length ≤ maxop := by omega
          split at h
          · cases h
            exact .overflows p o b hpc hb ‹_›
          · split at h
            · cases h
              exact .outside p o hpc ‹_›
            · cases h
              exact .fits p o b hpc hb ‹_› (by omega)
      · cases h
    | end_op p =>
      simp only at h
      split at h
      · rename_i o hpc
        cases h
        exact .ends p o hpc
      · cases h
    | go p => exact go_moves h
    | kill p =>
      simp only at h
      split at h
      · rename_i hk
        cases h
        exact .killed p hk.1
      · cases h

/-! ## The locks -/

/-- Each lock is held by the process whose place says so. -/
structure Locks (s : Sys) : Prop where
  log_lock : Owns Pc.holdsLog s.lock s.pc
  pt_lock : Owns Pc.holdsPt s.ptlock s.pc

/-- A process that takes or drops no lock. -/
theorem Locks.goto {s : Sys} {p : Nat} {y : Pc} (h : Locks s)
    (h1 : y.holdsLog ↔ (s.pc p).holdsLog) (h2 : y.holdsPt ↔ (s.pc p).holdsPt) :
    Locks (s.goto p y) := ⟨h.log_lock.move h1, h.pt_lock.move h2⟩

theorem Locks.move {size maxop : Nat} {s s' : Sys} (h : Locks s) (hm : Moves size maxop s s') :
    Locks s' := by
  have h1 := h.log_lock
  have h2 := h.pt_lock
  cases hm with
  | begins p hpc | waits p hpc _ | killed p hpc | returns p hpc | fits p o b hpc _ _ _
      | ends p o hpc
  | erases p hpc => exact h.goto (by simp [hpc]) (by simp [hpc])
  | tests p hpc hl | opens p o b hpc hl | closes p o hpc hl | reopens p hpc hl =>
    rw [hl] at h1
    exact ⟨h1.acquire trivial, h2.move (by simp [hpc])⟩
  | admits p hpc _ _ | drops_log p hpc | appends p o b hpc | last p o hpc _ _ | leaves p hpc =>
    exact ⟨h1.release (by simp [hpc]) id, h2.move (by simp [hpc])⟩
  | takes_pt p hpc hl | takes_pt_to_wake p hpc hl =>
    rw [hl] at h2
    exact ⟨h1.move (by simp [hpc]), h2.acquire trivial⟩
  | sleeps p hpc => exact ⟨h1.move (by simp [hpc]), h2.release (by simp [hpc]) id⟩
  | notLast p o hpc _ _ | installs p hpc | clears p hpc =>
    exact ⟨h1.move (by simp [hpc]), h2.move (by simp [hpc])⟩
  | wakes p hpc =>
    have hw1 : Owns Pc.holdsLog s.lock (wakeup1 s.pc) := h1.congr (wakeup1_holdsLog s.pc)
    have hw2 : Owns Pc.holdsPt s.ptlock (wakeup1 s.pc) := h2.congr (wakeup1_holdsPt s.pc)
    have hp : wakeup1 s.pc p = .waking := by simp [wakeup1, hpc]
    exact ⟨hw1.move (by simp [hp]), hw2.release (by simp [hp]) id⟩
  | overflows p o b _ _ _ | outside p o _ _ | collides p o _ _ => exact ⟨h1, h2⟩

end xv6.log
