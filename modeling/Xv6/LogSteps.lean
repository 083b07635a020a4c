-- Any number of processes in begin_op, log_write and end_op of log.c, one lock operation
-- or one critical section at a time, with the sleep and wakeup of proc.c under them.
import Xv6.Log
import Xv6.Runs

namespace xv6.log

/-! ## The state -/

/-- A file-system operation between its `begin_op` and its `end_op`. -/
structure Op where
  /-- the operations are numbered as `begin_op` admits them -/
  id : Nat
  /-- the distinct blocks that it has passed to `log_write` -/
  mine : List Nat
  deriving DecidableEq

/-- Where a process stands. -/
inductive Pc where
  /-- outside any operation -/
  | idle
  /-- at an `acquire(&log.lock)` of `begin_op`: its own, or the last of its `sleep` -/
  | begin_op
  /-- in the loop of `begin_op`, with `log.lock` -/
  | testing
  /-- in `sleep`, at `acquire(&ptable.lock)`, with `log.lock` -/
  | sleep_acquire
  /-- in `sleep`, at `release(lk)`, with both locks -/
  | sleep_release
  /-- in `sleep`, about to set its state and call `sched`, with `ptable.lock` -/
  | sched
  /-- in `sleep`, with state SLEEPING and channel `&log` -/
  | SLEEPING
  /-- in `sleep`, with state RUNNABLE -/
  | woken
  /-- in the file-system code of its operation -/
  | running (o : Op)
  /-- in `log_write` of block `b`, past the two tests, at `acquire(&log.lock)` -/
  | log_write (o : Op) (b : Nat)
  /-- in `log_write` of block `b`, with `log.lock` -/
  | appending (o : Op) (b : Nat)
  /-- at the first `acquire(&log.lock)` of `end_op` -/
  | end_op (o : Op)
  /-- in the first critical section of `end_op` -/
  | ending (o : Op)
  /-- in `commit`, up to `log.lh.n = 0` -/
  | commit
  /-- in `commit`, after `log.lh.n = 0` -/
  | erase
  /-- at the second `acquire(&log.lock)` of `end_op` -/
  | committed
  /-- in the second critical section of `end_op`, before `log.committing = 0` -/
  | clearing
  /-- in `wakeup(&log)` of `end_op`, at `acquire(&ptable.lock)`, with `log.lock` -/
  | wakeup_acquire
  /-- in `wakeup1`, with both locks -/
  | waking
  /-- at a `release(&log.lock)` of `end_op` after its `wakeup` -/
  | leaving
  deriving DecidableEq

/-- `struct log`, `ptable.lock` and the processes. The last three fields are history. -/
structure Sys where
  /-- the holder of `log.lock` -/
  lock : Option Nat
  /-- the holder of `ptable.lock` -/
  ptlock : Option Nat
  outstanding : Int
  committing : Bool
  lh : List Nat
  pc : Nat → Pc
  panicked : Option String
  /-- the number of operations admitted so far -/
  nextop : Nat
  /-- the operation and the block of each `log_write` since the last commit -/
  wrote : List (Nat × Nat)
  /-- the operations that have called `end_op` -/
  ended : List Nat

/-- After `initlog`: the log is empty and no process is in it. -/
def init : Sys :=
  { lock := none, ptlock := none, outstanding := 0, committing := false, lh := [],
    pc := fun _ => .idle, panicked := none, nextop := 0, wrote := [], ended := [] }

def Sys.goto (s : Sys) (p : Nat) (x : Pc) : Sys := { s with pc := Function.update s.pc p x }

/-! ## The steps -/

/-- What can happen next: a process that calls one of the three functions, one that goes on in
the function it is in, or a `kill` that makes a sleeping process RUNNABLE. -/
inductive Act where
  | begin_op (p : Nat)
  | log_write (p b : Nat)
  | end_op (p : Nat)
  | go (p : Nat)
  | kill (p : Nat)
  deriving DecidableEq

/-- The test of `begin_op`: this operation might exhaust the log space. -/
def Sys.full (s : Sys) : Prop :=
  (s.lh.length : Int) + (s.outstanding + 1) * MAXOPBLOCKS > LOGSIZE

instance (s : Sys) : Decidable s.full := inferInstanceAs (Decidable (_ > _))

/-- `wakeup1(&log)`. -/
def wakeup1 (pc : Nat → Pc) : Nat → Pc := fun q => if pc q = .SLEEPING then .woken else pc q

/-- One turn of process `p` inside the function that it is in. -/
def go (s : Sys) (p : Nat) : Option Sys :=
  match s.pc p with
  | .idle | .SLEEPING | .running _ => none
  | .begin_op =>
    if s.lock = none then some { s.goto p .testing with lock := some p } else none
  | .testing =>
    if s.committing then some (s.goto p .sleep_acquire)
    else if s.full then some (s.goto p .sleep_acquire)
    else some { s.goto p (.running ⟨s.nextop, []⟩) with
      outstanding := s.outstanding + 1, lock := none, nextop := s.nextop + 1 }
  | .sleep_acquire =>
    if s.ptlock = none then some { s.goto p .sleep_release with ptlock := some p } else none
  | .sleep_release => some { s.goto p .sched with lock := none }
  -- the scheduler that `sched` switches to releases the lock
  | .sched => some { s.goto p .SLEEPING with ptlock := none }
  -- the scheduler hands `ptable.lock` over and `sleep` releases it
  | .woken => if s.ptlock = none then some (s.goto p .begin_op) else none
  | .log_write o b =>
    if s.lock = none then some { s.goto p (.appending o b) with lock := some p } else none
  | .appending o b =>
    some { s.goto p (.running { o with mine := absorb o.mine b }) with
      lh := absorb s.lh b, lock := none, wrote := s.wrote ++ [(o.id, b)] }
  | .end_op o =>
    if s.lock = none then some { s.goto p (.ending o) with lock := some p } else none
  | .ending o =>
    if s.committing then
      some { s with outstanding := s.outstanding - 1, panicked := some "log.committing" }
    else if s.outstanding - 1 = 0 then
      some { s.goto p .commit with
        outstanding := s.outstanding - 1, committing := true, lock := none,
        ended := o.id :: s.ended }
    else
      some { s.goto p .wakeup_acquire with
        outstanding := s.outstanding - 1, ended := o.id :: s.ended }
  -- the block writes of `commit` are in Log.lean
  | .commit => some { s.goto p .erase with lh := [], wrote := [] }
  | .erase => some (s.goto p .committed)
  | .committed =>
    if s.lock = none then some { s.goto p .clearing with lock := some p } else none
  | .clearing => some { s.goto p .wakeup_acquire with committing := false }
  | .wakeup_acquire =>
    if s.ptlock = none then some { s.goto p .waking with ptlock := some p } else none
  | .waking => some { s with pc := Function.update (wakeup1 s.pc) p .leaving, ptlock := none }
  | .leaving => some { s.goto p .idle with lock := none }

/-- A log of `size` blocks, and operations of at most `maxop` distinct blocks each. After a
panic nothing happens. -/
def step (size maxop : Nat) (s : Sys) (a : Act) : Option Sys :=
  if s.panicked ≠ none then none
  else match a with
  | .begin_op p => if s.pc p = .idle then some (s.goto p .begin_op) else none
  | .log_write p b =>
    match s.pc p with
    | .running o =>
      if maxop < (absorb o.mine b).length then none
      -- the two tests are made before the lock is taken
      else if tooBig s.lh size then some { s with panicked := some "too big a transaction" }
      else if s.outstanding < 1 then some { s with panicked := some "log_write outside of trans" }
      else some (s.goto p (.log_write o b))
    | _ => none
  | .end_op p =>
    match s.pc p with
    | .running o => some (s.goto p (.end_op o))
    | _ => none
  | .go p => go s p
  | .kill p =>
    if s.pc p = .SLEEPING ∧ s.ptlock = none then some (s.goto p .woken) else none

end xv6.log
