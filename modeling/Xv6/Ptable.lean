-- The process table of proc.c under ptable.lock: any number of CPUs that run scheduler, and the
-- processes on them in fork, clone, exit, wait, join, kill, sleep, wakeup and yield. The lock is
-- handed over at swtch; a step is a lock operation, a critical section or a part of one, or one
-- of the writes that fork and clone make without the lock.
import Xv6.Proc

namespace xv6.ptable

open proc (Procstate Call)

/-! ## The table -/

inductive Creator where
  | fork
  | clone
  deriving DecidableEq

/-- `struct proc`. A process is named by its slot in the table. -/
structure Proc where
  state : Procstate
  pid : Int
  parent : Option Nat
  pgdir : Nat
  /-- there is a kernel stack -/
  kstack : Bool
  chan : Option Nat
  killed : Bool
  deriving DecidableEq

/-- What a `wait` or `join` returned: a pid, or `none` for -1. -/
structure Return where
  call : Call
  caller : Int
  pid : Option Int
  deriving DecidableEq

structure Table where
  procs : Nat → Proc
  nextpid : Int
  /-- history: the number of pids handed out -/
  handed : Nat
  /-- history: who created whom -/
  created : List (Int × Creator × Int)
  /-- history: the pids that a `kill` found -/
  kills : List Int
  /-- history: the pids of the processes that came to the end of `exit` -/
  exited : List Int
  /-- history: the returns of `wait` and `join`, newest first -/
  returns : List Return

/-- `userinit` puts init into the first slot. -/
abbrev initproc : Nat := 0

namespace Table

def set (t : Table) (q : Nat) (f : Proc → Proc) : Table :=
  { t with procs := Function.update t.procs q (f (t.procs q)) }

/-- The first slot, in a scan of the table, that passes the test. -/
def first (test : Nat → Prop) [DecidablePred test] : Option Nat :=
  (List.range NPROC).find? fun q => test q

/-- `p->state = EMBRYO; p->pid = nextpid++;` -/
def alloc (t : Table) (np : Nat) : Table :=
  { t.set np fun r => { r with state := .EMBRYO, pid := t.nextpid } with
    nextpid := toInt (ofInt (t.nextpid + 1)), handed := t.handed + 1 }

/-- A new kernel stack. -/
def stack (t : Table) (np : Nat) : Table := t.set np fun r => { r with kstack := true }

/-- A creation fails: `np->kstack = 0; np->state = UNUSED;` -/
def abandon (t : Table) (np : Nat) : Table :=
  t.set np fun r => { r with kstack := false, state := .UNUSED }

def setPgdir (t : Table) (np d : Nat) : Table := t.set np fun r => { r with pgdir := d }

/-- `np->parent = proc;` -/
def adopt (t : Table) (np p : Nat) : Table := t.set np fun r => { r with parent := some p }

/-- `np->state = RUNNABLE;` -/
def ready (t : Table) (k : Creator) (np p : Nat) : Table :=
  { t.set np fun r => { r with state := .RUNNABLE } with
    created := ((t.procs p).pid, k, (t.procs np).pid) :: t.created }

/-- Wake up all processes sleeping on `chan`. -/
def wakeup1 (t : Table) (chan : Nat) : Table :=
  { t with procs := fun q =>
      if (t.procs q).state = .SLEEPING ∧ (t.procs q).chan = some chan then
        { t.procs q with state := .RUNNABLE }
      else t.procs q }

/-- A turn of the loop of `exit` that passes the children of `p` to init. -/
def passTurn (p : Nat) (t : Table) (q : Nat) : Table :=
  if (t.procs q).parent = some p then
    let t := t.set q fun r => { r with parent := some initproc }
    if (t.procs q).state = .ZOMBIE then t.wakeup1 initproc else t
  else t

/-- The loop of `exit` that passes the children of `p` to init. -/
def pass (t : Table) (p : Nat) : Table := (List.range NPROC).foldl (passTurn p) t

/-- `proc->state = ZOMBIE;` -/
def zombie (t : Table) (p : Nat) : Table :=
  { t.set p fun r => { r with state := .ZOMBIE } with exited := (t.procs p).pid :: t.exited }

/-- Process `q` is one that a `wait` or `join` of `p` looks for. -/
def child (t : Table) (p : Nat) (r : Call) (q : Nat) : Prop :=
  (t.procs q).parent = some p ∧ (r = .join → (t.procs q).pgdir = (t.procs p).pgdir)

instance (t : Table) (p : Nat) (r : Call) (q : Nat) : Decidable (t.child p r q) :=
  inferInstanceAs (Decidable (_ ∧ _))

/-- A `wait` or `join` of `p` returns. -/
def ret (t : Table) (p : Nat) (r : Call) (pid : Option Int) : Table :=
  { t with returns := ⟨r, (t.procs p).pid, pid⟩ :: t.returns }

/-- A `wait` or `join` of `p` frees the slot `q` of a child and returns its pid. -/
def reap (t : Table) (p : Nat) (r : Call) (q : Nat) : Table :=
  (t.ret p r (some (t.procs q).pid)).set q fun z =>
    { z with kstack := false, state := .UNUSED, pid := 0, parent := none, killed := false }

/-- `proc->chan = chan; proc->state = SLEEPING;` -/
def sleep (t : Table) (p chan : Nat) : Table :=
  t.set p fun r => { r with chan := some chan, state := .SLEEPING }

def tidy (t : Table) (p : Nat) : Table := t.set p fun r => { r with chan := none }

def setState (t : Table) (p : Nat) (x : Procstate) : Table := t.set p fun r => { r with state := x }

/-- `kill` finds its process in slot `q`. -/
def kill (t : Table) (pid : Int) (q : Nat) : Table :=
  { t.set q fun r =>
      { r with killed := true, state := if r.state = .SLEEPING then .RUNNABLE else r.state } with
    kills := pid :: t.kills }

end Table

/-! ## The places -/

/-- Where a process stands. -/
inductive Pc where
  /-- in user code, or in kernel code without `ptable.lock` -/
  | user
  /-- in `allocproc`, at `kalloc` of the kernel stack of slot `np` -/
  | stack (k : Creator) (np : Nat)
  /-- at the page directory of `np` -/
  | copy (k : Creator) (np : Nat)
  /-- at `np->parent = proc` -/
  | adopt (k : Creator) (np : Nat)
  /-- at `acquire(&ptable.lock)`, for the critical section at `x` -/
  | acquire (x : Pc)
  /-- in `allocproc`, at its scan -/
  | alloc (k : Creator)
  /-- at `np->state = RUNNABLE` -/
  | ready (k : Creator) (np : Nat)
  /-- in `exit`, at `wakeup1(proc->parent)` -/
  | exit_wake
  /-- in `exit`, at the loop that passes children to init -/
  | exit_pass
  /-- in `exit`, at `proc->state = ZOMBIE` -/
  | exit_zombie
  /-- in `exit` after `sched`, at `panic("zombie exit")` -/
  | zombie
  /-- in `wait` or `join`, at a scan of the table -/
  | scan (r : Call)
  /-- in `sleep`, at `proc->chan = chan`: called by `wait` or `join`, or with another lock -/
  | sleep (r : Option Call) (chan : Nat)
  /-- in `sleep` after `sched`, at `proc->chan = 0` -/
  | tidy (r : Option Call)
  /-- in `wakeup`, which was called at `back` -/
  | wakeup1 (chan : Nat) (back : Pc)
  /-- in `kill` -/
  | kill (pid : Int)
  /-- in `yield`, which was called at `back` -/
  | yield (back : Pc)
  /-- at `release(&ptable.lock)`, before the code at `back` -/
  | release (back : Pc)
  /-- in `sched`, at `swtch`, before the code at `x` -/
  | sched (x : Pc)
  /-- in `sched` or in a new context, switched away from, before the code at `x` -/
  | off (x : Pc)
  deriving DecidableEq

/-- The places with `ptable.lock`. -/
def Pc.locked : Pc → Bool
  | .user | .stack .. | .copy .. | .adopt .. | .acquire _ | .off _ => false
  | _ => true

/-- Where a CPU stands. -/
inductive Cpu where
  /-- in `scheduler`, without the lock -/
  | idle
  /-- in the loop of `scheduler`, at slot `i` -/
  | scan (i : Nat)
  /-- in `scheduler`, at `swtch` to process `p` -/
  | enter (p : Nat)
  /-- it runs process `p` -/
  | on (p : Nat)
  /-- in `scheduler` after `swtch`, at `proc = 0` -/
  | back (p : Nat)
  /-- in an interrupt of `scheduler`, in the `wakeup` of a driver -/
  | wakeup1 (chan : Nat)
  deriving DecidableEq

/-- The `proc` of the CPU. -/
def Cpu.cur : Cpu → Option Nat
  | .enter p | .on p | .back p => some p
  | _ => none

structure Sys where
  tab : Table
  pc : Nat → Pc
  cpu : Nat → Cpu
  /-- the CPU that holds `ptable.lock` -/
  lock : Option Nat

/-- After `userinit`. -/
def init : Sys :=
  { tab :=
      { procs := fun p => if p = initproc then ⟨.RUNNABLE, 1, none, 0, true, none, false⟩
          else ⟨.UNUSED, 0, none, 0, false, none, false⟩
        nextpid := 2, handed := 1, created := [], kills := [], exited := [], returns := [] }
    pc := fun _ => .off (.release .user)
    cpu := fun _ => .idle
    lock := none }

/-! ## The steps of a process -/

/-- Process `p` goes on at `x`, and the table is `t` then. -/
def Sys.move (s : Sys) (p : Nat) (t : Table) (x : Pc) : Sys :=
  { s with tab := t, pc := Function.update s.pc p x }

/-- The scan of `allocproc`. -/
def alloc (s : Sys) (p : Nat) (k : Creator) : Sys :=
  match Table.first fun q => (s.tab.procs q).state = .UNUSED with
  | none => s.move p s.tab (.release .user)
  | some np => s.move p (s.tab.alloc np) (.release (.stack k np))

/-- A scan of `wait` or `join`. -/
def scan (s : Sys) (p : Nat) (r : Call) : Sys :=
  match Table.first fun q => s.tab.child p r q ∧ (s.tab.procs q).state = .ZOMBIE with
  | some q => s.move p (s.tab.reap p r q) (.release .user)
  | none =>
    if (Table.first fun q => s.tab.child p r q) = none ∨ (s.tab.procs p).killed then
      s.move p (s.tab.ret p r none) (.release .user)
    else s.move p s.tab (.sleep (some r) p)

/-- The loop of `kill`. -/
def kill (s : Sys) (p : Nat) (pid : Int) : Sys :=
  match Table.first fun q => (s.tab.procs q).pid = pid with
  | none => s.move p s.tab (.release .user)
  | some q => s.move p (s.tab.kill pid q) (.release .user)

/-- One step of process `p` on CPU `c`. Whether `kalloc` and `copyuvm` have memory, and which page
directory `copyuvm` makes, is open. -/
def go (s : Sys) (c p : Nat) (ok : Bool) (d : Nat) : Option Sys :=
  match s.pc p with
  | .user | .off _ | .zombie => none
  | .acquire x => if s.lock = none then some { s.move p s.tab x with lock := some c } else none
  | .release b => some { s.move p s.tab b with lock := none }
  -- the CPU goes on in `scheduler`, with the lock
  | .sched x => some { s.move p s.tab (.off x) with cpu := Function.update s.cpu c (.back p) }
  | .alloc k => some (alloc s p k)
  | .stack k np =>
    if ok then
      -- the new context starts at `forkret`, which releases the lock
      some ({ s with pc := Function.update s.pc np (.off (.release .user)) }.move p (s.tab.stack np)
        (.copy k np))
    else some (s.move p (s.tab.abandon np) .user)
  | .copy .fork np =>
    if ok then some (s.move p (s.tab.setPgdir np d) (.adopt .fork np))
    else some (s.move p (s.tab.abandon np) .user)
  | .copy .clone np => some (s.move p (s.tab.setPgdir np (s.tab.procs p).pgdir) (.adopt .clone np))
  | .adopt k np => some (s.move p (s.tab.adopt np p) (.acquire (.ready k np)))
  | .ready k np => some (s.move p (s.tab.ready k np p) (.release .user))
  | .exit_wake =>
    match (s.tab.procs p).parent with
    | some q => some (s.move p (s.tab.wakeup1 q) .exit_pass)
    | none => some (s.move p s.tab .exit_pass)
  | .exit_pass => some (s.move p (s.tab.pass p) .exit_zombie)
  | .exit_zombie => some (s.move p (s.tab.zombie p) (.sched .zombie))
  | .scan r => some (scan s p r)
  | .sleep r chan => some (s.move p (s.tab.sleep p chan) (.sched (.tidy r)))
  | .tidy (some r) => some (s.move p (s.tab.tidy p) (.scan r))
  | .tidy none => some (s.move p (s.tab.tidy p) (.release .user))
  | .wakeup1 chan b => some (s.move p (s.tab.wakeup1 chan) (.release b))
  | .kill pid => some (kill s p pid)
  | .yield b => some (s.move p (s.tab.setState p .RUNNABLE) (.sched (.release b)))

/-! ## The steps of a CPU -/

/-- What can happen next. -/
inductive Act where
  /-- CPU `c` goes on in `scheduler` -/
  | cpu (c : Nat)
  /-- an interrupt of `scheduler` on CPU `c` calls `wakeup` -/
  | irq (c chan : Nat)
  /-- the process on CPU `c` goes on -/
  | go (c : Nat) (ok : Bool) (d : Nat)
  /-- the process on CPU `c` makes a system call -/
  | create (c : Nat) (k : Creator)
  | reap (c : Nat) (r : Call)
  | kill (c : Nat) (pid : Int)
  /-- the process on CPU `c` calls `exit` -/
  | exit (c : Nat)
  /-- the process on CPU `c` calls `sleep` with another lock than `ptable.lock` -/
  | sleep (c chan : Nat)
  /-- the process on CPU `c`, or an interrupt of it, calls `wakeup` -/
  | wakeup (c chan : Nat)
  /-- a timer interrupt of the process on CPU `c` -/
  | timer (c : Nat)

/-- The process on CPU `c`, in user code and with `ok`, calls the function with the critical
section at `x`. -/
def Sys.call (s : Sys) (c : Nat) (x : Pc) (ok : Nat → Bool) : Option Sys :=
  match s.cpu c with
  | .on p => if s.pc p = .user ∧ ok p then some (s.move p s.tab (.acquire x)) else none
  | _ => none

/-- An interrupt of the process on CPU `c`, while it holds no lock. -/
def Sys.interrupt (s : Sys) (c : Nat) (x : Pc → Pc) : Option Sys :=
  match s.cpu c with
  | .on p => if (s.pc p).locked then none else some (s.move p s.tab (.acquire (x (s.pc p))))
  | _ => none

/-- A killed process does not get past `trap`. -/
def Sys.alive (s : Sys) (p : Nat) : Bool := !(s.tab.procs p).killed

/-- The scheduler of CPU `c`. -/
def scheduler (s : Sys) (c : Nat) : Option Sys :=
  match s.cpu c with
  | .idle =>
    if s.lock = none then some { s with cpu := Function.update s.cpu c (.scan 0), lock := some c }
    else none
  | .scan i =>
    if i < NPROC then
      if (s.tab.procs i).state = .RUNNABLE then
        some { s with tab := s.tab.setState i .RUNNING, cpu := Function.update s.cpu c (.enter i) }
      else some { s with cpu := Function.update s.cpu c (.scan (i + 1)) }
    else some { s with cpu := Function.update s.cpu c .idle, lock := none }
  | .enter p =>
    match s.pc p with
    | .off x => some { s.move p s.tab x with cpu := Function.update s.cpu c (.on p) }
    | _ => none
  | .on _ => none
  | .back p => some { s with cpu := Function.update s.cpu c (.scan (p + 1)) }
  | .wakeup1 chan =>
    some { s with tab := s.tab.wakeup1 chan, cpu := Function.update s.cpu c .idle, lock := none }

def step (s : Sys) : Act → Option Sys
  | .cpu c => scheduler s c
  | .irq c chan =>
    if s.cpu c = .idle ∧ s.lock = none then
      some { s with cpu := Function.update s.cpu c (.wakeup1 chan), lock := some c }
    else none
  | .go c ok d =>
    match s.cpu c with
    | .on p => go s c p ok d
    | _ => none
  | .create c k => s.call c (.alloc k) s.alive
  | .reap c r => s.call c (.scan r) s.alive
  | .kill c pid => s.call c (.kill pid) s.alive
  -- init does not exit: that is a panic
  | .exit c => s.call c .exit_wake (· ≠ initproc)
  | .sleep c chan => s.call c (.sleep none chan) fun _ => true
  | .wakeup c chan => s.interrupt c (.wakeup1 chan)
  | .timer c => s.interrupt c .yield

end xv6.ptable
