-- The process table of proc.c and the system calls that make, replace and reap processes:
-- fork, clone, exec, exit, wait, join and kill. A call is one step, except that wait and join
-- sleep between two scans of the table. User code runs between the calls and may do anything
-- to its registers and to the pages of its page directory.
import Xv6.Params
import Xv6.Runs
import Xv6.Wp

open bytes

namespace xv6.proc

/-! ## The state -/

inductive Procstate where
  | UNUSED
  | EMBRYO
  | SLEEPING
  | RUNNABLE
  | RUNNING
  | ZOMBIE
  deriving DecidableEq

/-- The registers of `struct trapframe`. -/
structure Trapframe where
  edi : Nat := 0
  esi : Nat := 0
  ebp : Nat := 0
  oesp : Nat := 0
  ebx : Nat := 0
  edx : Nat := 0
  ecx : Nat := 0
  eax : Nat := 0
  gs : Nat := 0
  fs : Nat := 0
  es : Nat := 0
  ds : Nat := 0
  trapno : Nat := 0
  err : Nat := 0
  eip : Nat := 0
  cs : Nat := 0
  eflags : Nat := 0
  esp : Nat := 0
  ss : Nat := 0

/-- The two calls that sleep. -/
inductive Call where
  | wait
  | join
  deriving DecidableEq

/-- `struct proc`. A process is named by its slot in the table, and a page of `kalloc` by the
number of that `kalloc`, from 1 on. -/
structure Proc where
  sz : Nat
  pgdir : Nat
  kstack : Nat
  state : Procstate
  pid : Nat
  parent : Option Nat
  tf : Trapframe
  chan : Option Nat
  killed : Bool
  /-- the call that the process sleeps in, or goes on with once it runs again -/
  inside : Option Call
  /-- history: the argument of that call, for `join` -/
  arg : Nat
  /-- history: the stack that the `clone` which made the process was given -/
  stack : Option Nat

/-- The memory that a page directory maps below KERNBASE, and the pages of it that are present.
Above KERNBASE every page directory maps the kernel's memory. -/
structure Space where
  mem : Mem
  present : Nat → Bool

structure Sys where
  procs : Nat → Proc
  initproc : Nat
  nextpid : Nat
  /-- the number of pages that `kalloc` has returned -/
  kalloced : Nat
  spaces : Nat → Space
  panicked : Option String
  /-- history: the page directory of each `freevm`, and the other processes that were not
  UNUSED and had it then -/
  freed : List (Nat × List Nat)
  /-- history: the addresses that the kernel stored to in the last call, through the page
  directory of the caller -/
  stored : List Nat

def Sys.set (s : Sys) (i : Nat) (f : Proc → Proc) : Sys :=
  { s with procs := Function.update s.procs i (f (s.procs i)) }

/-- The first process of the table, in a scan of it, that passes the test. -/
def Sys.first (s : Sys) (test : Proc → Bool) : Option Nat :=
  (List.range NPROC).find? (fun i => test (s.procs i))

def Sys.space (s : Sys) (c : Nat) : Space := s.spaces (s.procs c).pgdir

/-- A call, which may panic. -/
abbrev ProcM := EStateM String Sys

/-! ## Memory -/

/-- The pages from that of byte `a` to that of byte `b` are mapped for the kernel. -/
def Space.mapped (sp : Space) (a b : Nat) : Prop :=
  ∀ i < b / PGSIZE + 1 - a / PGSIZE,
    KERNBASE ≤ (a / PGSIZE + i) * PGSIZE ∨ sp.present (a / PGSIZE + i) = true

instance (sp : Space) (a b : Nat) : Decidable (sp.mapped a b) :=
  inferInstanceAs (Decidable (∀ i < _, _))

/-- The kernel stores a `uint` at `a` while it runs for process `c`. A page that is not mapped
is a trap in the kernel, which panics. -/
def store (c a w : Nat) : ProcM Unit := do
  let s ← get
  if (s.space c).mapped a (a + 3) then
    set { s with
      spaces := Function.update s.spaces (s.procs c).pgdir
        { s.space c with mem := setLe (s.space c).mem a 4 w }
      stored := s.stored ++ (List.range 4).map (a + ·) }
  else throw "trap"

/-- The kernel moves `n` bytes at `a` onto themselves. -/
def memmoveSelf (c a n : Nat) : ProcM Unit := do
  let s ← get
  if (s.space c).mapped a (a + n - 1) then
    set { s with stored := s.stored ++ (List.range n).map (a + ·) }
  else throw "trap"

def kalloc : ProcM Nat := do
  let s ← get
  set { s with kalloced := s.kalloced + 1 }
  pure (s.kalloced + 1)

/-- `freevm` of directory `d` of process `i`. -/
def freevm (i d : Nat) : ProcM Unit :=
  modify fun s => { s with freed := s.freed ++ [(d, (List.range NPROC).filter fun q =>
    q ≠ i ∧ (s.procs q).state ≠ .UNUSED ∧ (s.procs q).pgdir = d)] }

/-! ## The arguments of a system call -/

/-- Fetch the int at `addr` from the current process. -/
def fetchint (s : Sys) (c addr : Nat) : Option Nat :=
  if addr ≥ (s.procs c).sz ∨ uint (addr + 4) > (s.procs c).sz then none
  else some (le (s.space c).mem addr 4)

/-- Fetch the `n`-th 32-bit system call argument. -/
def argint (s : Sys) (c n : Nat) : Option Nat :=
  fetchint s c (uint ((s.procs c).tf.esp + 4 + 4 * n))

/-- Fetch the `n`-th argument as a pointer to `size` bytes. -/
def argptr (s : Sys) (c n size : Nat) : Option Nat :=
  match argint s c n with
  | none => none
  | some i => if i ≥ (s.procs c).sz ∨ uint (i + size) > (s.procs c).sz then none else some i

/-! ## proc.c and exec.c -/

/-- Look in the process table for an UNUSED process. `kstack` says whether there is a page for
its kernel stack. -/
def allocproc (kstack : Bool) : ProcM (Option Nat) := do
  let s ← get
  match s.first (fun p => p.state = .UNUSED) with
  | none => pure none
  | some i =>
    set { s.set i fun p => { p with state := .EMBRYO, pid := s.nextpid } with
      nextpid := s.nextpid + 1 }
    if kstack then
      let k ← kalloc
      modify (·.set i fun p => { p with kstack := k })
      pure (some i)
    else
      modify (·.set i fun p => { p with kstack := 0, state := .UNUSED })
      pure none

/-- How far the free memory lasts in a `fork`. -/
inductive Memory where
  | noKstack
  /-- `setupkvm` returns 0 -/
  | noPgdir
  /-- `copyuvm` runs out of pages after `setupkvm` -/
  | noPages
  | enough
  deriving DecidableEq

/-- A copy of page directory `pgdir` for process `np`. -/
def copyuvm (np pgdir : Nat) (m : Memory) : ProcM (Option Nat) :=
  match m with
  | .noKstack | .noPgdir => pure none
  | .noPages => do
    let d ← kalloc
    freevm np d
    pure none
  | .enough => do
    let d ← kalloc
    modify fun s => { s with spaces := Function.update s.spaces d (s.spaces pgdir) }
    pure (some d)

/-- Create a new process copying `c` as the parent. -/
def fork (c : Nat) (m : Memory) : ProcM Int := do
  match ← allocproc (m ≠ .noKstack) with
  | none => pure (-1)
  | some np =>
    let proc := (← get).procs c
    match ← copyuvm np proc.pgdir m with
    | none =>
      modify (·.set np fun p => { p with pgdir := 0, kstack := 0, state := .UNUSED })
      pure (-1)
    | some d =>
      modify (·.set np fun p =>
        { p with
          pgdir := d, sz := proc.sz, parent := some c, tf := { proc.tf with eax := 0 },
          stack := none, state := .RUNNABLE })
      pure ((← get).procs np).pid

/-- Create a thread of `c`: a process with the same page directory. -/
def clone (c fn arg stack : Nat) (kstack : Bool) : ProcM Int := do
  match ← allocproc kstack with
  | none => pure (-1)
  | some np =>
    let proc := (← get).procs c
    modify (·.set np fun p =>
      { p with pgdir := proc.pgdir, sz := proc.sz, parent := some c, tf := proc.tf })
    store c (uint (stack + 4096 - 2 * 4)) 0xFFFFFFF
    store c (uint (stack + 4096 - 4)) arg
    memmoveSelf c stack PGSIZE
    let esp := uint (stack + PGSIZE - 2 * 4)
    modify (·.set np fun p =>
      { p with
        tf := { p.tf with esp := esp, ebp := esp, eip := fn, eax := 0 }
        stack := some stack, state := .RUNNABLE })
    pure ((← get).procs np).pid

def sys_clone (c : Nat) (kstack : Bool) : ProcM Int := do
  let s ← get
  match argptr s c 0 4, argptr s c 1 4, argptr s c 2 4 with
  | some fn, some arg, some stack => clone c fn arg stack kstack
  | _, _, _ => pure (-1)

/-- What `exec` makes of the file and of its arguments. -/
inductive Image where
  /-- it fails before there is a new page directory -/
  | bad
  /-- it fails after that -/
  | badLoad
  | good (space : Space) (sz entry sp : Nat)

def exec (c : Nat) (image : Image) : ProcM Int :=
  match image with
  | .bad => pure (-1)
  | .badLoad => do
    let d ← kalloc
    freevm c d
    pure (-1)
  | .good space sz entry sp => do
    let d ← kalloc
    let oldpgdir := ((← get).procs c).pgdir
    modify fun s => { s with spaces := Function.update s.spaces d space }
    modify (·.set c fun p =>
      { p with pgdir := d, sz := sz, tf := { p.tf with eip := entry, esp := sp } })
    freevm c oldpgdir
    pure 0

/-- Wake up all processes sleeping on `chan`. -/
def wakeup1 (s : Sys) (chan : Option Nat) : Sys :=
  { s with procs := fun i =>
      if (s.procs i).state = .SLEEPING ∧ (s.procs i).chan = chan then
        { s.procs i with state := .RUNNABLE }
      else s.procs i }

/-- Pass abandoned children to init. -/
def reparent (s : Sys) (c : Nat) : Sys :=
  { s with procs := fun i =>
      if i < NPROC ∧ (s.procs i).parent = some c then
        { s.procs i with parent := some s.initproc }
      else s.procs i }

def exit (c : Nat) : ProcM Unit := do
  let s ← get
  if c = s.initproc then throw "init exiting"
  else
    modify (wakeup1 · (s.procs c).parent)
    modify (reparent · c)
    if s.first (fun p => p.parent = some c ∧ p.state = .ZOMBIE) ≠ none then
      modify (wakeup1 · (some s.initproc))
    modify (·.set c fun p => { p with state := .ZOMBIE })

/-- What `wait` and `join` do to a process that they found. -/
def reap (i : Nat) : ProcM Unit :=
  modify (·.set i fun p =>
    { p with kstack := 0, state := .UNUSED, pid := 0, parent := none, killed := false })

/-- `sleep(proc, &ptable.lock)` in `call`, which was made with argument `arg`. -/
def sleep (c : Nat) (call : Call) (arg : Nat) : ProcM Unit :=
  modify (·.set c fun p =>
    { p with chan := some c, state := .SLEEPING, inside := some call, arg := arg })

/-- One scan of the table in `wait`. It returns, or sleeps before the next scan. -/
def wait (c : Nat) : ProcM (Option Int) := do
  let s ← get
  match s.first (fun p => p.parent = some c ∧ p.state = .ZOMBIE) with
  | some i =>
    freevm i (s.procs i).pgdir
    reap i
    pure (some (s.procs i).pid)
  | none =>
    let havekids := s.first fun p => p.parent = some c
    if havekids = none ∨ (s.procs c).killed then pure (some (-1))
    else
      sleep c .wait 0
      pure none

/-- The argument of the `join` that `c` is in: the word that its user code had at %esp + 4 when it
made the call. -/
def joinArg (s : Sys) (c : Nat) : Nat :=
  let p := s.procs c
  if p.inside = some .join then p.arg else le (s.space c).mem (uint (p.tf.esp + 4)) 4

/-- One scan of the table in `join`, which does not use its argument. -/
def join (c : Nat) : ProcM (Option Int) := do
  let s ← get
  let pgdir := (s.procs c).pgdir
  match s.first (fun p => p.parent = some c ∧ p.pgdir = pgdir ∧ p.state = .ZOMBIE) with
  | some i =>
    let stackAddr := uint ((s.procs c).tf.esp + 7 * 4)
    let ebp := (s.procs i).tf.ebp
    store c stackAddr ebp
    store c stackAddr (uint (ebp + 3 * 4 + 2 ^ 32 - PGSIZE))
    reap i
    pure (some (s.procs i).pid)
  | none =>
    let y := s.first fun p => p.parent = some c ∧ p.pgdir = pgdir
    if y = none ∨ (s.procs c).killed then pure (some (-1))
    else
      sleep c .join (joinArg s c)
      pure none

/-- Kill the process with the given pid. -/
def kill (pid : Int) : ProcM Int := do
  let s ← get
  match s.first (fun p => p.pid = pid) with
  | some i =>
    modify (·.set i fun p =>
      { p with killed := true, state := if p.state = .SLEEPING then .RUNNABLE else p.state })
    pure 0
  | none => pure (-1)

/-- `proc->tf->eax = syscalls[num]()`. -/
def syscall (c : Nat) (call : ProcM Int) : ProcM Unit := do
  let n ← call
  modify (·.set c fun p => { p with tf := { p.tf with eax := ofInt n } })

/-- A call that may sleep returns to user code only with a result. -/
def sleepingCall (c : Nat) (call : ProcM (Option Int)) : ProcM Unit := do
  match ← call with
  | some n =>
    modify (·.set c fun p => { p with tf := { p.tf with eax := ofInt n }, inside := none })
  | none => pure ()

/-! ## Runs -/

inductive Act where
  /-- the scheduler chooses process `c` -/
  | run (c : Nat)
  | yield (c : Nat)
  /-- user code of `c` runs, up to its next trap -/
  | user (c : Nat) (tf : Trapframe) (mem : Mem)
  | fork (c : Nat) (m : Memory)
  | clone (c : Nat) (kstack : Bool)
  | exec (c : Nat) (image : Image)
  | exit (c : Nat)
  | wait (c : Nat)
  | join (c : Nat)
  | kill (c : Nat) (pid : Int)

/-- Process `c` is running, and in no call or in this one. -/
def Sys.runs (s : Sys) (c : Nat) (call : Option Call) : Prop :=
  c < NPROC ∧ (s.procs c).state = .RUNNING ∧
    ((s.procs c).inside = none ∨ (s.procs c).inside = call)

instance (s : Sys) (c : Nat) (call : Option Call) : Decidable (s.runs c call) :=
  inferInstanceAs (Decidable (_ ∧ _ ∧ _))

def scheduler (c : Nat) : ProcM Unit := modify (·.set c fun p => { p with state := .RUNNING })

def yield (c : Nat) : ProcM Unit := modify (·.set c fun p => { p with state := .RUNNABLE })

/-- User code leaves any values in its registers and in the pages that it can reach. -/
def user (c : Nat) (tf : Trapframe) (mem : Mem) : ProcM Unit :=
  modify fun s =>
    let sp := s.space c
    { s.set c fun p => { p with tf := tf } with
      spaces := Function.update s.spaces (s.procs c).pgdir
        { sp with mem := fun a => if sp.present (a / PGSIZE) then mem a else sp.mem a } }

/-- Whether the action can happen. -/
def enabled (s : Sys) : Act → Prop
  | .run c => c < NPROC ∧ (s.procs c).state = .RUNNABLE
  | .wait c => s.runs c (some .wait)
  | .join c => s.runs c (some .join)
  | .yield c | .user c _ _ | .fork c _ | .clone c _ | .exec c _ | .exit c | .kill c _ =>
    s.runs c none

instance (s : Sys) (a : Act) : Decidable (enabled s a) := by
  cases a <;> exact inferInstanceAs (Decidable (_ ∧ _))

/-- What the action does. -/
def act : Act → ProcM Unit
  | .run c => scheduler c
  | .yield c => yield c
  | .user c tf mem => user c tf mem
  | .fork c m => syscall c (fork c m)
  | .clone c kstack => syscall c (sys_clone c kstack)
  | .exec c image => syscall c (exec c image)
  | .exit c => exit c
  | .wait c => sleepingCall c (wait c)
  | .join c => sleepingCall c (join c)
  | .kill c pid => syscall c (kill pid)

/-- One step. After a panic nothing happens. -/
def step (s : Sys) (a : Act) : Option Sys :=
  if s.panicked = none ∧ enabled s a then
    match act a { s with stored := [] } with
    | .ok _ s' => some s'
    | .error msg s' => some { s' with panicked := some msg }
  else none

def SEG_UCODE : Nat := 4
def SEG_UDATA : Nat := 5
def DPL_USER : Nat := 3
def FL_IF : Nat := 0x200

/-- A slot of the table before its first use. -/
def unused : Proc :=
  { sz := 0, pgdir := 0, kstack := 0, state := .UNUSED, pid := 0, parent := none,
    tf := {}, chan := none, killed := false, inside := none, arg := 0,
    stack := none }

/-- After `userinit`: the first process, with one page of memory. -/
def userinit (initcode : Mem) : Sys :=
  let tf :=
    { cs := SEG_UCODE * 8 + DPL_USER, ds := SEG_UDATA * 8 + DPL_USER, es := SEG_UDATA * 8 + DPL_USER
      ss := SEG_UDATA * 8 + DPL_USER, eflags := FL_IF, esp := PGSIZE }
  let p := { unused with
    sz := PGSIZE, pgdir := 2, kstack := 1, state := .RUNNABLE, pid := 1, tf := tf }
  { procs := Function.update (fun _ => unused) 0 p
    initproc := 0
    nextpid := 2
    kalloced := 2
    spaces := Function.update (fun _ => ⟨fun _ => 0, fun _ => false⟩) 2
      ⟨initcode, fun i => i = 0⟩
    panicked := none
    freed := []
    stored := [] }

end xv6.proc
