-- The open files of file.c and the calls that make, copy and close descriptors, under any
-- interleaving: open, dup, close, pipe, fork, clone and exit. A step is a critical section of
-- ftable.lock, p->lock or ptable.lock, or what a process does to its own descriptors. What namei
-- and create find, and whether kalloc has a page, is chosen from outside.
import Xv6.Places
import Xv6.Pool
import Xv6.Proc
import Xv6.Runs
import Xv6.Sysread

open places runs pool

namespace xv6.file

open proc (Procstate)
open sysread (FileType)

/-! ## The state -/

/-- What a file was opened on: one end of a pipe, or an inode for the `n`-th time. -/
inductive Opening where
  | pipe (i : Nat) (writable : Bool)
  | inode (n : Nat)
  deriving DecidableEq

/-- `struct file`. A pipe is named by the number of the `kalloc` that it came from. -/
structure File where
  type : FileType
  ref : Nat
  readable : Bool
  writable : Bool
  pipe : Nat
  ip : Nat
  off : Nat
  /-- history: the number of this opening of an inode -/
  nth : Nat
  deriving DecidableEq

def File.opening (f : File) : Option Opening :=
  match f.type with
  | .FD_NONE => none
  | .FD_PIPE => some (.pipe f.pipe f.writable)
  | .FD_INODE => some (.inode f.nth)

/-- What the calls use of `struct pipe`. -/
structure Pipe where
  readopen : Bool
  writeopen : Bool

/-- What a process does after `fileclose`. -/
inductive Cont where
  | done
  /-- `fileclose` of the other file of a pipe -/
  | fileclose (f : Nat)
  /-- `proc->ofile[fd] = 0` in `exit` -/
  | exit_clear (fd : Nat)
  deriving DecidableEq

/-- Where a process stands. -/
inductive Pc where
  /-- outside of the calls below -/
  | user
  /-- in `sys_open`, at `filealloc` -/
  | open_file (ip omode : Nat)
  /-- in `sys_open`, at `fdalloc` -/
  | open_fd (f ip omode : Nat)
  /-- in `sys_open`, at `f->type = FD_INODE` -/
  | open_set (f fd ip omode : Nat)
  /-- in `sys_dup`, at `filedup` -/
  | dup (f fd : Nat)
  /-- at `fileclose` -/
  | fileclose (f : Nat) (k : Cont)
  /-- in `fileclose`, after it dropped the last reference -/
  | close (ff : File) (k : Cont)
  /-- in `pipealloc`, at the first and the second `filealloc` and at `kalloc` -/
  | pipe_file0
  | pipe_file1 (f0 : Nat)
  | pipe_kalloc (f0 f1 : Nat)
  /-- in `sys_pipe`, at the first and the second `fdalloc` -/
  | pipe_fd0 (rf wf : Nat)
  | pipe_fd1 (rf wf fd0 : Nat)
  /-- in `fork` or `clone`, in or after `allocproc` -/
  | embryo (np : Nat) (thread : Bool)
  /-- in `fork` or `clone`, at descriptor `i` of the loop -/
  | copy (np i : Nat)
  /-- in `exit`, at descriptor `fd` of the loop -/
  | exit (fd : Nat)
  /-- in `exit`, at `proc->ofile[fd] = 0` -/
  | exit_clear (fd : Nat)
  deriving DecidableEq

def Cont.pc : Cont → Pc
  | .done => .user
  | .fileclose f => .fileclose f .done
  | .exit_clear fd => .exit_clear fd

/-- What the calls use of `struct proc`. A process that is SLEEPING or RUNNING
counts as RUNNABLE. -/
structure Proc where
  state : Procstate
  /-- where `none` is a null pointer -/
  ofile : Nat → Option Nat
  pc : Pc

structure Sys where
  /-- `ftable.file`, of which the first NFILE are there -/
  ftable : Nat → File
  procs : Nat → Proc
  initproc : Nat
  pipes : Nat → Pipe
  /-- the number of pipes that `kalloc` has returned -/
  kalloced : Nat
  /-- history: how often a pipe was given to `kfree` -/
  kfreed : Nat → Nat
  /-- history: how many openings of inodes there were -/
  opened : Nat
  /-- history: how often `pipeclose` or `iput` was called for an opening -/
  ended : Opening → Nat
  panicked : Option String

/-- After `userinit`: the first process, without open files. -/
def userinit (pipes : Nat → Pipe) : Sys :=
  { ftable := fun _ => ⟨.FD_NONE, 0, false, false, 0, 0, 0, 0⟩
    procs := Function.update (fun _ => ⟨.UNUSED, fun _ => none, .user⟩) 0
      ⟨.RUNNABLE, fun _ => none, .user⟩
    initproc := 0, pipes := pipes, kalloced := 0, kfreed := fun _ => 0, opened := 0
    ended := fun _ => 0, panicked := none }

namespace Sys

def set (s : Sys) (p : Nat) (P : Proc) : Sys := { s with procs := Function.update s.procs p P }

def goto (s : Sys) (p : Nat) (x : Pc) : Sys := s.set p { s.procs p with pc := x }

def setFile (s : Sys) (f : Nat) (F : File) : Sys :=
  { s with ftable := Function.update s.ftable f F }

def stop (s : Sys) (msg : String) : Sys := { s with panicked := some msg }

end Sys

/-! ## file.c and pipe.c -/

/-- Allocate a file structure. -/
def filealloc (s : Sys) : Option (Nat × Sys) :=
  ((List.range NFILE).find? fun f => (s.ftable f).ref = 0).map fun f =>
    (f, s.setFile f { s.ftable f with ref := 1 })

/-- Increment ref count for file `f`. -/
def filedup (s : Sys) (f : Nat) : Except String Sys :=
  if (s.ftable f).ref < 1 then throw "filedup"
  else pure (s.setFile f { s.ftable f with ref := (s.ftable f).ref + 1 })

/-- The critical section of `fileclose`. It returns the file if that was the last reference. -/
def fileclose (s : Sys) (f : Nat) : Except String (Sys × Option File) :=
  if (s.ftable f).ref < 1 then throw "fileclose"
  else if (s.ftable f).ref - 1 > 0 then
    pure (s.setFile f { s.ftable f with ref := (s.ftable f).ref - 1 }, none)
  else
    pure (s.setFile f { s.ftable f with ref := 0, type := .FD_NONE },
      some { s.ftable f with ref := (s.ftable f).ref - 1 })

def Pipe.close (pipe : Pipe) (writable : Bool) : Pipe :=
  if writable then { pipe with writeopen := false } else { pipe with readopen := false }

/-- `pipeclose` of pipe `i`. -/
def pipeclose (s : Sys) (i : Nat) (writable : Bool) : Sys :=
  { s with
    pipes := Function.update s.pipes i ((s.pipes i).close writable)
    kfreed :=
      if ((s.pipes i).close writable).readopen = false ∧
      ((s.pipes i).close writable).writeopen = false then
        Function.update s.kfreed i (s.kfreed i + 1)
      else s.kfreed }

/-- The rest of `fileclose`, for the last reference. -/
def closeLast (s : Sys) (ff : File) : Sys :=
  match ff.opening with
  | none => s
  | some o =>
    let s := { s with ended := Function.update s.ended o (s.ended o + 1) }
    match o with
    | .pipe i writable => pipeclose s i writable
    | .inode _ => s

/-- `pipealloc` with its two files and a page: the pipe and what the files are. -/
def pipeinit (s : Sys) (f0 f1 : Nat) : Sys :=
  let i := s.kalloced + 1
  let s := { s with pipes := Function.update s.pipes i ⟨true, true⟩, kalloced := i }
  let s := s.setFile f0 { s.ftable f0 with
      type := .FD_PIPE, readable := true, writable := false, pipe := i }
  s.setFile f1 { s.ftable f1 with type := .FD_PIPE, readable := false, writable := true, pipe := i }

/-- The end of `sys_open`. -/
def openinit (s : Sys) (f ip omode : Nat) : Sys :=
  { s.setFile f { s.ftable f with
      type := .FD_INODE, ip := ip, off := 0, readable := omode &&& 1 = 0
      writable := omode &&& 1 ≠ 0 || omode &&& 2 ≠ 0, nth := s.opened } with
    opened := s.opened + 1 }

/-! ## sysfile.c and proc.c -/

/-- Fetch the descriptor `fd` and its file. -/
def argfd (P : Proc) (fd : Nat) : Option Nat := if fd < NOFILE then P.ofile fd else none

def Proc.setOfile (P : Proc) (fd : Nat) (f : Option Nat) : Proc :=
  { P with ofile := Function.update P.ofile fd f }

/-- Allocate a file descriptor for the given file. -/
def fdalloc (P : Proc) (f : Nat) : Option (Nat × Proc) :=
  ((List.range NOFILE).find? fun fd => P.ofile fd = none).map fun fd => (fd, P.setOfile fd (some f))

/-- The first UNUSED process of the table. -/
def allocproc (s : Sys) : Option Nat :=
  (List.range NPROC).find? fun np => (s.procs np).state = .UNUSED

def Sys.setState (s : Sys) (p : Nat) (x : Procstate) : Sys := s.set p { s.procs p with state := x }

/-- The next step of process `p` in the call it is in. `mem` says whether there is enough memory. -/
def go (s : Sys) (p : Nat) (mem : Bool) : Option Sys :=
  let P := s.procs p
  match P.pc with
  | .user => none
  | .open_file ip omode =>
    match filealloc s with
    | none => some (s.goto p .user)
    | some (f, s) => some (s.goto p (.open_fd f ip omode))
  | .open_fd f ip omode =>
    match fdalloc P f with
    | none => some (s.goto p (.fileclose f .done))
    | some (fd, P) => some (s.set p { P with pc := .open_set f fd ip omode })
  | .open_set f _ ip omode => some ((openinit s f ip omode).goto p .user)
  | .dup f _ =>
    match filedup s f with
    | .error msg => some (s.stop msg)
    | .ok s => some (s.goto p .user)
  | .fileclose f k =>
    match fileclose s f with
    | .error msg => some (s.stop msg)
    | .ok (s, none) => some (s.goto p k.pc)
    | .ok (s, some ff) => some (s.goto p (.close ff k))
  | .close ff k => some ((closeLast s ff).goto p k.pc)
  | .pipe_file0 =>
    match filealloc s with
    | none => some (s.goto p .user)
    | some (f0, s) => some (s.goto p (.pipe_file1 f0))
  | .pipe_file1 f0 =>
    match filealloc s with
    | none => some (s.goto p (.fileclose f0 .done))
    | some (f1, s) => some (s.goto p (.pipe_kalloc f0 f1))
  | .pipe_kalloc f0 f1 =>
    if mem then some ((pipeinit s f0 f1).goto p (.pipe_fd0 f0 f1))
    else some (s.goto p (.fileclose f0 (.fileclose f1)))
  | .pipe_fd0 rf wf =>
    match fdalloc P rf with
    | none => some (s.goto p (.fileclose rf (.fileclose wf)))
    | some (fd0, P) => some (s.set p { P with pc := .pipe_fd1 rf wf fd0 })
  | .pipe_fd1 rf wf fd0 =>
    match fdalloc P wf with
    | none => some (s.set p { P.setOfile fd0 none with pc := .fileclose rf (.fileclose wf) })
    | some (_, P) => some (s.set p { P with pc := .user })
  | .embryo np _ =>
    if mem then some (s.goto p (.copy np 0)) else some ((s.setState np .UNUSED).goto p .user)
  | .copy np i =>
    if i < NOFILE then
      match P.ofile i with
      | none => some (s.goto p (.copy np (i + 1)))
      | some f =>
        match filedup s f with
        | .error msg => some (s.stop msg)
        | .ok s => some ((s.set np ((s.procs np).setOfile i (some f))).goto p (.copy np (i + 1)))
    else some ((s.setState np .RUNNABLE).goto p .user)
  | .exit fd =>
    if fd < NOFILE then
      match P.ofile fd with
      | none => some (s.goto p (.exit (fd + 1)))
      | some f => some (s.goto p (.fileclose f (.exit_clear fd)))
    else some (s.set p { P with state := .ZOMBIE, pc := .user })
  | .exit_clear fd => some (s.set p { P.setOfile fd none with pc := .exit (fd + 1) })

/-- What can happen next. -/
inductive Act where
  /-- process `p` calls `sys_open`, and `namei` or `create` finds this inode -/
  | open (p : Nat) (ip : Option Nat) (omode : Nat)
  | dup (p fd : Nat)
  | close (p fd : Nat)
  | pipe (p : Nat)
  | fork (p : Nat)
  | clone (p : Nat)
  | exit (p : Nat)
  /-- the parent of process `q` finds it in `wait` or `join` -/
  | reap (q : Nat)
  /-- process `p` goes on in the call it is in -/
  | go (p : Nat) (mem : Bool)
  /-- process `p` traps at the stack that it gave to `clone` -/
  | trap (p : Nat)

/-- The process that takes the action. -/
def Act.proc : Act → Nat
  | .open p _ _ | .dup p _ | .close p _ | .pipe p | .fork p | .clone p | .exit p | .reap p | .go p _
  | .trap p => p

/-- The first step of a call of process `p`. -/
def call (s : Sys) (p : Nat) : Act → Sys
  | .open _ ip omode =>
    match ip with
    | none => s
    | some ip => s.goto p (.open_file ip omode)
  | .dup _ fd =>
    match argfd (s.procs p) fd with
    | none => s
    | some f =>
      match fdalloc (s.procs p) f with
      | none => s
      | some (fd', P) => s.set p { P with pc := .dup f fd' }
  | .close _ fd =>
    match argfd (s.procs p) fd with
    | none => s
    | some f => s.set p { (s.procs p).setOfile fd none with pc := .fileclose f .done }
  | .pipe _ => s.goto p .pipe_file0
  | .fork _ =>
    match allocproc s with
    | none => s
    | some np => (s.setState np .EMBRYO).goto p (.embryo np false)
  | .clone _ =>
    match allocproc s with
    | none => s
    | some np => (s.setState np .EMBRYO).goto p (.embryo np true)
  | .exit _ => if p = s.initproc then s.stop "init exiting" else s.goto p (.exit 0)
  | _ => s

def step (s : Sys) (a : Act) : Option Sys :=
  if s.panicked.isSome ∨ NPROC ≤ a.proc then none
  else
    match a with
    | .go p mem => go s p mem
    | .reap q => if (s.procs q).state = .ZOMBIE then some (s.setState q .UNUSED) else none
    | .trap p =>
      match (s.procs p).pc with
      | .embryo _ true => some (s.stop "trap")
      | _ => none
    | a =>
      if (s.procs a.proc).state = .RUNNABLE ∧ (s.procs a.proc).pc = .user then
        some (call s a.proc a)
      else none

end xv6.file
