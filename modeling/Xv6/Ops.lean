-- The system calls as programs of operations: the functions of fs.c for inodes, and what devices
-- and memory answer. An iput that frees an inode is several operations, since it lets go of the
-- cache between them, and so is a read or a write of a device, which unlocks the inode in between.
import Xv6.Exec
import Xv6.Prog

open prog WP

namespace xv6.ops

open dir sysfile image

/-! ## Operations -/

inductive Op where
  | iget (dev inum : Nat)
  | idup (k : Nat)
  | ilock (k : Nat)
  | iunlock (k : Nat)
  /-- `iput` up to the test whether to free the inode, which locks it then -/
  | iputTest (k : Nat)
  /-- the part of `iput` that frees the inode -/
  | iputFree (k : Nat)
  /-- the end of an `iput` that freed the inode, which unlocks it -/
  | iputDone (k : Nat)
  | ialloc (dev : Nat) (type : UInt16)
  | readi (k off n : Nat)
  | writei (k : Nat) (src : Nat → UInt8) (off n : Nat)
  /-- what a device gives to a read -/
  | devread (n : Nat)
  /-- what a device gives to a write -/
  | devwrite (n : Nat)
  | stat (k : Nat)
  | update (k : Nat) (f : Fields → Fields)
  | begin_op
  | end_op
  | panic (msg : String)
  /-- a number that says how a function of vm.c ends -/
  | memory

abbrev Res : Op → Type
  | .iget .. | .ialloc .. | .memory => Nat
  | .iputTest _ => Bool
  -- `none` where the function of a device is to be called
  | .readi .. => Option (Option (List UInt8))
  | .writei .. => Option Int
  | .devread _ => Option (List UInt8)
  | .devwrite _ => Int
  | .stat _ => Stat
  | .panic _ => Empty
  | .idup _ | .ilock _ | .iunlock _ | .iputFree _ | .iputDone _ | .update .. | .begin_op
  | .end_op => Unit

abbrev OpM := Prog Res

def perform (o : Op) : OpM (Res o) := op o

def iput (k : Nat) : OpM Unit := do
  let free : Bool ← perform (.iputTest k)
  if free then
    perform (.iputFree k)
    perform (.iputDone k)

/-- The device unlocks the inode while it waits. -/
def readi (k off n : Nat) : OpM (Option (List UInt8)) := do
  let r : Option (Option (List UInt8)) ← perform (.readi k off n)
  match r with
  | some r => pure r
  | none =>
    perform (.iunlock k)
    let r ← perform (.devread n)
    perform (.ilock k)
    pure r

def writei (k : Nat) (src : Nat → UInt8) (off n : Nat) : OpM Int := do
  let r : Option Int ← perform (.writei k src off n)
  match r with
  | some r => pure r
  | none =>
    perform (.iunlock k)
    let r ← perform (.devwrite n)
    perform (.ilock k)
    pure r

instance : Inodes OpM where
  iget dev inum := perform (.iget dev inum)
  idup k := do
    perform (.idup k)
    pure k
  ilock k := perform (.ilock k)
  iunlock k := perform (.iunlock k)
  iput := iput
  ialloc dev type := perform (.ialloc dev type)
  readi := readi
  writei := writei
  stat k := perform (.stat k)
  update k f := perform (.update k f)
  begin_op := perform .begin_op
  end_op := perform .end_op
  panic msg := do
    let e : Empty ← perform (.panic msg)
    nomatch e

/-- How vm.c gets on is all that a call sees of memory here. -/
instance : Pages OpM where
  setupkvm := do
    let n : Nat ← perform .memory
    pure (if n = 0 then none else some n)
  allocuvm _ _ _ := perform .memory
  freevm _ := pure ()
  clearpteu _ _ := pure ()
  pteAddr _ _ := do
    let n : Nat ← perform .memory
    pure (if n = 0 then none else some n)
  copyin _ _ _ := pure ()
  copyout _ _ _ := do
    let n : Nat ← perform .memory
    pure (n != 0)

/-! ## Calls -/

inductive Act where
  /-- a call of `sysfile` -/
  | call (c : Call)
  | exec (stack : List UInt8) (path : Name) (argv : List Name)
  | read (fd n : Int)
  | write (fd : Int) (src : Nat → UInt8) (n : Int)
  | fstat (fd : Int)

/-- Process `p` makes a call. -/
def program (t : Tables) (p : Nat) (proc : Proc) : Act → OpM Tables
  | .call c => call t p proc c
  | .exec stack path argv => do
    let _ ← exec proc.cwd 0 stack (str path) argv
    pure t
  -- what a pipe returns changes no table
  | .read fd n =>
    match argfd proc fd with
    | none => pure t
    | some f => do pure (← fileread t f n 0).2
  | .write fd src n =>
    match argfd proc fd with
    | none => pure t
    | some f => do pure (← filewrite t f src n 0).2
  | .fstat fd =>
    match argfd proc fd with
    | none => pure t
    | some f => do
      let _ ← filestat t f
      pure t

end xv6.ops
