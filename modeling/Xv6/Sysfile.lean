-- The system calls of sysfile.c that make, remove and open names, with the open files of file.c and
-- the end of a process. Calls run one after the other; each is one step of the machine at the end.
import Xv6.Dir
import Xv6.Runs
import Xv6.Sysread

open WP runs

namespace xv6.sysfile

open dir
open sysread (FileType OpenFile)
open dir.Inodes hiding panic

/-! ## Processes and open files -/

/-- What sysfile.c reads and writes of a process. -/
structure Proc where
  /-- the entry of the inode cache for the current directory -/
  cwd : Nat
  /-- where `none` is a null pointer -/
  ofile : Nat → Option Nat

structure Tables where
  /-- `ftable.file`, of which the first NFILE are there -/
  ftable : Nat → OpenFile
  /-- the processes, without those that have exited -/
  procs : Nat → Option Proc

namespace Tables

def setFile (t : Tables) (f : Nat) (x : OpenFile) : Tables :=
  { t with ftable := Function.update t.ftable f x }

def setProc (t : Tables) (p : Nat) (x : Option Proc) : Tables :=
  { t with procs := Function.update t.procs p x }

end Tables

/-- Allocate a file structure. -/
def filealloc (t : Tables) : Option (Nat × Tables) :=
  match (List.range NFILE).find? fun f => (t.ftable f).ref = 0 with
  | some f => some (f, t.setFile f { t.ftable f with ref := 1 })
  | none => none

/-- Allocate a file descriptor for the given file. -/
def fdalloc (t : Tables) (p : Nat) (proc : Proc) (f : Nat) : Option (Nat × Tables) :=
  match (List.range NOFILE).find? fun fd => (proc.ofile fd).isNone with
  | some fd =>
    some (fd, t.setProc p (some { proc with ofile := Function.update proc.ofile fd (some f) }))
  | none => none

section

variable {m : Type → Type} [Monad m] [Inodes m]

/-- Close file `f`. The end of a pipe is not in the file system. -/
def fileclose (t : Tables) (f : Nat) : m Tables :=
  let ff := t.ftable f
  if ff.ref < 1 then Inodes.panic "fileclose"
  else if ff.ref - 1 > 0 then pure (t.setFile f { ff with ref := ff.ref - 1 })
  else
    let t := t.setFile f { ff with ref := 0, type := .FD_NONE }
    match ff.type with
    | .FD_INODE => do
      begin_op
      iput ff.ip
      end_op
      pure t
    | _ => pure t

/-! ## The calls -/

/-- Create the path `new` as a link to the same inode as `old`. -/
def sys_link (proc : Proc) (old new : Name) : m Int := do
  begin_op
  match ← namei proc.cwd old with
  | none =>
    end_op
    pure (-1)
  | some ip =>
    ilock ip
    if (← stat ip).type = T_DIR then
      iunlockput ip
      end_op
      pure (-1)
    else
      update ip fun x => { x with nlink := x.nlink + 1 }
      iunlock ip
      let done ← match ← nameiparent proc.cwd new with
        | none => pure false
        | some (dp, name) => do
          ilock dp
          if (← stat dp).dev ≠ (← stat ip).dev then
            iunlockput dp
            pure false
          else if (← dirlink dp name (← stat ip).inum) < 0 then
            iunlockput dp
            pure false
          else
            iunlockput dp
            pure true
      if done then
        iput ip
        end_op
        pure 0
      else
        -- bad:
        ilock ip
        update ip fun x => { x with nlink := x.nlink - 1 }
        iunlockput ip
        end_op
        pure (-1)

/-- The loop of `isdirempty`, with `n` turns to go. -/
def emptyDirFrom (dp : Nat) : Nat → Nat → m Bool
  | 0, _ => pure true
  | n + 1, off => do
    let de ← readDirent dp off "isdirempty: readi"
    if de.inum ≠ 0 then pure false else emptyDirFrom dp n (off + 16)

/-- Is the directory `dp` empty except for "." and ".." ? -/
def isdirempty (dp : Nat) : m Bool := do
  emptyDirFrom dp (turns ((← stat dp).size - 32)) 32

def sys_unlink (proc : Proc) (path : Name) : m Int := do
  begin_op
  match ← nameiparent proc.cwd path with
  | none =>
    end_op
    pure (-1)
  | some (dp, name) =>
    ilock dp
    -- cannot unlink "." or ".."
    if namecmp name [46] = 0 ∨ namecmp name [46, 46] = 0 then
      iunlockput dp
      end_op
      pure (-1)
    else
      match ← dirlookup dp name with
      | none =>
        iunlockput dp
        end_op
        pure (-1)
      | some (ip, off) =>
        ilock ip
        let d ← stat ip
        if short d.nlink < 1 then Inodes.panic "unlink: nlink < 1"
        else
          let full ← if d.type = T_DIR then do pure (!(← isdirempty ip)) else pure false
          if full then
            iunlockput ip
            iunlockput dp
            end_op
            pure (-1)
          else
            if (← writei dp (fun _ => 0) off 16) ≠ 16 then Inodes.panic "unlink: writei"
            else
              if d.type = T_DIR then update dp fun x => { x with nlink := x.nlink - 1 }
              iunlockput dp
              update ip fun x => { x with nlink := x.nlink - 1 }
              iunlockput ip
              end_op
              pure 0

def create (proc : Proc) (path : Name) (type major minor : UInt16) : m (Option Nat) := do
  match ← nameiparent proc.cwd path with
  | none => pure none
  | some (dp, name) =>
    ilock dp
    match ← dirlookup dp name with
    | some (ip, _) =>
      iunlockput dp
      ilock ip
      if type = T_FILE ∧ (← stat ip).type = T_FILE then pure (some ip)
      else
        iunlockput ip
        pure none
    | none =>
      let ip ← ialloc (← stat dp).dev type
      ilock ip
      update ip fun _ => { major := major, minor := minor, nlink := 1 }
      -- create . and .. entries
      if type = T_DIR then
        update dp fun x => { x with nlink := x.nlink + 1 }
        if (← dirlink ip [46] (← stat ip).inum) < 0 then Inodes.panic "create dots"
        if (← dirlink ip [46, 46] (← stat dp).inum) < 0 then Inodes.panic "create dots"
      if (← dirlink dp name (← stat ip).inum) < 0 then Inodes.panic "create: dirlink"
      iunlockput dp
      pure (some ip)

def sys_open (t : Tables) (p : Nat) (proc : Proc) (path : Name) (omode : Nat) :
    m (Int × Tables) := do
  begin_op
  let found ← if omode &&& O_CREATE ≠ 0 then create proc path T_FILE 0 0
    else do
      match ← namei proc.cwd path with
      | none => pure none
      | some ip =>
        ilock ip
        if (← stat ip).type = T_DIR ∧ omode ≠ O_RDONLY then
          iunlockput ip
          pure none
        else pure (some ip)
  match found with
  | none =>
    end_op
    pure (-1, t)
  | some ip =>
    match filealloc t with
    | none =>
      iunlockput ip
      end_op
      pure (-1, t)
    | some (f, t) =>
      match fdalloc t p proc f with
      | none =>
        let t ← fileclose t f
        iunlockput ip
        end_op
        pure (-1, t)
      | some (fd, t) =>
        iunlock ip
        end_op
        let file : OpenFile := { t.ftable f with
          type := .FD_INODE, ip := ip, off := 0, readable := omode &&& O_WRONLY = 0
          writable := omode &&& O_WRONLY ≠ 0 || omode &&& O_RDWR ≠ 0 }
        pure (fd, t.setFile f file)

/-- `argstr(0, &path) < 0 || (ip = f(path)) == 0`, where `none` is a path that `argstr` does not
fetch. -/
def withPath (path : Option Name) (f : Name → m (Option Nat)) : m (Option Nat) :=
  match path with
  | none => pure none
  | some path => f path

def sys_mkdir (proc : Proc) (path : Option Name) : m Int := do
  begin_op
  match ← withPath path fun path => create proc path T_DIR 0 0 with
  | none =>
    end_op
    pure (-1)
  | some ip =>
    iunlockput ip
    end_op
    pure 0

def sys_mknod (proc : Proc) (path : Option Name) (major minor : UInt16) : m Int := do
  begin_op
  match ← withPath path fun path => create proc path T_DEV major minor with
  | none =>
    end_op
    pure (-1)
  | some ip =>
    iunlockput ip
    end_op
    pure 0

def sys_chdir (t : Tables) (p : Nat) (proc : Proc) (path : Option Name) : m (Int × Tables) := do
  begin_op
  match ← withPath path fun path => namei proc.cwd path with
  | none =>
    end_op
    pure (-1, t)
  | some ip =>
    ilock ip
    if (← stat ip).type ≠ T_DIR then
      iunlockput ip
      end_op
      pure (-1, t)
    else
      iunlock ip
      iput proc.cwd
      end_op
      pure (0, t.setProc p (some { proc with cwd := ip }))

def sys_close (t : Tables) (p : Nat) (proc : Proc) (fd : Int) : m (Int × Tables) :=
  match if fd < 0 ∨ fd ≥ NOFILE then none else proc.ofile fd.toNat with
  | none => pure (-1, t)
  | some f => do
    let t := t.setProc p (some { proc with ofile := Function.update proc.ofile fd.toNat none })
    let t ← fileclose t f
    pure (0, t)

/-- The loop of `exit` that closes all open files, with `n` turns to go. -/
def closeFrom (proc : Proc) : Nat → Nat → Tables → m Tables
  | 0, _, t => pure t
  | n + 1, fd, t =>
    match proc.ofile fd with
    | none => closeFrom proc n (fd + 1) t
    | some f => do
      let t ← fileclose t f
      closeFrom proc n (fd + 1) t

/-- The part of `exit` that is about files. -/
def exit (t : Tables) (p : Nat) (proc : Proc) : m Tables := do
  let t ← closeFrom proc NOFILE 0 t
  begin_op
  iput proc.cwd
  end_op
  pure (t.setProc p none)

/-! ## The machine -/

/-- A path is `none` if `argstr` does not fetch it. The calls with a plain path do nothing then. -/
inductive Call where
  | open (path : Name) (omode : Nat)
  | mkdir (path : Option Name)
  | mknod (path : Option Name) (major minor : UInt16)
  | link (old new : Name)
  | unlink (path : Name)
  | chdir (path : Option Name)
  | close (fd : Int)
  | exit

/-- A string that `argstr` fetches ends at the null byte. -/
def str (path : Name) : Name := path.takeWhile (· ≠ 0)

/-- Process `p` makes a call. -/
def call (t : Tables) (p : Nat) (proc : Proc) : Call → m Tables
  | .open path omode => do pure (← sys_open t p proc (str path) omode).2
  | .mkdir path => do
    let _ ← sys_mkdir proc (path.map str)
    pure t
  | .mknod path major minor => do
    let _ ← sys_mknod proc (path.map str) major minor
    pure t
  | .link old new => do
    let _ ← sys_link proc (str old) (str new)
    pure t
  | .unlink path => do
    let _ ← sys_unlink proc (str path)
    pure t
  | .chdir path => do pure (← sys_chdir t p proc (path.map str)).2
  | .close fd => do pure (← sys_close t p proc fd).2
  | .exit => exit t p proc

end

structure Sys where
  fs : fs.Fs
  tables : Tables

end xv6.sysfile
