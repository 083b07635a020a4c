-- mkfs.c: the program that builds the image of the first file system. It has its own code for
-- inodes, block addresses and the bitmap, over the sectors of the image file.
import Xv6.Dir

open bytes WP

namespace xv6.mkfs

open fs (Superblock Dinode IBLOCK dinodeAt setDinode setBit)
open dir (Name Dirent strncpy)

/-! ## The layout -/

/-- The blocks of the bitmap. -/
abbrev nbitmap : Nat := FSSIZE / (BSIZE * 8) + 1

abbrev ninodeblocks : Nat := NINODES / IPB + 1

/-- The number of meta blocks (boot, sb, log, inode, bitmap). -/
abbrev nmeta : Nat := 2 + nlog + ninodeblocks + nbitmap

/-- The number of data blocks. -/
abbrev nblocks : Nat := FSSIZE - nmeta

/-- The superblock that mkfs writes. -/
def sb : Superblock :=
  { size := FSSIZE, nblocks := nblocks, ninodes := NINODES, nlog := nlog, logstart := logstart
    inodestart := inodestart, bmapstart := inodestart + ninodeblocks }

/-- A block that starts with the superblock. -/
def superBlock : Block :=
  log.setWords (fun _ => 0) 0
    [sb.size, sb.nblocks, sb.ninodes, sb.nlog, sb.logstart, sb.inodestart, sb.bmapstart]

/-! ## The state -/

structure Image where
  /-- the sectors of the image file -/
  img : Disk
  /-- how many sectors the image file has -/
  len : Nat
  freeinode : Nat
  freeblock : Nat

/-- How mkfs can end before `exit(0)`. -/
inductive Exit where
  | exit (status : Nat)
  /-- a failed assertion -/
  | abort (assertion : String)
  deriving DecidableEq

abbrev MkfsM := EStateM Exit Image

/-- When mkfs starts: the image file is empty. -/
def Image.start : Image := { img := fun _ _ => 0, len := 0, freeinode := 1, freeblock := 0 }

/-! ## Sectors and inodes -/

/-- The sector at the file offset `sec * BSIZE`. -/
def sector (sec : Nat) : Nat := uint (sec * BSIZE) / BSIZE

def wsect (sec : Nat) (buf : Block) : MkfsM Unit :=
  modify fun s =>
    { s with img := Function.update s.img (sector sec) buf, len := max s.len (sector sec + 1) }

/-- Reading past the end of the image file fails. -/
def rsect (sec : Nat) : MkfsM Block := do
  let s ← get
  if sector sec < s.len then pure (s.img (sector sec)) else throw (.exit 1)

def winode (inum : Nat) (ip : Dinode) : MkfsM Unit := do
  let bn := IBLOCK inum sb
  let buf ← rsect bn
  wsect bn (setDinode buf (inum % IPB) ip)

def rinode (inum : Nat) : MkfsM Dinode := do
  let buf ← rsect (IBLOCK inum sb)
  pure (dinodeAt buf (inum % IPB))

def ialloc (type : UInt16) : MkfsM Nat := do
  let inum := (← get).freeinode
  modify fun s => { s with freeinode := inum + 1 }
  winode inum { Dinode.zero with type := type, nlink := 1 }
  pure inum

/-- The bits of the first `used` blocks. -/
def bitmap (used : Nat) : Block := (List.range used).foldl setBit fun _ => 0

def balloc (used : Nat) : MkfsM Unit :=
  if used < BSIZE * 8 then wsect sb.bmapstart (bitmap used) else throw (.abort "used < BSIZE*8")

/-! ## Contents of files -/

/-- `freeblock++`. -/
def takeBlock : MkfsM Nat := do
  let b := (← get).freeblock
  modify fun s => { s with freeblock := b + 1 }
  pure b

/-- `if(xint(din.addrs[i]) == 0) din.addrs[i] = xint(freeblock++);` -/
def fillAddr (din : Dinode) (i : Nat) : MkfsM Dinode := do
  if din.addr i = 0 then
    let b ← takeBlock
    pure (din.setAddr i b)
  else pure din

/-- The part of the loop of `iappend` that finds the block for `fbn`: the block and the inode. -/
def findBlock (din : Dinode) (fbn : Nat) : MkfsM (Nat × Dinode) := do
  if fbn < NDIRECT then
    let din ← fillAddr din fbn
    pure (din.addr fbn, din)
  else
    let din ← fillAddr din NDIRECT
    let indirect ← rsect (din.addr NDIRECT)
    if word indirect (fbn - NDIRECT) = 0 then
      let b ← takeBlock
      wsect (din.addr NDIRECT) (setWord indirect (fbn - NDIRECT) b)
      pure (word (setWord indirect (fbn - NDIRECT) b) (fbn - NDIRECT), din)
    else pure (word indirect (fbn - NDIRECT), din)

/-- The loop of `iappend`, with `n` bytes to go: the offset and the inode then. Every turn appends
at least one byte. -/
def appendLoop (p : Nat → UInt8) : Nat → Nat → Nat → Nat → Dinode → MkfsM (Nat × Dinode)
  | 0, _, off, _, din => pure (off, din)
  | fuel + 1, tot, off, n, din =>
    if n = 0 then pure (off, din)
    else do
      let fbn := off / BSIZE
      if ¬ fbn < MAXFILE then throw (.abort "fbn < MAXFILE")
      else
        let (x, din) ← findBlock din fbn
        let n1 := min n ((fbn + 1) * BSIZE - off)
        let buf ← rsect x
        wsect x (blit buf (off - fbn * BSIZE) n1 fun i => p (tot + i))
        appendLoop p fuel (tot + n1) (off + n1) (n - n1) din

/-- Append `n` bytes to the file of inode `inum`. -/
def iappend (inum : Nat) (p : Nat → UInt8) (n : Nat) : MkfsM Unit := do
  let din ← rinode inum
  let (off, din) ← appendLoop p n 0 din.size.toNat n din
  winode inum { din with size := UInt32.ofNat off }

/-! ## main -/

/-- A file on the command line. -/
structure Arg where
  name : Name
  /-- what the calls of `read` return before the last, or `none` if the file cannot be opened -/
  reads : Option (List (List UInt8))
  /-- the name is a C string -/
  name_ok : 0 ∉ name
  /-- `read` returns at most what fits in `buf` -/
  reads_ok : ∀ rs ∈ reads, ∀ buf ∈ rs, 0 < buf.length ∧ buf.length ≤ BSIZE

/-- The name without a leading '_'. -/
def Arg.base (a : Arg) : Name := if a.name.head? = some 95 then a.name.tail else a.name

/-- Write a directory entry to the root directory. -/
def appendDirent (rootino : Nat) (de : Dirent) : MkfsM Unit := iappend rootino de.byte 16

/-- The loop that copies a file. -/
def copyReads (inum : Nat) : List (List UInt8) → MkfsM Unit
  | [] => pure ()
  | buf :: rest => do
    iappend inum (fun i => buf.getD i 0) buf.length
    copyReads inum rest

/-- A turn of the loop over the command line. -/
def addFile (rootino : Nat) (a : Arg) : MkfsM Unit := do
  if 47 ∈ a.name then throw (.abort "index(argv[i], '/') == 0")
  else
    match a.reads with
    | none => throw (.exit 1)
    | some reads =>
      let inum ← ialloc T_FILE
      appendDirent rootino { inum := inum, name := strncpy DIRSIZ a.base }
      copyReads inum reads

def addFiles (rootino : Nat) : List Arg → MkfsM Unit
  | [] => pure ()
  | a :: rest => do
    addFile rootino a
    addFiles rootino rest

/-- The zeroed blocks and the superblock. -/
def format : MkfsM Unit := do
  modify fun s => { s with freeblock := nmeta }
  loop FSSIZE fun i => wsect i fun _ => 0
  wsect 1 superBlock

/-- Fix the size of the root directory. -/
def fixRoot (rootino : Nat) : MkfsM Unit := do
  let din ← rinode rootino
  let off := din.size.toNat
  winode rootino { din with size := UInt32.ofNat ((off / BSIZE + 1) * BSIZE) }

/-- `main`, for the files `args` on the command line after the image file, which could be opened. -/
def main (args : List Arg) : MkfsM Unit := do
  format
  let rootino ← ialloc T_DIR
  if rootino ≠ ROOTINO then throw (.abort "rootino == ROOTINO")
  else
    appendDirent rootino { inum := rootino, name := strncpy DIRSIZ [46] }
    appendDirent rootino { inum := rootino, name := strncpy DIRSIZ [46, 46] }
    addFiles rootino args
    fixRoot rootino
    let s ← get
    balloc s.freeblock

end xv6.mkfs
