-- The blocks and inodes of fs.c: the bitmap of free blocks, the inodes on the disk and in the
-- inode cache, and the contents of files. The buffer cache and the log are seen through the
-- contents that they give to blocks; the log's header counts the blocks of a transaction.
import Xv6.Log

open bytes WP

namespace xv6.fs

/-! ## The disk format -/

structure Superblock where
  /-- the size of the file system image, in blocks -/
  size : Nat
  nblocks : Nat
  ninodes : Nat
  nlog : Nat
  logstart : Nat
  inodestart : Nat
  bmapstart : Nat
  deriving DecidableEq

/-- The superblock that a block holds. -/
def superblockAt (b : Block) : Superblock :=
  { size := word b 0, nblocks := word b 1, ninodes := word b 2, nlog := word b 3,
    logstart := word b 4, inodestart := word b 5, bmapstart := word b 6 }

/-- The block that holds inode `i`. -/
def IBLOCK (i : Nat) (sb : Superblock) : Nat := i / IPB + sb.inodestart

/-- The block of the free map with the bit for block `b`. -/
def BBLOCK (b : Nat) (sb : Superblock) : Nat := b / BPB + sb.bmapstart

/-- `struct dinode`. -/
@[ext]
structure Dinode where
  type : UInt16
  major : UInt16
  minor : UInt16
  nlink : UInt16
  size : UInt32
  addrs : Fin (NDIRECT + 1) → UInt32

def Dinode.zero : Dinode := ⟨0, 0, 0, 0, 0, fun _ => 0⟩

/-- `addrs[i]`. -/
def Dinode.addr (d : Dinode) (i : Nat) : Nat := (d.addrs (Fin.ofNat _ i)).toNat

def Dinode.setAddr (d : Dinode) (i a : Nat) : Dinode :=
  { d with addrs := Function.update d.addrs (Fin.ofNat _ i) (UInt32.ofNat a) }

/-- The `j`-th `struct dinode` of a block. -/
def dinodeAt (b : Block) (j : Nat) : Dinode :=
  { type := UInt16.ofNat (le b (64 * j) 2)
    major := UInt16.ofNat (le b (64 * j + 2) 2)
    minor := UInt16.ofNat (le b (64 * j + 4) 2)
    nlink := UInt16.ofNat (le b (64 * j + 6) 2)
    size := UInt32.ofNat (le b (64 * j + 8) 4)
    addrs := fun i => UInt32.ofNat (le b (64 * j + 12 + 4 * i) 4) }

/-- The bytes of a `struct dinode`. -/
def Dinode.byte (d : Dinode) (a : Nat) : UInt8 :=
  if a < 2 then UInt8.ofNat (d.type.toNat / 256 ^ a)
  else if a < 4 then UInt8.ofNat (d.major.toNat / 256 ^ (a - 2))
  else if a < 6 then UInt8.ofNat (d.minor.toNat / 256 ^ (a - 4))
  else if a < 8 then UInt8.ofNat (d.nlink.toNat / 256 ^ (a - 6))
  else if a < 12 then UInt8.ofNat (d.size.toNat / 256 ^ (a - 8))
  else UInt8.ofNat (d.addr ((a - 12) / 4) / 256 ^ ((a - 12) % 4))

/-- The block with its `j`-th `struct dinode` set. -/
def setDinode (b : Block) (j : Nat) (d : Dinode) : Block := blit b (64 * j) 64 d.byte

/-- `data[bi/8] & (1 << (bi % 8))`, as a truth value. -/
def bitSet (data : Block) (bi : Nat) : Bool :=
  data (bi / 8) &&& ((1 : UInt8) <<< UInt8.ofNat (bi % 8)) != 0

def setBit (data : Block) (bi : Nat) : Block :=
  Function.update data (bi / 8) (data (bi / 8) ||| ((1 : UInt8) <<< UInt8.ofNat (bi % 8)))

def clearBit (data : Block) (bi : Nat) : Block :=
  Function.update data (bi / 8) (data (bi / 8) &&& ~~~((1 : UInt8) <<< UInt8.ofNat (bi % 8)))

/-! ## The state -/

/-- `struct inode`: the in-memory copy of an inode. -/
structure Inode where
  dev : Nat
  inum : Nat
  ref : Int
  /-- I_BUSY -/
  busy : Bool
  /-- I_VALID -/
  valid : Bool
  /-- the copy of the disk inode -/
  din : Dinode

/-- The functions of a device, where `none` is a null pointer. -/
structure Devsw where
  /-- what reading `n` bytes returns: the bytes, or -1 -/
  read : Option (Nat → Option (List UInt8))
  write : Option ((Nat → UInt8) → Nat → Int)

structure Fs where
  sb : Superblock
  /-- the contents of the blocks, as `bread` gives them -/
  blocks : Disk
  /-- `log.size` -/
  logsize : Nat
  /-- `log.outstanding` -/
  outstanding : Int
  /-- `log.lh` -/
  lh : List Nat
  /-- `icache.inode`, of which the first NINODE are there -/
  icache : Nat → Inode
  devsw : Nat → Devsw

/-- How a call can stop without a return. -/
inductive Stop where
  | panic (msg : String)
  /-- it sleeps for a lock that nobody will release -/
  | sleeps
  deriving DecidableEq

abbrev FsM := EStateM Stop Fs

def setInode (k : Nat) (f : Inode → Inode) : FsM Unit :=
  modify fun s => { s with icache := Function.update s.icache k (f (s.icache k)) }

/-- Change the copy of the disk inode. -/
def setDin (k : Nat) (f : Dinode → Dinode) : FsM Unit :=
  setInode k fun ip => { ip with din := f ip.din }

/-! ## Blocks -/

def bread (bno : Nat) : FsM Block := do
  pure ((← get).blocks bno)

/-- `log_write` of a buffer for block `bno` that the caller filled with `data`. -/
def log_write (bno : Nat) (data : Block) : FsM Unit := do
  let s ← get
  if log.tooBig s.lh s.logsize then throw (.panic "too big a transaction")
  else if s.outstanding < 1 then throw (.panic "log_write outside of trans")
  else modify fun s =>
    { s with lh := log.absorb s.lh bno, blocks := Function.update s.blocks bno data }

/-- Read the super block. -/
def readsb : FsM Unit := do
  let bp ← bread 1
  modify fun s => { s with sb := superblockAt bp }

/-- Zero a block. -/
def bzero (bno : Nat) : FsM Unit := log_write bno fun _ => 0

/-- The inner loop of `balloc`: the first clear bit, from `bi` on, for a block below `size`. -/
def freeBit (data : Block) (size b : Nat) : Nat → Nat → Option Nat
  | 0, _ => none
  | k + 1, bi =>
    if b + bi < size then
      if bitSet data bi then freeBit data size b k (bi + 1) else some bi
    else none

/-- The outer loop of `balloc`, with `k` bitmap blocks to go. -/
def ballocFrom (sb : Superblock) : Nat → Nat → FsM Nat
  | 0, _ => throw (.panic "balloc: out of blocks")
  | k + 1, b => do
    let bp ← bread (BBLOCK b sb)
    match freeBit bp sb.size b BPB 0 with
    | some bi =>
      log_write (BBLOCK b sb) (setBit bp bi)
      bzero (b + bi)
      pure (b + bi)
    | none => ballocFrom sb k (b + BPB)

/-- Allocate a zeroed disk block. -/
def balloc : FsM Nat := do
  let sb := (← get).sb
  ballocFrom sb ((sb.size + BPB - 1) / BPB) 0

/-- Free a disk block. -/
def bfree (b : Nat) : FsM Unit := do
  readsb
  let sb := (← get).sb
  let bp ← bread (BBLOCK b sb)
  let bi := b % BPB
  if bitSet bp bi then log_write (BBLOCK b sb) (clearBit bp bi)
  else throw (.panic "freeing free block")

/-! ## Inodes -/

/-- The first entry of the inode cache, in a scan of it, that passes the test. -/
def Fs.first (s : Fs) (test : Inode → Bool) : Option Nat :=
  (List.range NINODE).find? fun k => test (s.icache k)

/-- Find the inode with number `inum` on device `dev` and return its entry in the cache. -/
def iget (dev inum : Nat) : FsM Nat := do
  let s ← get
  match s.first fun ip => ip.ref > 0 ∧ ip.dev = dev ∧ ip.inum = inum with
  | some k =>
    setInode k fun ip => { ip with ref := ip.ref + 1 }
    pure k
  | none =>
    match s.first fun ip => ip.ref = 0 with
    | none => throw (.panic "iget: no inodes")
    | some k =>
      setInode k fun ip =>
        { ip with dev := dev, inum := inum, ref := 1, busy := false, valid := false }
      pure k

/-- The loop of `ialloc`, with `k` inodes to go. -/
def iallocFrom (dev : Nat) (type : UInt16) : Nat → Nat → FsM Nat
  | 0, _ => throw (.panic "ialloc: no inodes")
  | k + 1, inum => do
    let sb := (← get).sb
    let bp ← bread (IBLOCK inum sb)
    if (dinodeAt bp (inum % IPB)).type = 0 then
      log_write (IBLOCK inum sb) (setDinode bp (inum % IPB) { Dinode.zero with type := type })
      iget dev inum
    else iallocFrom dev type k (inum + 1)

/-- Allocate a new inode with the given type on device `dev`. -/
def ialloc (dev : Nat) (type : UInt16) : FsM Nat := do
  iallocFrom dev type ((← get).sb.ninodes - 1) 1

/-- Copy a modified in-memory inode to disk. -/
def iupdate (k : Nat) : FsM Unit := do
  let s ← get
  let ip := s.icache k
  let bp ← bread (IBLOCK ip.inum s.sb)
  log_write (IBLOCK ip.inum s.sb) (setDinode bp (ip.inum % IPB) ip.din)

/-- Increment reference count for `ip`. -/
def idup (k : Nat) : FsM Nat := do
  setInode k fun ip => { ip with ref := ip.ref + 1 }
  pure k

/-- Lock the given inode. Reads the inode from disk if necessary. -/
def ilock (k : Nat) : FsM Unit := do
  let s ← get
  let ip := s.icache k
  if ip.ref < 1 then throw (.panic "ilock")
  else if ip.busy then throw .sleeps
  else
    setInode k fun ip => { ip with busy := true }
    if ¬ ip.valid then
      let bp ← bread (IBLOCK ip.inum s.sb)
      let dip := dinodeAt bp (ip.inum % IPB)
      setInode k fun ip => { ip with din := dip, valid := true }
      if dip.type = 0 then throw (.panic "ilock: no type")

/-- Unlock the given inode. -/
def iunlock (k : Nat) : FsM Unit := do
  let ip := (← get).icache k
  if ¬ ip.busy ∨ ip.ref < 1 then throw (.panic "iunlock")
  else setInode k fun ip => { ip with busy := false }

/-! ## Inode content -/

/-- `if((addr = ip->addrs[i]) == 0) ip->addrs[i] = addr = balloc(ip->dev);` -/
def baddr (k i : Nat) : FsM Nat := do
  let addr := ((← get).icache k).din.addr i
  if addr = 0 then
    let addr ← balloc
    setDin k (·.setAddr i addr)
    pure addr
  else pure addr

/-- The same for entry `j` of the indirect block `ind`, which is logged then. -/
def bentry (ind j : Nat) : FsM Nat := do
  let bp ← bread ind
  let addr := word bp j
  if addr = 0 then
    let addr ← balloc
    log_write ind (setWord bp j addr)
    pure addr
  else pure addr

/-- Return the disk block address of the `bn`-th block in the inode. If there is no such block,
`bmap` allocates one. -/
def bmap (k bn : Nat) : FsM Nat := do
  if bn < NDIRECT then baddr k bn
  else if bn - NDIRECT < NINDIRECT then
    -- load indirect block, allocating if necessary
    let ind ← baddr k NDIRECT
    bentry ind (bn - NDIRECT)
  else throw (.panic "bmap: out of range")

/-- The body of the first loop of `itrunc`. -/
def truncDirect (k i : Nat) : FsM Unit := do
  let addr := ((← get).icache k).din.addr i
  if addr ≠ 0 then
    bfree addr
    setDin k (·.setAddr i 0)

/-- The body of the second loop of `itrunc`. -/
def truncEntry (bp : Block) (j : Nat) : FsM Unit := do
  if word bp j ≠ 0 then bfree (word bp j)

/-- The part of `itrunc` for the indirect block. -/
def truncIndirect (k : Nat) : FsM Unit := do
  let addr := ((← get).icache k).din.addr NDIRECT
  if addr ≠ 0 then
    let bp ← bread addr
    loop NINDIRECT (truncEntry bp)
    bfree addr
    setDin k (·.setAddr NDIRECT 0)

/-- Truncate inode (discard contents). -/
def itrunc (k : Nat) : FsM Unit := do
  loop NDIRECT (truncDirect k)
  truncIndirect k
  setDin k ({ · with size := 0 })
  iupdate k

/-- The part of `iput` for an inode with no links and no other references. -/
def ifree (k : Nat) : FsM Unit := do
  if ((← get).icache k).busy then throw (.panic "iput busy")
  else
    setInode k fun ip => { ip with busy := true }
    itrunc k
    setDin k ({ · with type := 0 })
    iupdate k
    setInode k fun ip => { ip with busy := false, valid := false }

/-- Drop a reference to an in-memory inode. -/
def iput (k : Nat) : FsM Unit := do
  let ip := (← get).icache k
  if ip.ref = 1 ∧ ip.valid ∧ ip.din.nlink = 0 then ifree k
  setInode k fun ip => { ip with ref := ip.ref - 1 }

/-- Common idiom: unlock, then put. -/
def iunlockput (k : Nat) : FsM Unit := do
  iunlock k
  iput k

/-- The loop of `readi`, with `left` bytes to go. Every turn reads at least one of them. -/
def readLoop (k : Nat) : Nat → Nat → Nat → FsM (List UInt8)
  | 0, _, _ => pure []
  | fuel + 1, off, left =>
    if left = 0 then pure []
    else do
      let bp ← bread (← bmap k (off / BSIZE))
      let m := min left (BSIZE - off % BSIZE)
      let rest ← readLoop k fuel (off + m) (left - m)
      pure (slice bp (off % BSIZE) m ++ rest)

/-- Read data from inode: the bytes, or `none` for -1. -/
def readi (k off n : Nat) : FsM (Option (List UInt8)) := do
  let s ← get
  let ip := (s.icache k).din
  if ip.type = T_DEV then
    if short ip.major < 0 ∨ short ip.major ≥ NDEV then pure none
    else
      match (s.devsw ip.major.toNat).read with
      | none => pure none
      | some read => pure (read n)
  else if off > ip.size.toNat ∨ uint (off + n) < off then pure none
  else
    let n := if uint (off + n) > ip.size.toNat then ip.size.toNat - off else n
    let bytes ← readLoop k n off n
    pure (some bytes)

/-- The loop of `writei`, with `left` bytes to go. Every turn writes at least one of them. -/
def writeLoop (k : Nat) (src : Nat → UInt8) : Nat → Nat → Nat → Nat → FsM Unit
  | 0, _, _, _ => pure ()
  | fuel + 1, tot, off, left =>
    if left = 0 then pure ()
    else do
      let addr ← bmap k (off / BSIZE)
      let bp ← bread addr
      let m := min left (BSIZE - off % BSIZE)
      log_write addr (blit bp (off % BSIZE) m fun i => src (tot + i))
      writeLoop k src fuel (tot + m) (off + m) (left - m)

/-- Write data to inode. -/
def writei (k : Nat) (src : Nat → UInt8) (off n : Nat) : FsM Int := do
  let s ← get
  let ip := (s.icache k).din
  if ip.type = T_DEV then
    if short ip.major < 0 ∨ short ip.major ≥ NDEV then pure (-1)
    else
      match (s.devsw ip.major.toNat).write with
      | none => pure (-1)
      | some write => pure (write src n)
  else if off > ip.size.toNat ∨ uint (off + n) < off then pure (-1)
  else if uint (off + n) > MAXFILE * BSIZE then pure (-1)
  else
    writeLoop k src n 0 off n
    if n > 0 ∧ off + n > ip.size.toNat then
      setDin k ({ · with size := UInt32.ofNat (off + n) })
      iupdate k
    pure n

end xv6.fs
