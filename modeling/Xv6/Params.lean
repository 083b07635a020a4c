-- The constants of param.h, memlayout.h, mmu.h, fs.h and mkfs.c that the development uses, and the
-- trap frame of x86.h.
import Xv6.Bytes

namespace xv6

/-! ## param.h -/

/-- The most processes. -/
abbrev NPROC : Nat := 64

/-- The most blocks that one file-system operation writes. -/
abbrev MAXOPBLOCKS : Nat := 10

/-- The most data blocks in the on-disk log. -/
abbrev LOGSIZE : Nat := MAXOPBLOCKS * 3

theorem LOGSIZE_eq : LOGSIZE = 30 := rfl

/-- The buffers of the buffer cache. -/
abbrev NBUF : Nat := MAXOPBLOCKS * 3

/-- The size of the file system that mkfs builds, in blocks. -/
abbrev FSSIZE : Nat := 1000

/-- The open files per process. -/
abbrev NOFILE : Nat := 16

/-- The open files per system. -/
abbrev NFILE : Nat := 100

/-- The most active inodes. -/
abbrev NINODE : Nat := 50

/-- The most major device numbers. -/
abbrev NDEV : Nat := 10

/-- The device number of the root disk. -/
abbrev ROOTDEV : Nat := 1

/-! ## memlayout.h and mmu.h -/

/-- The start of extended memory. -/
abbrev EXTMEM : Nat := 0x100000

/-- Other devices are at high addresses. -/
abbrev DEVSPACE : Nat := 0xFE000000

/-- The first kernel virtual address. -/
abbrev KERNBASE : Nat := 0x80000000

/-- The address where the kernel is linked. -/
abbrev KERNLINK : Nat := KERNBASE + EXTMEM

/-- The top of physical memory. -/
abbrev PHYSTOP : Nat := 0xE000000

/-- The bytes mapped by a page. -/
abbrev PGSIZE : Nat := 4096

/-- The entries of a page directory. -/
abbrev NPDENTRIES : Nat := 1024

/-- The entries of a page table. -/
abbrev NPTENTRIES : Nat := 1024

def PDX (va : Nat) : Nat := va / 2 ^ 22 % NPDENTRIES

def PTX (va : Nat) : Nat := va / 2 ^ 12 % NPTENTRIES

/-- The value of a `uint` expression. -/
abbrev uint (n : Nat) : Nat := n % 2 ^ 32

/-- The `uint` with the value of a C `int`. -/
def ofInt (n : Int) : Nat := (n % 2 ^ 32).toNat

def PGROUNDUP (sz : Nat) : Nat := uint (sz + PGSIZE - 1) / PGSIZE * PGSIZE

def PGROUNDDOWN (a : Nat) : Nat := a / PGSIZE * PGSIZE

abbrev PTE_P : Nat := 1

abbrev PTE_W : Nat := 2

abbrev PTE_U : Nat := 4

/-- The address in a page-table entry. -/
def PTE_ADDR (pte : Nat) : Nat := pte / PGSIZE * PGSIZE

def PTE_FLAGS (pte : Nat) : Nat := pte % PGSIZE

/-! ## fs.h and stat.h -/

abbrev BSIZE : Nat := 512

/-- The number of the root inode. -/
abbrev ROOTINO : Nat := 1

abbrev NDIRECT : Nat := 12

abbrev NINDIRECT : Nat := BSIZE / 4

/-- The most blocks of a file. -/
abbrev MAXFILE : Nat := NDIRECT + NINDIRECT

/-- Inodes per block. -/
abbrev IPB : Nat := BSIZE / 64

/-- Bitmap bits per block. -/
abbrev BPB : Nat := BSIZE * 8

abbrev DIRSIZ : Nat := 14

abbrev T_DIR : UInt16 := 1

abbrev T_FILE : UInt16 := 2

abbrev T_DEV : UInt16 := 3

/-- `uchar data[BSIZE]` of a buffer: the bytes at the indices below `BSIZE`. -/
abbrev Block := bytes.Mem

/-- The blocks of the disk, by block number. -/
abbrev Disk := Nat → Block

/-- The `i`-th `uint` of a block. -/
def word (b : Block) (i : Nat) : Nat := bytes.le b (4 * i) 4

/-- The block with its `i`-th `uint` set. -/
def setWord (b : Block) (i w : Nat) : Block := bytes.setLe b (4 * i) 4 w

theorem word_setWord_self {b : Block} {i w : Nat} (h : w < 2 ^ 32) : word (setWord b i w) i = w :=
  bytes.le_setLe_of_lt (by simpa using h)

theorem word_setWord_ne {b : Block} {i j w : Nat} (h : i ≠ j) : word (setWord b i w) j = word b j :=
  bytes.le_setLe_disjoint (by omega)

/-- A C `int` with the bits of the `uint` `w`. -/
def toInt (w : Nat) : Int := if w < 2 ^ 31 then w else (w : Int) - 2 ^ 32

theorem ofInt_lt (n : Int) : ofInt n < 2 ^ 32 := by
  unfold ofInt
  omega

theorem toInt_ofInt {n : Int} (h1 : -2 ^ 31 ≤ n) (h2 : n < 2 ^ 31) : toInt (ofInt n) = n := by
  unfold toInt ofInt
  split <;> omega

/-- The value of a C `short` with these bits. -/
def short (w : UInt16) : Int := if w.toNat < 2 ^ 15 then w.toNat else (w.toNat : Int) - 2 ^ 16

/-! ## fcntl.h -/

abbrev O_RDONLY : Nat := 0

abbrev O_WRONLY : Nat := 1

abbrev O_RDWR : Nat := 2

abbrev O_CREATE : Nat := 512

/-! ## mkfs.c -/

abbrev NINODES : Nat := 200

/-- The number of log blocks that mkfs writes into the superblock. -/
abbrev nlog : Nat := LOGSIZE

/-- The `logstart` that mkfs writes into the superblock. -/
abbrev logstart : Nat := 2

/-- The `inodestart` that mkfs writes into the superblock. -/
abbrev inodestart : Nat := 2 + nlog

end xv6
