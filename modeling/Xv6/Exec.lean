-- exec.c, with the part of vm.c that reads a program into memory, and the reads and writes of
-- file.c. The code is written for any monad with the functions of fs.c for inodes and those of vm.c
-- for a new user image.
import Xv6.Sysfile

open bytes

namespace xv6.image

open dir sysfile
open dir.Inodes hiding panic

/-! ## The format of a program file -/

abbrev ELF_MAGIC : Nat := 0x464C457F

abbrev ELF_PROG_LOAD : Nat := 1

/-- The most arguments of exec. -/
abbrev MAXARG : Nat := 32

/-- The number in the `n` bytes at `a`. -/
def field (bs : List UInt8) (a n : Nat) : Nat := le (fun i => bs.getD i 0) a n

/-- What exec reads of `struct elfhdr`, which has 52 bytes. -/
structure Elfhdr where
  magic : Nat
  entry : Nat
  phoff : Nat
  phnum : Nat

def elfhdr (bs : List UInt8) : Elfhdr :=
  { magic := field bs 0 4, entry := field bs 24 4, phoff := field bs 28 4, phnum := field bs 44 2 }

/-- What exec reads of `struct proghdr`, which has 32 bytes. -/
structure Proghdr where
  type : Nat
  off : Nat
  vaddr : Nat
  filesz : Nat
  memsz : Nat

def proghdr (bs : List UInt8) : Proghdr :=
  { type := field bs 0 4, off := field bs 4 4, vaddr := field bs 8 4, filesz := field bs 16 4
    memsz := field bs 20 4 }

/-! ## What the code calls -/

/-- The functions of vm.c for a new user image. A page directory is its physical address. -/
class Pages (m : Type → Type) where
  setupkvm : m (Option Nat)
  allocuvm : Nat → Nat → Nat → m Nat
  freevm : Nat → m Unit
  clearpteu : Nat → Nat → m Unit
  /-- `PTE_ADDR` of the entry that `walkpgdir` finds for an address -/
  pteAddr : Nat → Nat → m (Option Nat)
  /-- bytes that `readi` copies to the page at a physical address, for a user address -/
  copyin : Nat → Nat → List UInt8 → m Unit
  copyout : Nat → Nat → List UInt8 → m Bool

section

variable {m : Type → Type} [Monad m] [Inodes m] [Pages m]

open Pages

/-! ## Loading -/

/-- The loop of `loaduvm`, with `k` turns to go. -/
def loadFrom (d addr ip offset sz : Nat) : Nat → Nat → m Bool
  | 0, _ => pure true
  | k + 1, i => do
    match ← pteAddr d (uint (addr + i)) with
    | none => Inodes.panic "loaduvm: address should exist"
    | some pa =>
      let n := if sz - i < PGSIZE then sz - i else PGSIZE
      match ← readi ip (uint (offset + i)) n with
      | none => pure false
      | some bs =>
        copyin (uint (addr + i)) pa bs
        if bs.length ≠ n then pure false else loadFrom d addr ip offset sz k (i + PGSIZE)

/-- Load a program segment into a page directory. -/
def loaduvm (d addr ip offset sz : Nat) : m Bool :=
  if addr % PGSIZE ≠ 0 then Inodes.panic "loaduvm: addr must be page aligned"
  else loadFrom d addr ip offset sz ((sz + PGSIZE - 1) / PGSIZE) 0

/-- The loop of exec over the program headers, with `k` of them to go: the size of the image, or
`none` for `goto bad`. -/
def loadSegments (d ip : Nat) : Nat → Nat → Nat → m (Option Nat)
  | 0, _, sz => pure (some sz)
  | k + 1, off, sz => do
    match ← readi ip off 32 with
    | none => pure none
    | some bs =>
      let ph := proghdr bs
      if bs.length ≠ 32 then pure none
      else if ph.type ≠ ELF_PROG_LOAD then loadSegments d ip k (uint (off + 32)) sz
      else if ph.memsz < ph.filesz then pure none
      else
        let sz ← allocuvm d sz (uint (ph.vaddr + ph.memsz))
        if sz = 0 then pure none
        else if ¬ (← loaduvm d ph.vaddr ip ph.off ph.filesz) then pure none
        else loadSegments d ip k (uint (off + 32)) sz

/-- Read the ELF header over what was on the stack. The -1 of `readi` is not less than the size of
the header, since the size is unsigned. -/
def readElf (ip : Nat) (stack : List UInt8) : m (Option Elfhdr) := do
  match ← readi ip 0 52 with
  | none => pure (some (elfhdr stack))
  | some bs => if bs.length < 52 then pure none else pure (some (elfhdr bs))

/-- The part of exec with the file locked: the header, the page directory and the size. -/
def loadImage (ip : Nat) (stack : List UInt8) : m (Option (Elfhdr × Nat × Nat)) := do
  match ← readElf ip stack with
  | none => pure none
  | some elf =>
    if elf.magic ≠ ELF_MAGIC then pure none
    else
      match ← setupkvm with
      | none => pure none
      | some d =>
        match ← loadSegments d ip elf.phnum elf.phoff 0 with
        | none =>
          freevm d
          pure none
        | some sz => pure (some (elf, d, sz))

/-! ## The stack -/

/-- The loop of exec that pushes the argument strings: the stack pointer and the
pointers to them. -/
def pushArgs (d : Nat) : List Name → Nat → Nat → List Nat → m (Option (Nat × List Nat))
  | [], _, sp, ptrs => pure (some (sp, ptrs))
  | s :: argv, argc, sp, ptrs =>
    if argc ≥ MAXARG then pure none
    else do
      let sp := uint (sp + 2 ^ 32 - (s.length + 1)) / 4 * 4
      if ¬ (← copyout d sp (s ++ [0])) then pure none
      else pushArgs d argv (argc + 1) sp (ptrs ++ [sp])

/-- The bytes of numbers of type `uint`. -/
def words (ws : List Nat) : List UInt8 :=
  ws.flatMap fun w => (List.range 4).map fun i => UInt8.ofNat (w / 256 ^ i)

/-- The part of exec after the file is closed: the size and the stack pointer. -/
def pushStack (d sz : Nat) (argv : List Name) : m (Option (Nat × Nat)) := do
  let sz := PGROUNDUP sz
  let sz ← allocuvm d sz (uint (sz + 2 * PGSIZE))
  if sz = 0 then pure none
  else
    -- make the first page inaccessible, use the second as the user stack
    clearpteu d (uint (sz + 2 ^ 32 - 2 * PGSIZE))
    match ← pushArgs d argv 0 sz [] with
    | none => pure none
    | some (sp, ptrs) =>
      let argc := ptrs.length
      -- fake return PC, argc, argv pointer
      let ustack := 0xffffffff :: argc :: uint (sp + 2 ^ 32 - (argc + 1) * 4) :: ptrs ++ [0]
      let sp := uint (sp + 2 ^ 32 - (3 + argc + 1) * 4)
      if ¬ (← copyout d sp (words ustack)) then pure none
      else pure (some (sz, sp))

/-! ## exec -/

/-- What exec sets of a process. -/
structure Image where
  pgdir : Nat
  sz : Nat
  eip : Nat
  esp : Nat

/-- Replace the user image of a process, with the page directory `oldpgdir`, by the program at
`path`. `stack` is what the kernel stack holds where exec has its ELF header. -/
def exec (cwd oldpgdir : Nat) (stack : List UInt8) (path : Name) (argv : List Name) :
    m (Option Image) := do
  begin_op
  match ← namei cwd path with
  | none =>
    end_op
    pure none
  | some ip =>
    ilock ip
    match ← loadImage ip stack with
    | none =>
      -- bad:
      iunlockput ip
      end_op
      pure none
    | some (elf, pgdir, sz) =>
      iunlockput ip
      end_op
      match ← pushStack pgdir sz argv with
      | none =>
        -- bad:
        freevm pgdir
        pure none
      | some (sz, sp) =>
        -- commit to the user image
        freevm oldpgdir
        pure (some { pgdir := pgdir, sz := sz, eip := elf.entry, esp := sp })

end

end xv6.image

/-! ## Reading and writing open files -/

namespace xv6.sysfile

open dir
open dir.Inodes hiding panic

section

variable {m : Type → Type} [Monad m] [Inodes m]

/-- Read from file `f`. What `piperead` returns for a pipe is `piped`. -/
def fileread (t : Tables) (f : Nat) (n piped : Int) : m (Int × Tables) :=
  let x := t.ftable f
  if ¬ x.readable then pure (-1, t)
  else
    match x.type with
    | .FD_PIPE => pure (piped, t)
    | .FD_INODE => do
      ilock x.ip
      let r ← readi x.ip x.off (ofInt n)
      iunlock x.ip
      match r with
      | none => pure (-1, t)
      | some bs => pure (bs.length, t.setFile f { x with off := uint (x.off + bs.length) })
    | .FD_NONE => Inodes.panic "fileread"

/-- The most bytes of one transaction of `filewrite`. -/
abbrev maxWrite : Nat := (LOGSIZE - 1 - 1 - 2) / 2 * 512

/-- One transaction of `filewrite`, and what `writei` returned in it. -/
def writeChunk (ip : Nat) (src : Nat → UInt8) (off n1 : Nat) : m Int := do
  begin_op
  ilock ip
  let r ← writei ip src off n1
  iunlock ip
  end_op
  pure r

/-- The loop of `filewrite`, from `i` and with at most `fuel` turns: `i` and the
offset at its end. -/
def writeFrom (ip : Nat) (src : Nat → UInt8) (n : Nat) : Nat → Nat → Nat → m (Nat × Nat)
  | 0, i, off => pure (i, off)
  | fuel + 1, i, off =>
    if i < n then do
      let n1 := min (n - i) maxWrite
      let r ← writeChunk ip (fun a => src (i + a)) off n1
      if r < 0 then pure (i, off)
      else if r ≠ n1 then Inodes.panic "short filewrite"
      else writeFrom ip src n fuel (i + n1) (uint (off + n1))
    else pure (i, off)

/-- Write to file `f`. What `pipewrite` returns for a pipe is `piped`. -/
def filewrite (t : Tables) (f : Nat) (src : Nat → UInt8) (n piped : Int) : m (Int × Tables) :=
  let x := t.ftable f
  if ¬ x.writable then pure (-1, t)
  else
    match x.type with
    | .FD_PIPE => pure (piped, t)
    | .FD_INODE => do
      -- a turn writes at least one byte
      let (i, off) ← writeFrom x.ip src n.toNat n.toNat 0 x.off
      pure (if i = n then n else -1, t.setFile f { x with off := off })
    | .FD_NONE => Inodes.panic "filewrite"

/-- Get metadata about file `f`. -/
def filestat (t : Tables) (f : Nat) : m (Option Stat) :=
  let x := t.ftable f
  match x.type with
  | .FD_INODE => do
    ilock x.ip
    let st ← stat x.ip
    iunlock x.ip
    pure (some st)
  | _ => pure none

/-- The file of a descriptor. -/
def argfd (proc : Proc) (fd : Int) : Option Nat :=
  if fd < 0 ∨ fd ≥ NOFILE then none else proc.ofile fd.toNat

end

end xv6.sysfile
