-- Directories and paths of fs.c. The code is written for any monad with the functions that fs.c has
-- for inodes, so that one text runs on the disk and on the files that the disk stands for.
import Mathlib.Data.List.GetD
import Xv6.Fs

open List bytes WP

namespace xv6.dir

/-! ## What the code calls -/

/-- The fields of an inode in the cache that callers read. -/
structure Stat where
  dev : Nat
  inum : Nat
  type : UInt16
  nlink : UInt16
  size : Nat

/-- The fields of an inode that callers set. -/
structure Fields where
  major : UInt16
  minor : UInt16
  nlink : UInt16

/-- The functions for inodes. An inode is its entry in the cache. -/
class Inodes (m : Type → Type) where
  iget : Nat → Nat → m Nat
  idup : Nat → m Nat
  ilock : Nat → m Unit
  iunlock : Nat → m Unit
  iput : Nat → m Unit
  ialloc : Nat → UInt16 → m Nat
  readi : Nat → Nat → Nat → m (Option (List UInt8))
  writei : Nat → (Nat → UInt8) → Nat → Nat → m Int
  stat : Nat → m Stat
  /-- set fields, then `iupdate` -/
  update : Nat → (Fields → Fields) → m Unit
  begin_op : m Unit
  end_op : m Unit
  panic : {α : Type} → String → m α

end xv6.dir

namespace xv6.fs

/-- Called at the start of each file-system system call. -/
def begin_op : FsM Unit := do
  let s ← get
  if s.lh.length + (s.outstanding + 1) * MAXOPBLOCKS > LOGSIZE then throw .sleeps
  else modify fun s => { s with outstanding := s.outstanding + 1 }

/-- Called at the end of each file-system system call. The last one commits. -/
def end_op : FsM Unit :=
  modify fun s =>
    if s.outstanding - 1 = 0 then { s with outstanding := s.outstanding - 1, lh := [] }
    else { s with outstanding := s.outstanding - 1 }

def stat (k : Nat) : FsM dir.Stat := do
  let ip := (← get).icache k
  pure { dev := ip.dev, inum := ip.inum, type := ip.din.type, nlink := ip.din.nlink,
         size := ip.din.size.toNat }

def Dinode.set (g : dir.Fields → dir.Fields) (d : Dinode) : Dinode :=
  let x := g { major := d.major, minor := d.minor, nlink := d.nlink }
  { d with major := x.major, minor := x.minor, nlink := x.nlink }

instance : dir.Inodes FsM where
  iget := iget
  idup := idup
  ilock := ilock
  iunlock := iunlock
  iput := iput
  ialloc := ialloc
  readi := readi
  writei := writei
  stat := stat
  update k g := do
    setDin k (Dinode.set g)
    iupdate k
  begin_op := begin_op
  end_op := end_op
  panic msg := throw (.panic msg)

end xv6.fs

namespace xv6.dir

open Inodes hiding panic

/-! ## Names -/

/-- A C string: the characters before the null byte. -/
abbrev Name := List UInt8

/-- `strncmp` of two strings, which end where the list ends. -/
def strncmp : Nat → Name → Name → Int
  | 0, _, _ => 0
  | n + 1, p, q =>
    if p.headD 0 ≠ 0 ∧ p.headD 0 = q.headD 0 then strncmp n p.tail q.tail
    else (p.headD 0).toNat - (q.headD 0).toNat

def namecmp (s t : Name) : Int := strncmp DIRSIZ s t

/-- The `n` bytes that `strncpy` stores. -/
def strncpy : Nat → Name → List UInt8
  | 0, _ => []
  | n + 1, t => if t.headD 0 = 0 then List.replicate (n + 1) 0 else t.headD 0 :: strncpy n t.tail

theorem length_strncpy (n : Nat) (t : Name) : (strncpy n t).length = n := by
  induction n generalizing t with
  | zero => rfl
  | succ n ih =>
    rw [strncpy]
    split
    · simp
    · simp [ih]

theorem sub_ne_zero_of_ne {a b : UInt8} (h : a ≠ b) : (a.toNat : Int) - b.toNat ≠ 0 := by
  have : a.toNat ≠ b.toNat := fun e => h (UInt8.toNat_inj.mp e)
  omega

/-- A name compares equal to what `strncpy` made of a name when they agree in the bytes that fit. -/
theorem strncmp_strncpy {n : Nat} {p q : Name} (hp : 0 ∉ p) (hq : 0 ∉ q) :
    strncmp n (p.take n) (strncpy n q) = 0 ↔ p.take n = q.take n := by
  induction n generalizing p q with
  | zero => simp [strncmp]
  | succ n ih =>
    rw [strncmp]
    cases p with
    | nil =>
      cases q with
      | nil => simp [strncpy, replicate_succ]
      | cons c q =>
        have hc : c ≠ 0 := fun e => hq (e ▸ mem_cons_self ..)
        simpa [strncpy, hc] using sub_ne_zero_of_ne hc.symm
    | cons a p =>
      have ha : a ≠ 0 := fun e => hp (e ▸ mem_cons_self ..)
      have hp' : 0 ∉ p := fun h => hp (mem_cons_of_mem _ h)
      cases q with
      | nil => simpa [strncpy, replicate_succ, ha] using sub_ne_zero_of_ne ha
      | cons c q =>
        have hc : c ≠ 0 := fun e => hq (e ▸ mem_cons_self ..)
        have hq' : 0 ∉ q := fun h => hq (mem_cons_of_mem _ h)
        by_cases hac : a = c
        · subst hac
          simpa [strncpy, ha] using ih hp' hq'
        · simpa [strncpy, ha, hc, hac] using sub_ne_zero_of_ne hac

/-- Strings compare equal when they agree up to the null byte in the bytes that are looked at. -/
theorem strncmp_eq_zero {n : Nat} {p q : Name} :
    strncmp n p q = 0 ↔ (p.take n).takeWhile (· ≠ 0) = (q.take n).takeWhile (· ≠ 0) := by
  induction n generalizing p q with
  | zero => simp [strncmp]
  | succ n ih =>
    rw [strncmp]
    split
    · rename_i h
      cases p with
      | nil => exact absurd rfl h.1
      | cons a p =>
        cases q with
        | nil => exact absurd h.2 h.1
        | cons b q =>
          obtain rfl : a = b := h.2
          have ha : a ≠ 0 := h.1
          simpa [ha] using ih
    · rename_i h
      by_cases hpq : p.headD 0 = q.headD 0
      · have hp : p.headD 0 = 0 := not_not.mp fun hne => h ⟨hne, hpq⟩
        have hq : q.headD 0 = 0 := hpq ▸ hp
        have hnil : ∀ l : Name, l.headD 0 = 0 → (l.take (n + 1)).takeWhile (· ≠ 0) = [] := by
          intro l hl
          cases l with
          | nil => rfl
          | cons a l =>
            obtain rfl : a = 0 := hl
            rfl
        rw [hnil p hp, hnil q hq, hp, hq]
        simp
      · constructor
        · exact fun h0 => absurd h0 (sub_ne_zero_of_ne hpq)
        · intro h0
          refine absurd ?_ hpq
          have hhead : ∀ l : Name, l.headD 0 = ((l.take (n + 1)).takeWhile (· ≠ 0)).headD 0 := by
            intro l
            cases l with
            | nil => rfl
            | cons a l => by_cases ha : a = 0 <;> simp [ha]
          rw [hhead p, hhead q, h0]

/-- `struct dirent`. -/
structure Dirent where
  inum : Nat
  name : Name
  deriving DecidableEq

/-- The directory entry in 16 bytes. -/
def dirent (bs : List UInt8) : Dirent :=
  { inum := (bs.getD 0 0).toNat + 256 * (bs.getD 1 0).toNat, name := bs.drop 2 }

/-- The bytes of a directory entry. -/
def Dirent.byte (de : Dirent) (a : Nat) : UInt8 :=
  if a < 2 then UInt8.ofNat (de.inum / 256 ^ a) else de.name.getD (a - 2) 0

/-- The number in an entry is cut to two bytes. -/
theorem inum_dirent_byte (de : Dirent) :
    (dirent ((List.range 16).map de.byte)).inum = de.inum % 2 ^ 16 := by
  have h0 : (UInt8.ofNat (de.inum / 256 ^ 0)).toNat = de.inum % 256 := by simp
  have h1 : (UInt8.ofNat (de.inum / 256 ^ 1)).toNat = de.inum / 256 % 256 := by simp
  change (UInt8.ofNat (de.inum / 256 ^ 0)).toNat + 256 * (UInt8.ofNat (de.inum / 256 ^ 1)).toNat = _
  rw [h0, h1]
  omega

theorem name_dirent_byte {de : Dirent} (hn : de.name.length = DIRSIZ) :
    (dirent ((List.range 16).map de.byte)).name = de.name := by
  apply ext_getElem
  · simp [dirent, hn]
  · intro i _ h2
    simp only [dirent, getElem_drop, getElem_map, getElem_range, Dirent.byte]
    rw [if_neg (by omega), Nat.add_sub_cancel_left, getD_eq_getElem _ _ h2]

/-- An entry is read as it was written. -/
theorem dirent_byte {de : Dirent} (hi : de.inum < 2 ^ 16) (hn : de.name.length = DIRSIZ) :
    dirent ((List.range 16).map de.byte) = de := by
  have hinum := inum_dirent_byte de
  rw [Nat.mod_eq_of_lt hi] at hinum
  have hname := name_dirent_byte hn
  cases de with
  | mk inum name => exact congrArg₂ Dirent.mk hinum hname

section

variable {m : Type → Type} [Monad m] [Inodes m]

/-- Common idiom: unlock, then put. -/
def iunlockput (ip : Nat) : m Unit := do
  iunlock ip
  iput ip

/-! ## Directories -/

/-- The number of turns of a loop over the entries of a directory. -/
def turns (size : Nat) : Nat := (size + 15) / 16

/-- Read the entry at `off`. -/
def readDirent (dp off : Nat) (msg : String) : m Dirent := do
  match ← readi dp off 16 with
  | none => Inodes.panic msg
  | some bs => if bs.length ≠ 16 then Inodes.panic msg else pure (dirent bs)

/-- The loop of `dirlookup`, with `n` turns to go. -/
def lookupFrom (dp : Nat) (name : Name) : Nat → Nat → m (Option (Nat × Nat))
  | 0, _ => pure none
  | n + 1, off => do
    let de ← readDirent dp off "dirlink read"
    if de.inum ≠ 0 ∧ namecmp name de.name = 0 then
      -- entry matches path element
      let ip ← iget (← stat dp).dev de.inum
      pure (some (ip, off))
    else lookupFrom dp name n (off + 16)

/-- Look for a directory entry in a directory: its inode and its byte offset. -/
def dirlookup (dp : Nat) (name : Name) : m (Option (Nat × Nat)) := do
  let d ← stat dp
  if d.type ≠ T_DIR then Inodes.panic "dirlookup not DIR"
  else lookupFrom dp name (turns d.size) 0

/-- The loop of `dirlink`, with `n` turns to go: the offset of an empty entry. -/
def emptyFrom (dp : Nat) : Nat → Nat → m Nat
  | 0, off => pure off
  | n + 1, off => do
    let de ← readDirent dp off "dirlink read"
    if de.inum = 0 then pure off else emptyFrom dp n (off + 16)

/-- Write a new directory entry (name, inum) into the directory `dp`. -/
def dirlink (dp : Nat) (name : Name) (inum : Nat) : m Int := do
  -- check that name is not present
  match ← dirlookup dp name with
  | some (ip, _) =>
    iput ip
    pure (-1)
  | none =>
    let off ← emptyFrom dp (turns (← stat dp).size) 0
    let de : Dirent := { inum := inum, name := strncpy DIRSIZ name }
    if (← writei dp de.byte off 16) ≠ 16 then Inodes.panic "dirlink"
    else pure 0

/-! ## Paths -/

/-- The next path element and the path after it, without leading slashes. -/
def skipelem (path : Name) : Option (Name × Name) :=
  match path.dropWhile (· = 47) with
  | [] => none
  | s => some ((s.takeWhile (· ≠ 47)).take DIRSIZ, (s.dropWhile (· ≠ 47)).dropWhile (· = 47))

/-- The elements of a path, up to `n` of them. -/
def elemsFrom : Nat → Name → List Name
  | 0, _ => []
  | n + 1, path =>
    match skipelem path with
    | none => []
    | some (name, rest) => name :: elemsFrom n rest

/-- The elements of a path: what the loop of `namex` gets from `skipelem`. A path has no more
elements than characters. -/
def elems (path : Name) : List Name := elemsFrom path.length path

/-- The loop of `namex`. The path after an element is empty when there are no more elements. -/
def walk (nameiparent : Bool) : Nat → List Name → m (Option (Nat × Name))
  | ip, [] =>
    if nameiparent then do
      iput ip
      pure none
    else pure (some (ip, []))
  | ip, name :: path => do
    ilock ip
    if (← stat ip).type ≠ T_DIR then
      iunlockput ip
      pure none
    else if nameiparent ∧ path = [] then
      -- stop one level early
      iunlock ip
      pure (some (ip, name))
    else
      match ← dirlookup ip name with
      | none =>
        iunlockput ip
        pure none
      | some (next, _) =>
        iunlockput ip
        walk nameiparent next path

/-- Look up the inode for a path name, or for its parent together with the last element. -/
def namex (cwd : Nat) (path : Name) (nameiparent : Bool) : m (Option (Nat × Name)) := do
  let ip ← if path.head? = some 47 then iget ROOTDEV ROOTINO else idup cwd
  walk nameiparent ip (elems path)

def namei (cwd : Nat) (path : Name) : m (Option Nat) := do
  let r ← namex cwd path false
  pure (r.map Prod.fst)

def nameiparent (cwd : Nat) (path : Name) : m (Option (Nat × Name)) := namex cwd path true

end

end xv6.dir
