-- The page tables of vm.c: how mappages, allocuvm and deallocuvm change the pages that a page
-- directory maps, with the pages of kalloc.c under them.
import Xv6.Params
import Xv6.Wp

open bytes WP

namespace xv6.vm

/-! ## The state -/

/-- A page-table entry with PTE_P: the physical address of the page, and the other bits. -/
structure Pte where
  pa : Nat
  perm : Nat

structure PageTable where
  /-- the page that holds the table -/
  page : Nat
  /-- the entries, where `none` is one without PTE_P -/
  pte : Nat → Option Pte

/-- The entries of a page directory. -/
abbrev PgDir := Nat → Option PageTable

structure Vm where
  /-- V2P(end): the first address after the kernel -/
  kend : Nat
  /-- `kmem.freelist`, by physical address -/
  free : List Nat
  /-- the contents of the pages -/
  ram : Nat → Mem
  /-- the page directories, by physical address -/
  dirs : Nat → PgDir

abbrev VmM := EStateM String Vm

/-- The entry for an address, when the page directory maps it. -/
def Vm.pte (s : Vm) (d va : Nat) : Option Pte := (s.dirs d (PDX va)).bind fun t => t.pte (PTX va)

/-- Set the entry for an address whose page table is there. -/
def Vm.setPte (s : Vm) (d va : Nat) (x : Option Pte) : Vm :=
  match s.dirs d (PDX va) with
  | some t =>
    { s with dirs := Function.update s.dirs d (Function.update (s.dirs d) (PDX va)
        (some { t with pte := Function.update t.pte (PTX va) x })) }
  | none => s

/-! ## kalloc.c -/

def kalloc : VmM (Option Nat) := do
  let s ← get
  match s.free with
  | [] => pure none
  | r :: next =>
    set { s with free := next }
    pure (some r)

def kfree (v : Nat) : VmM Unit := do
  let s ← get
  if v % PGSIZE ≠ 0 ∨ v < s.kend ∨ v ≥ PHYSTOP then throw "kfree"
  else
    -- fill with junk to catch dangling refs
    set { s with free := v :: s.free, ram := Function.update s.ram v fun _ => 1 }

/-- `memset(mem, 0, PGSIZE)`. -/
def zeroPage (mem : Nat) : VmM Unit :=
  modify fun s => { s with ram := Function.update s.ram mem fun _ => 0 }

/-! ## vm.c -/

/-- Whether page directory `d` has an entry for `va`. With `alloc`, it gets the page table that
is missing, if there is a page for it. -/
def walkpgdir (d va : Nat) (alloc : Bool) : VmM Bool := do
  let s ← get
  match s.dirs d (PDX va) with
  | some _ => pure true
  | none =>
    if ¬ alloc then pure false
    else
      match ← kalloc with
      | none => pure false
      | some pgtab =>
        modify fun s => { s with dirs := Function.update s.dirs d (Function.update (s.dirs d)
          (PDX va) (some { page := pgtab, pte := fun _ => none })) }
        pure true

/-- The loop of `mappages`, with `k` pages after this one. -/
def mapFrom (d perm : Nat) : Nat → Nat → Nat → VmM Int
  | k, a, pa => do
    if ¬ (← walkpgdir d a true) then pure (-1)
    else
      let s ← get
      if s.pte d a ≠ none then throw "remap"
      else
        set (s.setPte d a (some { pa := pa, perm := perm }))
        match k with
        | 0 => pure 0
        | k + 1 => mapFrom d perm k (uint (a + PGSIZE)) (uint (pa + PGSIZE))

/-- Create entries for the addresses from `va` on that refer to physical addresses from `pa`
on. -/
def mappages (d va size pa perm : Nat) : VmM Int :=
  let a := PGROUNDDOWN va
  let last := PGROUNDDOWN (uint (va + size + 2 ^ 32 - 1))
  mapFrom d perm (uint (last + 2 ^ 32 - a) / PGSIZE) a pa

/-- The loop of `deallocuvm` from `a` on. It makes at most `fuel` turns. -/
def deallocFrom (d oldsz : Nat) : Nat → Nat → VmM Unit
  | 0, _ => pure ()
  | fuel + 1, a => do
    if a < oldsz then
      if ¬ (← walkpgdir d a false) then
        deallocFrom d oldsz fuel (uint (a + (NPTENTRIES - 1) * PGSIZE + PGSIZE))
      else
        match (← get).pte d a with
        | some pte =>
          if pte.pa = 0 then throw "kfree"
          else
            kfree pte.pa
            modify (·.setPte d a none)
        | none => pure ()
        deallocFrom d oldsz fuel (uint (a + PGSIZE))
    else pure ()

/-- Deallocate user pages to bring the size from `oldsz` to `newsz`. -/
def deallocuvm (d oldsz newsz : Nat) : VmM Nat := do
  if newsz ≥ oldsz then pure oldsz
  else
    -- `a` grows by a page or more in each turn
    deallocFrom d oldsz (oldsz / PGSIZE + 1) (PGROUNDUP newsz)
    pure newsz

/-- The loop of `allocuvm`, with `k` pages from `a` on. It does not look at the result of
`mappages`. -/
def allocFrom (d oldsz newsz : Nat) : Nat → Nat → VmM Nat
  | 0, _ => pure newsz
  | k + 1, a => do
    match ← kalloc with
    | none =>
      let _ ← deallocuvm d newsz oldsz
      pure 0
    | some mem =>
      zeroPage mem
      let _ ← mappages d a PGSIZE mem (PTE_W ||| PTE_U)
      allocFrom d oldsz newsz k (a + PGSIZE)

/-- Allocate page tables and memory to grow from `oldsz` to `newsz`. -/
def allocuvm (d oldsz newsz : Nat) : VmM Nat :=
  if newsz ≥ KERNBASE then pure 0
  else if newsz < oldsz then pure oldsz
  else
    let a := PGROUNDUP oldsz
    allocFrom d oldsz newsz ((newsz - a + PGSIZE - 1) / PGSIZE) a

end xv6.vm
