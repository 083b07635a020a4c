-- Path arguments under threads: argstr checks a string in user memory and the kernel walks it again
-- in namex, byte by byte, while another process with the same page directory runs user code or
-- calls sbrk.
import Xv6.Grow

open Option Function runs WP

namespace xv6.argstr

open proc vm

/-! ## The machine -/

/-- Where the process stands in its call. -/
inductive Pc where
  /-- in `fetchstr`, with `s` at `a` -/
  | fetch (path a : Nat)
  /-- in `namex`, at `*path == '/'` -/
  | namex (path : Nat)
  /-- in `skipelem`, at the first loop -/
  | skip (path : Nat)
  /-- in `skipelem`, at `*path == 0` -/
  | nul (path : Nat)
  /-- in `skipelem`, at the two tests of the second loop -/
  | elem (s path : Nat)
  | elem0 (s path : Nat)
  /-- in `skipelem`, in `memmove`, at byte `i` -/
  | copy (s path i : Nat)
  /-- in `skipelem`, at the last loop -/
  | tail (path : Nat)
  /-- in `namex`, at `ip->type != T_DIR` -/
  | locked (path : Nat)
  /-- in `namex`, at `nameiparent && *path == '\0'` -/
  | last (path : Nat)
  /-- in `namex`, at `dirlookup` -/
  | lookup (path : Nat)
  /-- the walk is over -/
  | done
  deriving DecidableEq

structure Sys where
  k : grow.Sys
  pc : Pc
  /-- history: the addresses of the path that the kernel read after `argstr` returned, and whether
  they were mapped -/
  reads : List (Nat × Bool)

/-- Process `r` calls `argstr`, and its argument is `path`. -/
def start (k : grow.Sys) (r path : Nat) : Sys :=
  { k := k, pc := if path ≥ (k.p.procs r).sz then .done else .fetch path path, reads := [] }

namespace Sys

def sz (s : Sys) (r : Nat) : Nat := (s.k.p.procs r).sz

def goto (s : Sys) (x : Pc) : Sys := { s with pc := x }

def trap (s : Sys) : Sys := { s with k := { s.k with p := { s.k.p with panicked := some "trap" } } }

/-- The kernel can read address `a` while it runs for process `r`. -/
def mapped (s : Sys) (r a : Nat) : Bool := KERNBASE ≤ a || (s.k.p.space r).present (a / PGSIZE)

def byte (s : Sys) (r a : Nat) : UInt8 := (s.k.p.space r).mem a

/-- The kernel reads the byte at `a` of the path, and goes to a place that depends on it. -/
def read (s : Sys) (r a : Nat) (next : UInt8 → Pc) : Sys :=
  let s := { s with reads := s.reads ++ [(a, s.mapped r a)] }
  if s.mapped r a then s.goto (next (s.byte r a)) else s.trap

end Sys

abbrev slash : UInt8 := 47

/-- The next step of process `r`. `ok` says that the inode is a directory, or that
the name is in it. -/
def go (r : Nat) (nameiparent : Bool) (s : Sys) (ok : Bool) : Option Sys :=
  match s.pc with
  | .fetch path a =>
    if a < s.sz r then
      if s.mapped r a then
        some (s.goto (if s.byte r a = 0 then .namex path else .fetch path (uint (a + 1))))
      else some s.trap
    else some (s.goto .done)
  | .namex path => some (s.read r path fun _ => .skip path)
  | .skip path =>
    some (s.read r path fun c => if c = slash then .skip (uint (path + 1)) else .nul path)
  | .nul path => some (s.read r path fun c => if c = 0 then .done else .elem path path)
  | .elem e path =>
    some (s.read r path fun c => if c = slash then .copy e path 0 else .elem0 e path)
  | .elem0 e path =>
    some (s.read r path fun c => if c = 0 then .copy e path 0 else .elem e (uint (path + 1)))
  | .copy e path i =>
    if i < min (path - e) DIRSIZ then some (s.read r (e + i) fun _ => .copy e path (i + 1))
    else some (s.goto (.tail path))
  | .tail path =>
    some (s.read r path fun c => if c = slash then .tail (uint (path + 1)) else .locked path)
  | .locked path =>
    some (s.goto (if ok then if nameiparent then .last path else .lookup path else .done))
  | .last path => some (s.read r path fun c => if c = 0 then .done else .lookup path)
  | .lookup path => some (s.goto (if ok then .skip path else .done))
  | .done => none

inductive Act where
  /-- process `r` goes on in its call -/
  | go (ok : Bool)
  /-- user code of process `q` runs, and leaves these registers and these bytes -/
  | user (tf : Trapframe) (mem : bytes.Mem)
  | sbrk (n : Int)

/-- One step, of process `r` in its call or of process `q`. After a panic nothing happens. -/
def step (r q : Nat) (nameiparent : Bool) (s : Sys) (a : Act) : Option Sys :=
  match a with
  | .go ok => if s.k.p.panicked = none then go r nameiparent s ok else none
  | .user tf mem => (grow.step s.k (.proc (.user q tf mem))).map fun k => { s with k := k }
  | .sbrk n => (grow.step s.k (.sbrk q n)).map fun k => { s with k := k }

/-! ## What the other process does -/

/-- Processes `r` and `q` are two threads, and the memory of `r` is that of the page tables. -/
structure Threads (k : grow.Sys) (r q : Nat) : Prop where
  ne : r ≠ q
  pgdir : (k.p.procs r).pgdir = (k.p.procs q).pgdir
  small : (k.p.procs r).sz < KERNBASE ∧ (k.p.procs q).sz < KERNBASE
  present : ∀ pg < 2 ^ 20, (k.p.space r).present pg =
    (k.vm.pte (k.p.procs r).pgdir (pg * PGSIZE)).isSome

/-- The pages that `sbrk(n)` of process `q` maps or unmaps. -/
def WorksOn (k : grow.Sys) (q : Nat) (n : Int) (pg : Nat) : Prop :=
  let sz := (k.p.procs q).sz
  let newsz := ofInt (sz + n)
  n < 0 ∧ newsz < sz ∧ PGROUNDUP newsz ≤ pg * PGSIZE ∧ pg * PGSIZE < sz ∨
    0 < n ∧ sz ≤ newsz ∧ newsz < KERNBASE ∧ PGROUNDUP sz ≤ pg * PGSIZE ∧ pg * PGSIZE < newsz

/-- What `sbrk(n)` of process `q` leaves alone. -/
structure Kept (k : grow.Sys) (q : Nat) (n : Int) (k' : grow.Sys) : Prop where
  procs : ∀ i, i ≠ q → k'.p.procs i = k.p.procs i
  pgdir : (k'.p.procs q).pgdir = (k.p.procs q).pgdir
  small : (k'.p.procs q).sz < KERNBASE
  spaces : k'.p.spaces = k.p.spaces
  calm : k'.p.panicked = k.p.panicked
  ptes : ∀ pg < 2 ^ 20, ¬ WorksOn k q n pg →
    k'.vm.pte (k.p.procs q).pgdir (pg * PGSIZE) = k.vm.pte (k.p.procs q).pgdir (pg * PGSIZE)

section Sbrk

variable {k k' : grow.Sys} {r q : Nat} {n : Int}

/-- Process `q` with other page tables and another size. -/
theorem Kept.set {vm : Vm} {f : Proc → Proc} (hd : ∀ p, (f p).pgdir = p.pgdir)
    (hsz : (f (k.p.procs q)).sz < KERNBASE) (hptes : ∀ pg < 2 ^ 20, ¬ WorksOn k q n pg →
      vm.pte (k.p.procs q).pgdir (pg * PGSIZE) = k.vm.pte (k.p.procs q).pgdir (pg * PGSIZE)) :
    Kept k q n { k with vm := vm, p := k.p.set q f } := by
  have hself : (k.p.set q f).procs q = f (k.p.procs q) := update_self ..
  refine ⟨fun i hi => update_of_ne hi _ _, ?_, ?_, rfl, rfl, hptes⟩
  · grind
  · grind

theorem Kept.of_vm {vm : Vm} (hsz : (k.p.procs q).sz < KERNBASE)
      (hptes : ∀ pg < 2 ^ 20, ¬ WorksOn k q n pg →
      vm.pte (k.p.procs q).pgdir (pg * PGSIZE) = k.vm.pte (k.p.procs q).pgdir (pg * PGSIZE)) :
    Kept k q n { k with vm := vm } :=
  ⟨fun _ _ => rfl, rfl, hsz, rfl, rfl, hptes⟩

theorem growproc_kept (hsz : (k.p.procs q).sz < KERNBASE) :
    spec (grow.growproc q n) k (fun _ k' => Kept k q n k') (fun _ _ => True) := by
  have hsame : Kept k q n k := ⟨fun _ _ => rfl, rfl, hsz, rfl, rfl, fun _ _ _ => rfl⟩
  -- the last lines of `growproc`, after the page tables have changed
  have hend : ∀ (vm : Vm) (sz : Nat), (sz ≠ 0 → sz < KERNBASE) →
      (∀ pg < 2 ^ 20, ¬ WorksOn k q n pg →
      vm.pte (k.p.procs q).pgdir (pg * PGSIZE) = k.vm.pte (k.p.procs q).pgdir (pg * PGSIZE)) →
      spec ((if sz = 0 then pure (-1) else do
        grow.setProc q fun p => { p with sz := sz }
        pure 0) : grow.GrowM Int) { k with vm := vm } (fun _ k' => Kept k q n k')
          (fun _ _ => True) := by
    intro vm sz hlt hptes
    rw [spec_ite]
    refine ⟨fun _ => (spec_pure _).mpr (Kept.of_vm hsz hptes), fun h0 => ?_⟩
    simp only [grow.setProc, spec_bind, spec_modify, spec_pure]
    exact Kept.set (fun _ => rfl) (hlt h0) hptes
  unfold grow.growproc
  simp only [spec_bind, spec_get]
  rcases Int.lt_trichotomy n 0 with hneg | rfl | hpos
  · rw [if_neg (by omega), if_pos hneg]
    simp only [spec_bind, grow.onVm, spec_zoom]
    by_cases hlt : ofInt ((k.p.procs q).sz + n) < (k.p.procs q).sz
    · refine spec_mono (deallocuvm_outside (Nat.le_of_lt hsz) hlt) (fun sz vm hvm => ?_)
        (fun _ _ h => h)
      refine hend vm sz (fun _ => by omega) fun pg hpg hnot => hvm.2 pg hpg ?_
      by_contra hin
      exact hnot (Or.inl ⟨hneg, hlt, by omega, by omega⟩)
    · unfold deallocuvm
      rw [if_pos (Nat.le_of_not_lt hlt), spec_pure]
      exact hend k.vm _ (fun _ => hsz) fun _ _ _ => rfl
  · simp only [Int.lt_irrefl, gt_iff_lt, if_false, spec_pure]
    exact hsame
  · rw [if_pos hpos]
    simp only [spec_bind, grow.onVm, spec_zoom]
    by_cases hk : ofInt ((k.p.procs q).sz + n) < KERNBASE
    · by_cases hle : (k.p.procs q).sz ≤ ofInt ((k.p.procs q).sz + n)
      · refine spec_mono (allocuvm_outside hk hle) (fun sz vm hvm => ?_) (fun _ _ h => h)
        refine hend vm sz (fun h0 => by rw [hvm.1.resolve_left h0]; exact hk) fun pg hpg hnot =>
          hvm.2 pg hpg ?_
        by_contra hin
        exact hnot (Or.inr ⟨hpos, hle, hk, by omega, by omega⟩)
      · unfold allocuvm
        rw [if_neg (by omega), if_pos (by omega), spec_pure]
        exact hend k.vm _ (fun _ => hsz) fun _ _ _ => rfl
    · unfold allocuvm
      rw [if_pos (by omega), spec_pure]
      exact hend k.vm 0 (fun h0 => absurd rfl h0) fun _ _ _ => rfl

theorem Kept.setProc (h : Kept k q n k') {f : Proc → Proc} (hd : ∀ p, (f p).pgdir = p.pgdir)
    (hsz : ∀ p, (f p).sz = p.sz) : Kept k q n { k' with p := k'.p.set q f } := by
  have hself : (k'.p.set q f).procs q = f (k'.p.procs q) := update_self ..
  refine ⟨fun i hi => (update_of_ne hi _ _).trans (h.procs i hi), ?_, ?_, h.spaces, h.calm, h.ptes⟩
  · grind [h.pgdir]
  · grind [h.small]

theorem sys_sbrk_kept (hsz : (k.p.procs q).sz < KERNBASE) :
    spec (grow.sys_sbrk q n) k (fun _ k' => Kept k q n k') (fun _ _ => True) := by
  unfold grow.sys_sbrk
  simp only [spec_bind, spec_get]
  refine spec_mono (growproc_kept hsz) (fun _ k' hk => ?_) (fun _ _ h => h)
  rw [grow.setProc, spec_modify]
  exact hk.setProc (fun _ => rfl) fun _ => rfl

/-- After `sbrk` of the other thread, the pages that it did not work on are as they were. -/
theorem sbrk_step (h : Threads k r q) (hs : grow.step k (.sbrk q n) = some k')
    (hcalm : k'.p.panicked = none) :
    Threads k' r q ∧ k'.p.procs r = k.p.procs r ∧
    ∀ a < KERNBASE, ¬ WorksOn k q n (a / PGSIZE) → (k.p.space r).present (a / PGSIZE) = true →
      (k'.p.space r).present (a / PGSIZE) = true ∧ (k'.p.space r).mem a = (k.p.space r).mem a := by
  simp only [grow.step] at hs
  obtain ⟨hen, hs⟩ := ite_none_right_eq_some.mp hs
  have hspec := sys_sbrk_kept (n := n) h.small.2
  cases hx : grow.sys_sbrk q n k with
  | error msg t =>
    grind
  | ok u t =>
    rw [hx] at hs
    have ht := of_spec hspec hx
    obtain rfl := some.inj hs
    have hdir : (t.p.procs q).pgdir = (k.p.procs r).pgdir := by rw [ht.pgdir, h.pgdir]
    have hr : t.p.procs r = k.p.procs r := ht.procs r h.ne
    have hprocs : (grow.refresh k.vm t q).p.procs = t.p.procs := rfl
    have hspace : (grow.refresh k.vm t q).p.space r = {
        mem := fun a => if (k.vm.pte (k.p.procs r).pgdir (PGROUNDDOWN a)).isSome
        then (k.p.space r).mem a else 0
        present := fun pg => (t.vm.pte (k.p.procs r).pgdir (pg * PGSIZE)).isSome } := by
      unfold proc.Sys.space
      rw [hprocs, hr]
      unfold grow.refresh
      simp only [hdir, ht.spaces, update_self]
    refine ⟨⟨h.ne, ?_, ?_, fun pg _ => ?_⟩, hr, fun a ha hnot hpresent => ?_⟩
    · rw [hprocs, hr, ht.pgdir, h.pgdir]
    · rw [hprocs, hr]
      exact ⟨h.small.1, ht.small⟩
    · rw [hspace, hprocs, hr]
      rfl
    · have hpg : a / PGSIZE < 2 ^ 20 := by grind
      rw [h.present _ hpg] at hpresent
      rw [hspace]
      refine ⟨?_, ?_⟩
      · grind [ht.ptes, h.pgdir]
      · exact if_pos hpresent

end Sbrk

/-- After user code of the other thread, the same pages are there, with its bytes. -/
theorem user_step {k k' : grow.Sys} {r q : Nat} {tf : Trapframe} {mem : bytes.Mem}
    (h : Threads k r q) (hs : grow.step k (.proc (.user q tf mem)) = some k') :
    Threads k' r q ∧ k'.p.procs r = k.p.procs r ∧
    (∀ pg, (k'.p.space r).present pg = (k.p.space r).present pg) ∧
    ∀ a, (k.p.space r).present (a / PGSIZE) = true → (k'.p.space r).mem a = mem a := by
  obtain ⟨p', hp, rfl⟩ := map_eq_some_iff.mp hs
  obtain ⟨-, hp⟩ := ite_none_right_eq_some.mp hp
  have hprocs : p'.procs = update k.p.procs q { k.p.procs q with tf := tf } := by
    rw [← some.inj hp]
    rfl
  have hkstack : ∀ i, (p'.procs i).kstack = (k.p.procs i).kstack := by
    intro i
    rw [hprocs, update_apply]
    split
    · rename_i hi
      rw [hi]
    · rfl
  rw [grow.after_kstacks hkstack]
  have hspaces : p'.spaces = update k.p.spaces (k.p.procs q).pgdir { k.p.space q with
      mem := fun a => if (k.p.space q).present (a / PGSIZE) then mem a
        else (k.p.space q).mem a } := by
    rw [← some.inj hp]
    rfl
  have hr : p'.procs r = k.p.procs r := by
    rw [hprocs, update_of_ne h.ne]
  have hq : (p'.procs q).pgdir = (k.p.procs q).pgdir ∧ (p'.procs q).sz = (k.p.procs q).sz := by
    rw [hprocs, update_self]
    exact ⟨rfl, rfl⟩
  have hsame : k.p.space q = k.p.space r := by
    unfold proc.Sys.space
    rw [h.pgdir]
  have hspace : p'.space r = { k.p.space r with
      mem := fun a => if (k.p.space r).present (a / PGSIZE) then mem a
        else (k.p.space r).mem a } := by
    unfold proc.Sys.space at hsame ⊢
    rw [hr, hspaces, h.pgdir, update_self]
    rfl
  refine ⟨⟨h.ne, ?_, ?_, fun pg hpg => ?_⟩, hr, fun pg => ?_, fun a ha => ?_⟩
  · rw [hr, hq.1, h.pgdir]
  · rw [hr, hq.2]
    exact h.small
  · rw [hspace, hr]
    exact h.present pg hpg
  · rw [hspace]
  · rw [hspace]
    exact if_pos ha

/-! ## The law -/

/-- The lowest address that the walk has still to read, and the place that it has reached. -/
def Pc.span : Pc → Option (Nat × Nat)
  | .namex path | .skip path | .nul path | .tail path | .locked path | .last path | .lookup path =>
    some (path, path)
  | .elem e path | .elem0 e path => some (e, path)
  | .copy e path i => some (e + i, path)
  | .fetch _ _ | .done => none

/-- The address is one that `argstr` has passed, or that the walk has still to read
if no byte changes. -/
def Sys.Needs (s : Sys) (r a : Nat) : Prop :=
  match s.pc with
  | .fetch path x => path ≤ a ∧ a < x
  | pc => ∃ lo p, pc.span = some (lo, p) ∧ lo ≤ a ∧ ∀ e, p ≤ e → e < a → s.byte r e ≠ 0

/-- While the path is walked, the user code of the other thread leaves a NUL ahead of the walk, and
its `sbrk` stays away from the pages of the path. -/
def Careful (r q : Nat) (s : Sys) : Act → Prop
  | .go _ => True
  | .user _ mem => ∀ lo p, s.pc.span = some (lo, p) → ∃ e, p ≤ e ∧ e < s.sz r ∧ mem e = 0 ∧
      ∀ a, p ≤ a → a ≤ e → (s.k.p.space r).present (a / PGSIZE) = true
  | .sbrk n => ∀ a, s.Needs r a → ¬ WorksOn s.k q n (a / PGSIZE)

/-- There is a NUL at `e`, ahead of the walk, and all that is to be read up to it is mapped. -/
structure Ahead (s : Sys) (r lo p e : Nat) : Prop where
  first : lo ≤ p
  le : p ≤ e
  lt : e < s.sz r
  nul : s.byte r e = 0
  present : ∀ a, lo ≤ a → a ≤ e → (s.k.p.space r).present (a / PGSIZE) = true

/-- What holds at a place. -/
def Sys.At (s : Sys) (r : Nat) : Pc → Prop
  | .fetch path x => path ≤ x ∧ x ≤ s.sz r ∧
      ∀ a, path ≤ a → a < x → (s.k.p.space r).present (a / PGSIZE) = true
  | pc => ∀ lo p, pc.span = some (lo, p) → ∃ e, Ahead s r lo p e

structure Inv (r q sz : Nat) (s : Sys) : Prop where
  reads : ∀ x ∈ s.reads, x.1 < sz ∧ x.2 = true
  place : s.k.p.panicked = none → Threads s.k r q ∧ s.sz r = sz ∧ s.At r s.pc

section Walk

variable {r q sz : Nat} {s s' : Sys} {lo p e a : Nat}

theorem Ahead.mono (h : Ahead s r lo p e) {lo' p' : Nat} (h1 : lo ≤ lo') (h2 : lo' ≤ p')
    (h3 : p' ≤ e) :
    Ahead s r lo' p' e :=
  ⟨h2, h3, h.lt, h.nul, fun a ha hae => h.present a (h1.trans ha) hae⟩

/-- The walk goes past a byte that is not NUL. -/
theorem Ahead.next (h : Ahead s r lo p e) (hsmall : s.sz r < KERNBASE) (hne : s.byte r p ≠ 0) :
    uint (p + 1) = p + 1 ∧ Ahead s r lo (p + 1) e := by
  have hpe : p ≠ e := by
    rintro rfl
    exact hne h.nul
  have h1 := h.first
  have h2 := h.le
  have h3 := h.lt
  refine ⟨?_, h.mono le_rfl (by omega) (by omega)⟩
  simp only [uint, KERNBASE] at *
  omega

/-- A read of the path between `lo` and the NUL ahead. -/
theorem Inv.read (h : Inv r q sz s) (hcalm : s.k.p.panicked = none) (hahead : Ahead s r lo p e)
    (h1 : lo ≤ a) (h2 : a ≤ e) {next : UInt8 → Pc} (hat : s.At r (next (s.byte r a))) :
    Inv r q sz (s.read r a next) := by
  obtain ⟨hthreads, hsz, -⟩ := h.place hcalm
  have hmapped : s.mapped r a = true := by
    rw [Sys.mapped, hahead.present a h1 h2, Bool.or_true]
  have hread : s.read r a next =
      { s with reads := s.reads ++ [(a, true)], pc := next (s.byte r a) } := by
    have hnew : Sys.mapped { s with reads := s.reads ++ [(a, s.mapped r a)] } r a = true := hmapped
    rw [Sys.read, if_pos hnew, hmapped]
    rfl
  rw [hread]
  refine ⟨fun x hx => ?_, fun _ => ⟨hthreads, hsz, ?_⟩⟩
  · rcases List.mem_append.mp hx with hx | hx
    · exact h.reads x hx
    · grind [hahead.lt]
  · change Sys.At _ r (next (s.byte r a))
    generalize next (s.byte r a) = y at hat
    cases y with
    | fetch path x => exact hat
    | _ => exact fun lo p hspan => (hat lo p hspan).imp fun e he =>
      ⟨he.first, he.le, he.lt, he.nul, he.present⟩

/-- A step within the call that reads nothing. -/
theorem Inv.goto (h : Inv r q sz s) (hcalm : s.k.p.panicked = none) {x : Pc} (hat : s.At r x) :
    Inv r q sz (s.goto x) := by
  obtain ⟨hthreads, hsz, -⟩ := h.place hcalm
  refine ⟨h.reads, fun _ => ⟨hthreads, hsz, ?_⟩⟩
  cases x with
  | fetch path x => exact hat
  | _ => exact fun lo p hspan => (hat lo p hspan).imp fun e he =>
    ⟨he.first, he.le, he.lt, he.nul, he.present⟩

theorem Inv.trap (h : Inv r q sz s) : Inv r q sz s.trap := ⟨h.reads, fun hc => (by cases hc)⟩

/-- A place of the walk, from the NUL ahead of it. -/
theorem at_of_ahead {x : Pc} (hx : x.span = some (lo, p)) (h : Ahead s r lo p e) : s.At r x := by
  cases x with
  | fetch path y => cases hx
  | _ =>
    intro lo' p' hspan
    rw [hx] at hspan
    cases hspan
    exact ⟨e, h⟩

theorem at_done : s.At r .done := fun _ _ hspan => by cases hspan

theorem Inv.go (h : Inv r q sz s) (hcalm : s.k.p.panicked = none) {nameiparent ok : Bool}
    (hs : go r nameiparent s ok = some s') : Inv r q sz s' := by
  obtain ⟨hthreads, hsz, hat⟩ := h.place hcalm
  have hsmall : s.sz r < KERNBASE := hthreads.small.1
  unfold argstr.go at hs
  cases hpc : s.pc with
  | fetch path x =>
    rw [hpc] at hs hat
    obtain ⟨hle, -, hpresent⟩ := hat
    simp only at hs
    split at hs
    · rename_i hlt
      split at hs
      · rename_i hmapped
        cases hs
        have hx : (s.k.p.space r).present (x / PGSIZE) = true := by grind [Sys.mapped]
        have hall : ∀ a, path ≤ a → a ≤ x → (s.k.p.space r).present (a / PGSIZE) = true := by grind
        refine h.goto hcalm ?_
        split
        · rename_i hnul
          exact at_of_ahead rfl ⟨le_rfl, hle, hlt, hnul, hall⟩
        · rw [show uint (x + 1) = x + 1 by simp only [uint, KERNBASE] at *; omega]
          exact ⟨by omega, hlt, fun a h1 h2 => hall a h1 (by omega)⟩
      · cases hs
        exact h.trap
    · cases hs
      exact h.goto hcalm at_done
  | namex path =>
    rw [hpc] at hs hat
    cases hs
    obtain ⟨e, he⟩ := hat path path rfl
    exact h.read hcalm he le_rfl he.le (at_of_ahead rfl he)
  | skip path | tail path =>
    rw [hpc] at hs hat
    cases hs
    obtain ⟨e, he⟩ := hat path path rfl
    refine h.read hcalm he le_rfl he.le ?_
    split
    · rename_i hc
      obtain ⟨hu, he'⟩ := he.next hsmall (by rw [hc]; decide)
      rw [hu]
      exact at_of_ahead rfl (he'.mono (Nat.le_succ _) le_rfl he'.le)
    · exact at_of_ahead rfl he
  | nul path | last path =>
    rw [hpc] at hs hat
    cases hs
    obtain ⟨e, he⟩ := hat path path rfl
    refine h.read hcalm he le_rfl he.le ?_
    split
    · exact at_done
    · exact at_of_ahead rfl he
  | elem b path =>
    rw [hpc] at hs hat
    cases hs
    obtain ⟨e, he⟩ := hat b path rfl
    refine h.read hcalm he he.first he.le ?_
    split
    · exact at_of_ahead rfl he
    · exact at_of_ahead rfl he
  | elem0 b path =>
    rw [hpc] at hs hat
    cases hs
    obtain ⟨e, he⟩ := hat b path rfl
    refine h.read hcalm he he.first he.le ?_
    split
    · exact at_of_ahead rfl he
    · rename_i hc
      obtain ⟨hu, he'⟩ := he.next hsmall hc
      rw [hu]
      exact at_of_ahead rfl he'
  | copy b path i =>
    rw [hpc] at hs hat
    obtain ⟨e, he⟩ := hat (b + i) path rfl
    simp only at hs
    split at hs
    · rename_i hi
      cases hs
      have hle := he.le
      exact h.read hcalm he le_rfl (by omega)
        (at_of_ahead rfl (he.mono (Nat.le_succ _) (by omega) hle : Ahead s r (b + (i + 1)) path e))
    · cases hs
      exact h.goto hcalm (at_of_ahead rfl (he.mono he.first le_rfl he.le))
  | locked path =>
    rw [hpc] at hs hat
    cases hs
    obtain ⟨e, he⟩ := hat path path rfl
    refine h.goto hcalm ?_
    split
    · split
      · exact at_of_ahead rfl he
      · exact at_of_ahead rfl he
    · exact at_done
  | lookup path =>
    rw [hpc] at hs hat
    cases hs
    obtain ⟨e, he⟩ := hat path path rfl
    refine h.goto hcalm ?_
    split
    · exact at_of_ahead rfl he
    · exact at_done
  | done =>
    rw [hpc] at hs
    cases hs

/-- The same place, in a kernel where all that is needed is as it was. -/
theorem Sys.At.congr {k' : grow.Sys} {x : Pc} (h : s.At r x) (hsz : (k'.p.procs r).sz = s.sz r)
    (hfetch : ∀ path y, x = .fetch path y → ∀ a, path ≤ a → a < y →
      (k'.p.space r).present (a / PGSIZE) = true) (hwalk : ∀ lo p e, x.span = some (lo, p) →
      Ahead s r lo p e → ∃ e', Ahead { s with k := k' } r lo p e') :
    Sys.At { s with k := k' } r x := by
  cases x with
  | fetch path y => exact ⟨h.1, h.2.1.trans_eq hsz.symm, hfetch path y rfl⟩
  | _ =>
    intro lo p hspan
    obtain ⟨e, he⟩ := h lo p hspan
    exact hwalk lo p e hspan he

theorem Inv.user (h : Inv r q sz s) {tf : Trapframe} {mem : bytes.Mem}
    (hc : Careful r q s (.user tf mem)) {k' : grow.Sys}
    (hs : grow.step s.k (.proc (.user q tf mem)) = some k') : Inv r q sz { s with k := k' } := by
  have hcalm : s.k.p.panicked = none := by
    obtain ⟨p', hp, -⟩ := map_eq_some_iff.mp hs
    exact (ite_none_right_eq_some.mp hp).1.1
  obtain ⟨hthreads, hsz, hat⟩ := h.place hcalm
  obtain ⟨hthreads', hr, hpresent, hmem⟩ := user_step hthreads hs
  have hsz' : (k'.p.procs r).sz = s.sz r := by rw [hr, Sys.sz]
  refine ⟨h.reads, fun _ => ⟨hthreads', hsz'.trans hsz, ?_⟩⟩
  refine hat.congr hsz' (fun path y hpc a h1 h2 => ?_) fun lo p e hspan he => ?_
  · rw [hpc] at hat
    rw [hpresent]
    exact hat.2.2 a h1 h2
  · obtain ⟨e', hle, hlt, hnul, hpages⟩ := hc lo p hspan
    have hall : ∀ a, lo ≤ a → a ≤ e' → (s.k.p.space r).present (a / PGSIZE) = true := by
      intro a h1 h2
      by_cases hap : p ≤ a
      · exact hpages a hap h2
      · have := he.le
        exact he.present a h1 (by omega)
    refine ⟨e', he.first, hle, hlt.trans_eq hsz'.symm, ?_, fun a h1 h2 => ?_⟩
    · exact (hmem e' (hpages e' hle le_rfl)).trans hnul
    · grind

theorem Inv.sbrk (h : Inv r q sz s) {n : Int} (hc : Careful r q s (.sbrk n)) {k' : grow.Sys}
    (hs : grow.step s.k (.sbrk q n) = some k') : Inv r q sz { s with k := k' } := by
  have hcalm : s.k.p.panicked = none := (ite_none_right_eq_some.mp hs).1.1
  obtain ⟨hthreads, hsz, hat⟩ := h.place hcalm
  refine ⟨h.reads, fun hcalm' => ?_⟩
  obtain ⟨hthreads', hr, hpages⟩ := sbrk_step hthreads hs hcalm'
  have hsz' : (k'.p.procs r).sz = s.sz r := by rw [hr, Sys.sz]
  have hsmall : s.sz r < KERNBASE := hthreads.small.1
  refine ⟨hthreads', hsz'.trans hsz, ?_⟩
  refine hat.congr hsz' (fun path y hpc a h1 h2 => ?_) fun lo p e hspan he => ?_
  · rw [hpc] at hat
    have hneeds : s.Needs r a := by
      rw [Sys.Needs, hpc]
      exact ⟨h1, h2⟩
    have hy := hat.2.1
    exact (hpages a (by omega) (hc a hneeds) (hat.2.2 a h1 h2)).1
  · -- the first NUL ahead of the walk
    classical
    have hex : ∃ e, p ≤ e ∧ s.byte r e = 0 := ⟨e, he.le, he.nul⟩
    obtain ⟨hle, hnul⟩ := Nat.find_spec hex
    have hmin : Nat.find hex ≤ e := Nat.find_min' hex ⟨he.le, he.nul⟩
    have hneeds : ∀ a, lo ≤ a → a ≤ Nat.find hex → s.Needs r a := by
      intro a h1 h2
      have hfirst : ∀ e, p ≤ e → e < a → s.byte r e ≠ 0 := fun e h3 h4 h0 =>
        Nat.find_min hex (Nat.lt_of_lt_of_le h4 h2) ⟨h3, h0⟩
      unfold Sys.Needs
      cases hpc : s.pc with
      | fetch path y =>
        rw [hpc] at hspan
        cases hspan
      | _ =>
        rw [hpc] at hspan
        exact ⟨lo, p, hspan, h1, hfirst⟩
    have hkept : ∀ a, lo ≤ a → a ≤ Nat.find hex →
        (k'.p.space r).present (a / PGSIZE) = true ∧
        (k'.p.space r).mem a = (s.k.p.space r).mem a := by
      intro a h1 h2
      have hlt := he.lt
      exact hpages a (by omega) (hc a (hneeds a h1 h2)) (he.present a h1 (h2.trans hmin))
    refine ⟨Nat.find hex, he.first, hle, ?_, ?_, fun a h1 h2 => (hkept a h1 h2).1⟩
    · change Nat.find hex < (k'.p.procs r).sz
      rw [hsz']
      exact lt_of_le_of_lt hmin he.lt
    · exact (hkept _ (he.first.trans hle) le_rfl).2.trans hnul

theorem Inv.step (h : Inv r q sz s) {nameiparent : Bool} {a : Act} (hc : Careful r q s a)
    (hs : step r q nameiparent s a = some s') : Inv r q sz s' := by
  cases a with
  | go ok =>
    obtain ⟨hcalm, hs⟩ := ite_none_right_eq_some.mp hs
    exact h.go hcalm hs
  | user tf mem =>
    obtain ⟨k', hk, rfl⟩ := map_eq_some_iff.mp hs
    exact h.user hc hk
  | sbrk n =>
    obtain ⟨k', hk, rfl⟩ := map_eq_some_iff.mp hs
    exact h.sbrk hc hk

end Walk

theorem inv_start {k : grow.Sys} {r q : Nat} (h : Threads k r q) (path : Nat) :
    Inv r q (k.p.procs r).sz (start k r path) := by
  refine ⟨fun x hx => (by cases hx), fun _ => ⟨h, rfl, ?_⟩⟩
  change Sys.At _ r (if path ≥ (k.p.procs r).sz then .done else .fetch path path)
  split
  · exact at_done
  · rename_i hlt
    exact ⟨le_rfl, Nat.le_of_not_le hlt, fun a h1 h2 => absurd h1 (Nat.not_le.mpr h2)⟩

/-- As long as the other thread is careful, every read of the path is below the size that `argstr`
checked, and mapped. -/
theorem careful_threads_keep_paths (k : grow.Sys) (r q path : Nat) (nameiparent : Bool)
    (as : List Act) (s : Sys) (hthreads : Threads k r q)
    (hcareful : Along (step r q nameiparent) (Careful r q) (start k r path) as)
    (hrun : run (step r q nameiparent) (start k r path) as = some s) :
    ∀ x ∈ s.reads, x.1 < (k.p.procs r).sz ∧ x.2 = true :=
  (inv_of_along (fun _ _ _ h hc hs => h.step hc hs) (inv_start hthreads path) hcareful hrun).reads

/-- The first process and a thread of it run, with one page that has a path of one
letter at its end. -/
def pair (free : List Nat) : grow.Sys :=
  let b := grow.boot free
  let p := { b.p.procs 0 with state := .RUNNING }
  { b with p := { b.p with
      procs :=
        Function.update (Function.update b.p.procs 0 p) 1 { p with pid := 2, parent := some 0 }
      spaces := Function.update b.p.spaces 2
        { b.p.spaces 2 with mem := fun a => if a = 4094 then 97 else 0 } } }

theorem threads_pair (free : List Nat) : Threads (pair free) 0 1 := by
  have hsz : PGSIZE < KERNBASE := by decide
  refine ⟨by decide, rfl, ⟨hsz, hsz⟩, fun pg hpg => ?_⟩
  have hpresent : ((pair free).p.space 0).present pg = decide (pg = 0) := rfl
  have hmaps := grow.maps_boot free hpg
  rw [hpresent, Bool.eq_iff_iff, isSome_iff_ne_none, decide_eq_true_iff]
  exact hmaps.symm

/-- The thread asks for memory before the walk, and changes the letter during it. -/
def careful : List Act :=
  [.sbrk 4096, .go true, .go true, .go true, .user callFrame fun a => if a = 4094 then 98 else 0,
    .go true, .go true, .go true, .go true, .go true, .go true]

/-- The changes in the run above. -/
def Mild (s : Sys) : Act → Bool
  | .go _ => true
  | .user _ mem => s.pc = .skip 4094 && s.sz 0 = 4096 && mem 4095 = 0 && (s.k.p.space 0).present 0
  | .sbrk _ => s.pc = .fetch 4094 4094

theorem careful_of_mild {s : Sys} {a : Act} (h : Mild s a = true) : Careful 0 1 s a := by
  cases a with
  | go ok => trivial
  | user tf mem =>
    simp only [Mild, Bool.and_eq_true, decide_eq_true_eq] at h
    obtain ⟨⟨⟨hpc, hsz⟩, hnul⟩, hpresent⟩ := h
    intro lo p hspan
    rw [hpc] at hspan
    cases hspan
    refine ⟨4095, by decide, by rw [hsz]; decide, hnul, fun a h1 h2 => ?_⟩
    rw [show a / PGSIZE = 0 by simp only [PGSIZE]; omega]
    exact hpresent
  | sbrk n =>
    have hpc : s.pc = .fetch 4094 4094 := by simpa [Mild] using h
    intro a ha
    unfold Sys.Needs at ha
    rw [hpc] at ha
    exact absurd ha.1 (Nat.not_le.mpr ha.2)

theorem the_changed_letter_is_read : ∃ s,
    run (step 0 1 false) (start (pair [0x200000]) 0 4094) careful = some s ∧
      s.pc = .copy 4094 4095 0 ∧ ∀ x ∈ s.reads, x.1 < 4096 ∧ x.2 = true := by
  obtain ⟨s, hs, hend⟩ : ∃ s, run (step 0 1 false)
      (start (pair [0x200000]) 0 4094) careful = some s ∧
      s.pc = .copy 4094 4095 0 := by
    decide +kernel
  have hmild : Along (step 0 1 false)
      (fun s a => Mild s a = true) (start (pair [0x200000]) 0 4094) careful := by
    decide +kernel
  exact ⟨s, hs, hend,
    careful_threads_keep_paths _ 0 1 _ _ _ s (threads_pair _)
    (hmild.mono fun _ _ => careful_of_mild) hs⟩

/-- Init makes a thread, which runs on another processor. -/
def makesThread : List grow.Act :=
  [.proc (.run 0), .proc (.user 0 callFrame fun _ => 0), .proc (.clone 0 true), .proc (.run 1),
    .proc (.user 0 callFrame fun a => if a = 4094 then 97 else 0)]

/-- The thread overwrites the NUL after `argstr` has seen it. -/
def overwritten : List Act :=
  .go true :: .go true :: (.user callFrame fun _ => 97) :: List.replicate 8 (.go true)

/-- The walk runs past the end of the memory, and traps. -/
theorem the_walk_leaves_the_memory :
    ∃ k, run grow.step (grow.boot [0x200000]) makesThread = some k ∧
      (k.p.procs 0).pgdir = (k.p.procs 1).pgdir ∧ (k.p.procs 0).sz = 4096 ∧
      ∃ s, run (step 0 1 false) (start k 0 4094) overwritten = some s ∧
        (4096, false) ∈ s.reads ∧ s.k.p.panicked = some "trap" := by
  decide +kernel

end xv6.argstr
