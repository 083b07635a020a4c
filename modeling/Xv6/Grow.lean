-- The size law of growproc in proc.c: processes that share a page directory through clone, and
-- grow or shrink it with sbrk, each with a size of its own.
import Xv6.ProcDirs
import Xv6.VmPages

open runs WP

namespace xv6.grow

open proc vm

/-! ## The system -/

/-- The processes, and the page tables of their page directories. -/
structure Sys where
  p : proc.Sys
  vm : Vm
  /-- the page of the kernel stack of each process -/
  kpage : Nat → Nat

abbrev GrowM := EStateM String Sys

/-- Run a function of vm.c. -/
def onVm {α : Type} (x : VmM α) : GrowM α := zoom Sys.vm (fun vm s => { s with vm := vm }) x

def setProc (c : Nat) (f : Proc → Proc) : GrowM Unit :=
  modify fun s => { s with p := s.p.set c f }

/-- Grow the memory of process `c` by `n` bytes. -/
def growproc (c : Nat) (n : Int) : GrowM Int := do
  let proc := (← get).p.procs c
  if n > 0 then
    let sz ← onVm (allocuvm proc.pgdir proc.sz (ofInt (proc.sz + n)))
    if sz = 0 then pure (-1)
    else
      setProc c fun p => { p with sz := sz }
      pure 0
  else if n < 0 then
    let sz ← onVm (deallocuvm proc.pgdir proc.sz (ofInt (proc.sz + n)))
    if sz = 0 then pure (-1)
    else
      setProc c fun p => { p with sz := sz }
      pure 0
  else pure 0

/-- `sys_sbrk` with argument `n`, and its return to user code. -/
def sys_sbrk (c : Nat) (n : Int) : GrowM Unit := do
  let addr := ((← get).p.procs c).sz
  let r ← growproc c n
  let ret := if r < 0 then -1 else (addr : Int)
  setProc c fun p => { p with tf := { p.tf with eax := ofInt ret } }

/-- What user code and the kernel see of the pages of `c` after its `sbrk`: new pages are zero. -/
def refresh (old : Vm) (s : Sys) (c : Nat) : Sys :=
  let d := (s.p.procs c).pgdir
  let sp := s.p.spaces d
  { s with p := { s.p with spaces := Function.update s.p.spaces d {
      mem := fun a => if (old.pte d (PGROUNDDOWN a)).isSome then sp.mem a else 0
      present := fun pg => (s.vm.pte d (pg * PGSIZE)).isSome } } }

/-- The page of a kernel stack that a step of proc.c took, or gave back. `old` is the process table
before it. -/
def kstacks (old : proc.Sys) : GrowM Unit := do
  let s ← get
  match (List.range NPROC).find? fun i => (s.p.procs i).kstack ≠ (old.procs i).kstack with
  | none => pure ()
  | some i =>
    if (s.p.procs i).kstack = 0 then onVm (kfree (s.kpage i))
    else
      let page ← onVm kalloc
      modify fun s => { s with kpage := Function.update s.kpage i (page.getD 0) }

/-- The state after a function of the kernel, or after its panic. -/
def after (x : GrowM Unit) (s : Sys) : Sys :=
  match x s with
  | .ok _ s' => s'
  | .error msg s' => { s' with p := { s'.p with panicked := some msg } }

inductive Act where
  /-- a step of proc.c that neither makes nor frees a page directory -/
  | proc (a : proc.Act)
  | sbrk (c : Nat) (n : Int)

def keepsDirs : proc.Act → Bool
  | .fork _ _ | .exec _ _ | .wait _ => false
  | _ => true

/-- `clone` has a kernel stack for the new process exactly when there is a free page. -/
def hasPage (s : Sys) : proc.Act → Bool
  | .clone _ kstack => kstack == !s.vm.free.isEmpty
  | _ => true

/-- One step. After a panic nothing happens. -/
def step (s : Sys) (a : Act) : Option Sys :=
  match a with
  | .proc a =>
    if keepsDirs a ∧ hasPage s a then
      (proc.step s.p a).map fun p => after (kstacks s.p) { s with p := p }
    else none
  | .sbrk c n =>
    if s.p.panicked = none ∧ s.p.runs c none ∧ -2 ^ 31 ≤ n ∧ n < 2 ^ 31 then
      match sys_sbrk c n s with
      | .ok _ s' => some (refresh s.vm s' c)
      | .error msg s' => some { s' with p := { s'.p with panicked := some msg } }
    else none

/-! ## What the processes agree on -/

/-- The page directory and the size of a process that is not ZOMBIE. -/
def use (p : Proc) : Option (Nat × Nat) :=
  if p.state = .UNUSED ∨ p.state = .ZOMBIE then none else some (p.pgdir, p.sz)

/-- Processes with one page directory have one size, and the directory maps exactly the pages
below it. -/
structure Agree (s : Sys) : Prop where
  same : ∀ i j d x y, use (s.p.procs i) = some (d, x) → use (s.p.procs j) = some (d, y) → x = y
  mapped : ∀ i d sz, use (s.p.procs i) = some (d, sz) →
    sz < KERNBASE ∧ ∀ pg, pg * PGSIZE < KERNBASE → (s.vm.maps d pg ↔ pg * PGSIZE < sz)

/-- No other process that is not ZOMBIE has the page directory of `c`. -/
def Alone (s : Sys) (c : Nat) : Prop :=
  ∀ i sz, use (s.p.procs i) = some ((s.p.procs c).pgdir, sz) → i = c

/-- The size that `c` asks for with `sbrk(n)`. -/
def asked (s : Sys) (c : Nat) (n : Int) : Int := (s.p.procs c).sz + n

/-- The free pages that the growth takes. -/
def needed (s : Sys) (c : Nat) (n : Int) : Nat :=
  let proc := s.p.procs c
  s.vm.need proc.pgdir ((proc.sz + PGSIZE - 1) / PGSIZE) (pages proc.sz (asked s c n).toNat)

/-- The call asks for another size, and for one that it can get. -/
def Resizes (s : Sys) (c : Nat) (n : Int) : Prop :=
  n ≠ 0 ∧ 0 < asked s c n ∧ asked s c n < KERNBASE ∧ (0 < n → needed s c n ≤ s.vm.free.length)

/-- The free pages run out at the page table of the last new page. -/
def TableShort (s : Sys) (c : Nat) (n : Int) : Prop :=
  let proc := s.p.procs c
  let p0 := (proc.sz + PGSIZE - 1) / PGSIZE
  let k := pages proc.sz (asked s c n).toNat
  0 < n ∧ asked s c n < KERNBASE ∧ 0 < k ∧ s.vm.needsTable proc.pgdir p0 (p0 + (k - 1)) ∧
    s.vm.free.length + 1 = needed s c n

/-- A process changes its size only while nobody shares its page directory, never to zero, and
never when the free pages run out at the last page table. -/
def Fits (s : Sys) : Act → Prop
  | .proc _ => True
  | .sbrk c n => (Resizes s c n → Alone s c) ∧ (n < 0 → asked s c n ≠ 0) ∧ ¬ TableShort s c n

/-- A new size for `c` alone, with the pages that go with it. -/
theorem Agree.resize {s s' : Sys} {c d sz : Nat} (h : Agree s) (ha : Alone s c)
    (hd : (s.p.procs c).pgdir = d) (hsz : sz < KERNBASE)
    (hc : use (s'.p.procs c) = some (d, sz)) (hne : ∀ i, i ≠ c → s'.p.procs i = s.p.procs i)
    (hmaps : ∀ pg, pg * PGSIZE < KERNBASE → (s'.vm.maps d pg ↔ pg * PGSIZE < sz))
    (hother : ∀ d' pg, d' ≠ d → pg * PGSIZE < KERNBASE → (s'.vm.maps d' pg ↔ s.vm.maps d' pg)) :
    Agree s' := by
  have hdir : ∀ i x, use (s'.p.procs i) = some (d, x) → x = sz := by
    intro i x hi
    by_cases hic : i = c
    · grind
    · rw [hne i hic] at hi
      exact absurd (ha i x (hd ▸ hi)) hic
  have hold : ∀ i d' x, d' ≠ d → use (s'.p.procs i) = some (d', x) →
      use (s.p.procs i) = some (d', x) := by
    intro i d' x hd' hi
    by_cases hic : i = c
    · grind
    · rwa [hne i hic] at hi
  refine ⟨fun i j d' x y hi hj => ?_, fun i d' x hi => ?_⟩
  · by_cases hd' : d' = d
    · grind
    · exact h.same i j d' x y (hold i d' x hd' hi) (hold j d' y hd' hj)
  · by_cases hd' : d' = d
    · subst hd'
      rw [hdir i x hi]
      exact ⟨hsz, hmaps⟩
    · obtain ⟨h1, h2⟩ := h.mapped i d' x (hold i d' x hd' hi)
      exact ⟨h1, fun pg hpg => (hother d' pg hd' hpg).trans (h2 pg hpg)⟩

/-- A state with the same processes in use and the same pages mapped. -/
theorem Agree.congr {s s' : Sys} (h : Agree s)
    (hu : ∀ i v, use (s'.p.procs i) = some v → ∃ j, use (s.p.procs j) = some v)
    (hm : ∀ d pg, pg * PGSIZE < KERNBASE → (s'.vm.maps d pg ↔ s.vm.maps d pg)) : Agree s' := by
  refine ⟨fun i j d x y hi hj => ?_, fun i d sz hi => ?_⟩
  · grind [h.same]
  · obtain ⟨i', hi'⟩ := hu i _ hi
    obtain ⟨h1, h2⟩ := h.mapped i' d sz hi'
    exact ⟨h1, fun pg hpg => (hm d pg hpg).trans (h2 pg hpg)⟩

/-! ## The steps of proc.c -/

/-- Every page directory and size in use was in use before. -/
def Inherits (s s' : proc.Sys) : Prop :=
  ∀ i v, use (s'.procs i) = some v → ∃ j, use (s.procs j) = some v

variable {s : proc.Sys}

theorem inherits_of_use {s' : proc.Sys}
    (h : ∀ i, use (s'.procs i) = none ∨ ∃ j, use (s'.procs i) = use (s.procs j)) :
    Inherits s s' := by
  intro i v hv
  rcases h i with hn | ⟨j, hj⟩
  · rw [hn] at hv
    cases hv
  · exact ⟨j, hj ▸ hv⟩

theorem Inherits.trans {t u : proc.Sys} (h1 : Inherits s t) (h2 : Inherits t u) : Inherits s u := by
  intro i v hv
  obtain ⟨j, hj⟩ := h2 i v hv
  exact h1 j v hj

theorem inherits_set {i : Nat} {f : Proc → Proc}
    (h : use (f (s.procs i)) = none ∨ ∃ j, use (f (s.procs i)) = use (s.procs j)) :
    Inherits s (s.set i f) := by
  refine inherits_of_use fun q => ?_
  by_cases hq : q = i
  · subst hq
    simpa [proc.Sys.set] using h
  · exact Or.inr ⟨q, by simp [proc.Sys.set, hq]⟩

theorem inherits_wakeup1 (s : proc.Sys) (chan : Option Nat) : Inherits s (wakeup1 s chan) := by
  refine inherits_of_use fun q => Or.inr ⟨q, ?_⟩
  unfold wakeup1
  simp only
  split
  · rename_i h
    simp [use, h.1]
  · rfl

theorem inherits_reparent (s : proc.Sys) (c : Nat) : Inherits s (reparent s c) := by
  refine inherits_of_use fun q => Or.inr ⟨q, ?_⟩
  unfold reparent
  simp only
  split <;> rfl

/-- A call that makes no page directory and changes no size. -/
def Kept {α : Type} (x : ProcM α) (s : proc.Sys) : Prop :=
  spec x s (fun _ s' => s'.panicked = s.panicked ∧ Inherits s s') (fun e _ => e ≠ "remap")

theorem syscall_kept {call : ProcM Int} (c : Nat) (h : Kept call s) : Kept (syscall c call) s := by
  unfold Kept syscall
  rw [spec_bind]
  refine spec_mono h (fun n t ht => ?_) (fun _ _ he => he)
  rw [spec_modify]
  exact ⟨ht.1, ht.2.trans (inherits_set (Or.inr ⟨c, rfl⟩))⟩

theorem sleepingCall_kept {call : ProcM (Option Int)} (c : Nat) (h : Kept call s) :
    Kept (sleepingCall c call) s := by
  unfold Kept sleepingCall
  rw [spec_bind]
  refine spec_mono h (fun r t ht => ?_) (fun _ _ he => he)
  cases r with
  | none =>
    rw [spec_pure]
    exact ht
  | some n =>
    simp only [spec_modify]
    exact ⟨ht.1, ht.2.trans (inherits_set (Or.inr ⟨c, rfl⟩))⟩

theorem inherits_refl (s : proc.Sys) : Inherits s s := fun i _ h => ⟨i, h⟩

/-- The slot that `allocproc` took, filled with a copy of the caller's directory and size. -/
theorem inherits_embryo {np c : Nat} {x : Proc} {sp : Nat → Space} {st : List Nat}
    (hc : (s.procs c).state = .RUNNING) (hx : x.state = .RUNNABLE)
    (hd : x.pgdir = (s.procs c).pgdir) (hsz : x.sz = (s.procs c).sz) :
    Inherits s { embryo s np with
      procs := Function.update (embryo s np).procs np x, spaces := sp, stored := st } := by
  refine inherits_of_use fun q => Or.inr ?_
  by_cases hq : q = np
  · subst hq
    exact ⟨c, by simp [use, hc, hx, hd, hsz]⟩
  · exact ⟨q, by simp [hq, embryo_procs_ne hq]⟩

theorem clone_kept {c : Nat} (fn arg stack : Nat) (kstack : Bool)
    (hc : (s.procs c).state = .RUNNING) : Kept (clone c fn arg stack kstack) s := by
  unfold Kept clone
  rw [spec_bind]
  refine spec_mono (allocproc_spec s kstack) ?_ (fun _ _ h => h)
  rintro r s1 (⟨rfl, hq, hprocs, _⟩ | ⟨np, rfl, hnp, hu, rfl⟩)
  · rw [spec_pure]
    refine ⟨hq.panicked, inherits_of_use fun q => ?_⟩
    rcases hprocs q with h | h
    · exact Or.inr ⟨q, by rw [h]⟩
    · exact Or.inl (by simp [use, h])
  have hne : c ≠ np := by grind
  simp only [spec_bind, spec_get, spec_modify, spec_pure]
  rw [embryo_procs_ne hne]
  refine store_spec _ _ _ _ (fun sp1 st1 => ?_) (by decide)
  refine store_spec _ _ _ _ (fun sp2 st2 => ?_) (by decide)
  refine memmoveSelf_spec _ _ _ _ (fun st3 => ?_) (by decide)
  simp only [proc.Sys.set, Function.update_idem, Function.update_self]
  exact ⟨rfl, inherits_embryo hc rfl rfl rfl⟩

theorem sys_clone_kept {c : Nat} (kstack : Bool) (hc : (s.procs c).state = .RUNNING) :
    Kept (sys_clone c kstack) s := by
  unfold Kept sys_clone
  rw [spec_bind, spec_get]
  split
  · exact clone_kept _ _ _ kstack hc
  · rw [spec_pure]
    exact ⟨rfl, inherits_refl s⟩

theorem exit_kept (s : proc.Sys) (c : Nat) : Kept (exit c) s := by
  unfold Kept exit
  simp only [spec_bind, spec_get, spec_ite, spec_throw, spec_modify]
  have hdone : ∀ t, Inherits s t → Inherits s (t.set c fun p => { p with state := .ZOMBIE }) :=
    fun t ht => ht.trans (inherits_set (Or.inl (by simp [use])))
  have h1 := (inherits_wakeup1 s (s.procs c).parent).trans (inherits_reparent _ c)
  exact ⟨fun _ => by decide, fun _ =>
    ⟨fun _ => ⟨rfl, hdone _ (h1.trans (inherits_wakeup1 _ _))⟩, fun _ => ⟨rfl, hdone _ h1⟩⟩⟩

theorem join_kept {c : Nat} (hc : (s.procs c).state = .RUNNING) : Kept (join c) s := by
  unfold Kept join
  rw [spec_bind, spec_get]
  simp only
  cases hf : s.first
      (fun p => p.parent = some c ∧ p.pgdir = (s.procs c).pgdir ∧ p.state = .ZOMBIE) with
  | some i =>
    simp only [reap, spec_bind, spec_modify, spec_pure]
    refine store_spec _ _ _ _ (fun sp1 st1 => ?_) (by decide)
    refine store_spec _ _ _ _ (fun sp2 st2 => ?_) (by decide)
    exact ⟨rfl, inherits_set (s := { s with spaces := sp2, stored := st2 })
      (Or.inl (by simp [use]))⟩
  | none =>
    simp only [sleep, spec_bind, spec_ite, spec_pure, spec_modify]
    exact ⟨fun _ => ⟨trivial, inherits_refl s⟩,
      fun _ => ⟨rfl, inherits_set (Or.inr ⟨c, by simp [use, hc]⟩)⟩⟩

theorem kill_kept (s : proc.Sys) (pid : Int) : Kept (kill pid) s := by
  unfold Kept kill
  rw [spec_bind, spec_get]
  cases hf : s.first (fun p => p.pid = pid) with
  | some i =>
    simp only [spec_bind, spec_modify, spec_pure]
    refine ⟨rfl, inherits_set (Or.inr ⟨i, ?_⟩)⟩
    by_cases h : (s.procs i).state = .SLEEPING <;> simp [use, h]
  | none =>
    rw [spec_pure]
    exact ⟨rfl, inherits_refl s⟩

/-- The pages of kernel stacks are mapped by no page directory. -/
theorem kstacks_spec (old : proc.Sys) (s : Sys) : spec (kstacks old) s
    (fun _ s' => s'.p = s.p ∧ s'.vm.dirs = s.vm.dirs) (fun e _ => e ≠ "remap") := by
  unfold kstacks
  rw [spec_bind, spec_get]
  split
  · rw [spec_pure]
    exact ⟨rfl, rfl⟩
  · rw [spec_ite]
    refine ⟨fun _ => ?_, fun _ => ?_⟩
    · simp only [onVm, spec_zoom, kfree, spec_bind, spec_get, spec_ite, spec_throw, spec_set]
      exact ⟨fun _ => by decide, fun _ => ⟨trivial, trivial⟩⟩
    · simp only [onVm, spec_zoom, vm.kalloc, spec_bind, spec_get, spec_modify]
      split
      · rw [spec_pure]
        exact ⟨trivial, rfl⟩
      · rw [spec_bind, spec_set, spec_pure]
        exact ⟨trivial, rfl⟩

theorem after_kstacks {s : Sys} {old : proc.Sys}
    (h : ∀ i, (s.p.procs i).kstack = (old.procs i).kstack) :
    after (kstacks old) s = s := by
  have hnone : (List.range NPROC).find?
      (fun i => decide ((s.p.procs i).kstack ≠ (old.procs i).kstack)) = none := by
    simp [h]
  unfold after kstacks
  rw [get_bind]
  simp only [hnone]
  rfl

theorem act_kept {a : proc.Act} (he : enabled s a) (hk : keepsDirs a = true) : Kept (act a) s := by
  cases a with
  | run c =>
    exact spec_modify _ |>.mpr ⟨rfl, inherits_set (Or.inr ⟨c, by simp [use, he.2]⟩)⟩
  | yield c =>
    exact spec_modify _ |>.mpr ⟨rfl, inherits_set (Or.inr ⟨c, by simp [use, he.2.1]⟩)⟩
  | user c tf mem =>
    exact spec_modify _ |>.mpr ⟨rfl, inherits_set (s := s) (f := fun p => { p with tf := tf })
      (Or.inr ⟨c, rfl⟩)⟩
  | clone c kstack => exact syscall_kept c (sys_clone_kept kstack he.2.1)
  | exit c => exact exit_kept s c
  | join c => exact sleepingCall_kept c (join_kept he.2.1)
  | kill c pid => exact syscall_kept c (kill_kept s pid)
  | fork c m => cases hk
  | exec c image => cases hk
  | wait c => cases hk

/-! ## sbrk -/

/-- What `growproc` leaves: the processes still agree, and a caller that it did not refuse has
the size that it asked for. -/
structure Resized (s s' : Sys) (c : Nat) (n r : Int) : Prop where
  agree : Agree s'
  panicked : s'.p.panicked = s.p.panicked
  state : (s'.p.procs c).state = (s.p.procs c).state
  size : 0 ≤ n → 0 ≤ r → ((s'.p.procs c).sz : Int) = asked s c n

theorem use_of_running {p : Proc} (h : p.state = .RUNNING) : use p = some (p.pgdir, p.sz) := by
  simp [use, h]

theorem ofInt_of_nonneg {x : Int} (h0 : 0 ≤ x) (h1 : x < 2 ^ 32) : ofInt x = x.toNat := by
  simp only [ofInt]
  omega

theorem ofInt_of_neg {x : Int} (h0 : x < 0) (h1 : -2 ^ 32 ≤ x) : (ofInt x : Int) = x + 2 ^ 32 := by
  simp only [ofInt]
  omega

/-- A page of the user's half. -/
theorem page_lt_of_user {pg : Nat} (h : pg * PGSIZE < KERNBASE) : pg < 2 ^ 20 :=
  Nat.lt_trans (page_lt_of_lt (Nat.le_refl _) h) (by decide)

/-- The directory of a call that failed maps what it did, and the size is the same. -/
theorem Resized.refused {s : Sys} {c : Nat} {n : Int} (h : Agree s) {vm : Vm}
    (hm : ∀ d pg, pg < 2 ^ 20 → (vm.maps d pg ↔ s.vm.maps d pg)) :
    Resized s { s with vm := vm } c n (-1) :=
  ⟨h.congr (fun i _ hi => ⟨i, hi⟩) fun d pg hpg => hm d pg (page_lt_of_user hpg), rfl, rfl,
    fun _ h0 => absurd h0 (by decide)⟩

/-- The state with a new size for `c`, and with the page tables that go with it. -/
def resized (s : Sys) (c sz : Nat) (vm : Vm) : Sys :=
  { s with p := s.p.set c fun p => { p with sz := sz }, vm := vm }

theorem Agree.resized {s : Sys} {c sz : Nat} {vm : Vm} (h : Agree s) (ha : Alone s c)
    (hc : (s.p.procs c).state = .RUNNING) (hsz : sz < KERNBASE)
    (hm : ∀ d pg, pg * PGSIZE < KERNBASE → (vm.maps d pg ↔
      if d = (s.p.procs c).pgdir then pg * PGSIZE < sz else s.vm.maps d pg)) :
    Agree (resized s c sz vm) := by
  refine h.resize ha rfl hsz ?_ ?_ (fun pg hpg => ?_) (fun d' pg hd' hpg => ?_)
  · simp [grow.resized, proc.Sys.set, use, hc]
  · intro i hi
    simp [grow.resized, proc.Sys.set, hi]
  · have := hm (s.p.procs c).pgdir pg hpg
    rwa [if_pos rfl] at this
  · have := hm d' pg hpg
    rwa [if_neg hd'] at this

/-- The pages below the old size and the new ones are the pages below the new size. -/
theorem below_grown {vm : Vm} {d sz new pg : Nat} (hle : sz ≤ new)
    (hr : Range vm d sz new ((sz + PGSIZE - 1) / PGSIZE) (pages sz new)) :
    (pg * PGSIZE < sz ∨ (sz + PGSIZE - 1) / PGSIZE ≤ pg ∧
      pg < (sz + PGSIZE - 1) / PGSIZE + pages sz new) ↔ pg * PGSIZE < new := by
  have hlast := hr.last pg
  simp only [PGSIZE] at *
  omega

theorem below_shrunk {sz new pg : Nat} (hlt : new < sz) :
    (pg * PGSIZE < sz ∧ ¬ ((new + PGSIZE - 1) / PGSIZE ≤ pg ∧ pg * PGSIZE < sz)) ↔
    pg * PGSIZE < new := by
  simp only [PGSIZE]
  omega

section Growproc

variable {s : Sys} {c : Nat} {n : Int}

theorem ofInt_asked (hsz : (s.p.procs c).sz < KERNBASE) (hneg : ¬ asked s c n < 0)
    (hn : n < 2 ^ 31) :
    ofInt ((s.p.procs c).sz + n) = (asked s c n).toNat := by
  have hlt : asked s c n < 2 ^ 32 := by
    simp only [asked, KERNBASE] at *
    omega
  exact ofInt_of_nonneg (Int.not_lt.mp hneg) hlt

/-- A negative sum wraps to a size above the old one. -/
theorem deallocuvm_wraps (hneg : asked s c n < 0) (hn : -2 ^ 31 ≤ n) :
    deallocuvm (s.p.procs c).pgdir (s.p.procs c).sz (ofInt ((s.p.procs c).sz + n)) =
      pure (s.p.procs c).sz := by
  have hask := ofInt_of_neg hneg (by simp only [asked]; omega)
  unfold deallocuvm
  rw [if_pos]
  simp only [asked] at hneg hask ⊢
  omega

theorem allocuvm_kernel {d old new : Nat} (hk : ¬ new < KERNBASE) :
    allocuvm d old new = pure 0 := by
  unfold allocuvm
  rw [if_pos (by omega)]

/-- The pages below the size are there, and then none. -/
theorem packed_of_mapped {d sz : Nat} (hsz : sz < KERNBASE)
    (hmaps : ∀ pg, pg * PGSIZE < KERNBASE → (s.vm.maps d pg ↔ pg * PGSIZE < sz)) (q : Nat) :
    s.vm.packed d q sz := by
  refine ⟨sz, fun pg _ h2 => ?_⟩
  rw [hmaps pg (Nat.lt_trans h2 hsz)]
  simp only [PGSIZE] at *
  omega

/-- `growproc` with `n > 0`. -/
theorem grow_spec (h : Agree s) (hc : (s.p.procs c).state = .RUNNING) (hfit : Fits s (.sbrk c n))
    (hn : 0 < n) (hn' : n < 2 ^ 31) :
    spec (growproc c n) s (fun r s' => Resized s s' c n r) (fun e _ => e ≠ "remap") := by
  obtain ⟨hsz, hmaps⟩ := h.mapped c _ _ (use_of_running hc)
  obtain ⟨halone, _, hshort⟩ := hfit
  have hask := ofInt_asked (n := n) hsz (by simp only [asked]; omega) hn'
  have hnew : ((asked s c n).toNat : Int) = asked s c n := Int.toNat_of_nonneg (by
    simp only [asked]
    omega)
  have hle : (s.p.procs c).sz ≤ (asked s c n).toNat := by
    simp only [asked] at hnew ⊢
    omega
  unfold growproc
  simp only [spec_bind, spec_get, if_pos hn, onVm, spec_zoom, hask]
  by_cases hk : (asked s c n).toNat < KERNBASE
  · have hfresh : ∀ pg, (s.p.procs c).sz ≤ pg * PGSIZE → pg * PGSIZE < (asked s c n).toNat →
        ¬ s.vm.maps (s.p.procs c).pgdir pg := by
      intro pg h1 h2
      rw [hmaps pg (Nat.lt_trans h2 hk)]
      omega
    refine spec_mono (allocuvm_spec hle hk hfresh) ?_ (fun _ _ he => he)
    have hrange := range_of_fresh hle hk hfresh
    rintro r vm (⟨rfl, hg, hfree⟩ | ⟨j, hj, rfl, htab, hfree⟩ | ⟨rfl, hsame, _⟩)
    · have hpos : (asked s c n).toNat ≠ 0 := by
        simp only [asked]
        omega
      have ha := halone ⟨by omega, by omega, by omega, fun _ => hfree⟩
      simp only [if_neg hpos, setProc, spec_bind, spec_modify, spec_pure]
      refine ⟨?_, rfl, by simp [proc.Sys.set], fun _ _ => by simpa [proc.Sys.set] using hnew⟩
      refine Agree.resized h ha hc hk fun d pg hpg => ?_
      rw [hg.maps d pg (page_lt_of_user hpg)]
      split
      · grind [below_grown]
      · grind
    · exact absurd ⟨hn, by omega, by omega, by rwa [hj], hfree⟩ hshort
    · simp only [if_true, spec_pure]
      exact .refused h hsame
  · rw [allocuvm_kernel hk, spec_pure]
    simp only [if_true, spec_pure]
    exact .refused h fun _ _ _ => Iff.rfl

/-- `growproc` with `n < 0`. -/
theorem shrink_spec (h : Agree s) (hc : (s.p.procs c).state = .RUNNING) (hfit : Fits s (.sbrk c n))
    (hn : n < 0) (hn' : -2 ^ 31 ≤ n) :
    spec (growproc c n) s (fun r s' => Resized s s' c n r) (fun e _ => e ≠ "remap") := by
  obtain ⟨hsz, hmaps⟩ := h.mapped c _ _ (use_of_running hc)
  obtain ⟨halone, hzero, _⟩ := hfit
  unfold growproc
  simp only [spec_bind, spec_get, if_neg (Int.not_lt.mpr (Int.le_of_lt hn)), if_pos hn,
    onVm, spec_zoom]
  by_cases hneg : asked s c n < 0
  · rw [deallocuvm_wraps hneg hn', spec_pure]
    simp only [setProc, spec_ite, spec_bind, spec_modify, spec_pure]
    refine ⟨fun _ => .refused h fun _ _ _ => Iff.rfl, fun _ => ⟨?_, rfl, ?_, fun h0 => ?_⟩⟩
    · refine h.congr (fun i v hi => ?_) fun _ _ _ => Iff.rfl
      exact inherits_set (s := s.p) (i := c) (f := fun p => { p with sz := (s.p.procs c).sz })
        (Or.inr ⟨c, rfl⟩) i v hi
    · simp [proc.Sys.set]
    · omega
  · have hlt : (asked s c n).toNat < (s.p.procs c).sz := by
      simp only [asked] at *
      omega
    have hpos : (asked s c n).toNat ≠ 0 := by omega
    have ha := halone ⟨by omega, by omega, by omega, fun h0 => by omega⟩
    rw [ofInt_asked hsz hneg (by omega)]
    refine spec_mono (deallocuvm_spec (Nat.le_of_lt hsz) hlt (packed_of_mapped hsz hmaps _)) ?_
      (fun _ _ he => he)
    rintro r vm ⟨rfl, hu⟩
    simp only [if_neg hpos, setProc, spec_bind, spec_modify, spec_pure]
    refine ⟨?_, rfl, by simp [proc.Sys.set], fun h0 => by omega⟩
    refine Agree.resized h ha hc (Nat.lt_trans hlt hsz) fun d pg hpg => ?_
    rw [hu d pg (page_lt_of_user hpg)]
    split
    · grind
    · grind

theorem growproc_spec (h : Agree s) (hc : (s.p.procs c).state = .RUNNING)
    (hfit : Fits s (.sbrk c n)) (hn : -2 ^ 31 ≤ n) (hn' : n < 2 ^ 31) :
    spec (growproc c n) s (fun r s' => Resized s s' c n r) (fun e _ => e ≠ "remap") := by
  rcases Int.lt_trichotomy n 0 with hneg | rfl | hpos
  · exact shrink_spec h hc hfit hneg hn
  · unfold growproc
    simp only [spec_bind, spec_get, Int.lt_irrefl, if_false, spec_pure]
    exact ⟨h, rfl, rfl, fun _ _ => by simp [asked]⟩
  · exact grow_spec h hc hfit hpos hn'

/-- A growing call returns the bytes above the size that every process of the directory had, and
they are all below the size that every process of it has then; or it returns -1. -/
def ReturnsNew (s s' : Sys) (c : Nat) (n : Int) : Prop :=
  let addr := (s'.p.procs c).tf.eax
  addr = ofInt (-1) ∨
    (∀ i sz, use (s.p.procs i) = some ((s.p.procs c).pgdir, sz) → sz = addr) ∧
      ∀ i sz, use (s'.p.procs i) = some ((s'.p.procs c).pgdir, sz) → (sz : Int) = addr + n

theorem sys_sbrk_spec (h : Agree s) (hc : (s.p.procs c).state = .RUNNING)
    (hfit : Fits s (.sbrk c n)) (hn : -2 ^ 31 ≤ n) (hn' : n < 2 ^ 31) : spec (sys_sbrk c n) s
      (fun _ s' => Agree s' ∧ s'.p.panicked = s.p.panicked ∧ (0 ≤ n → ReturnsNew s s' c n))
      (fun e _ => e ≠ "remap") := by
  have hsz := (h.mapped c _ _ (use_of_running hc)).1
  unfold sys_sbrk
  simp only [spec_bind, spec_get]
  refine spec_mono (growproc_spec h hc hfit hn hn') (fun r t ht => ?_) (fun _ _ he => he)
  simp only [setProc, spec_modify]
  set f : Proc → Proc := fun p =>
    { p with tf := { p.tf with eax := ofInt (if r < 0 then -1 else ((s.p.procs c).sz : Int)) } }
  have hagree : Agree { t with p := t.p.set c f } := by
    refine ht.agree.congr (fun i v hi => ?_) fun _ _ _ => Iff.rfl
    exact inherits_set (s := t.p) (f := f) (Or.inr ⟨c, rfl⟩) i v hi
  have hself : (t.p.set c f).procs c = f (t.p.procs c) := by simp [proc.Sys.set]
  refine ⟨hagree, ht.panicked, fun h0 => ?_⟩
  unfold ReturnsNew
  simp only [hself]
  by_cases hr : r < 0
  · exact Or.inl (by simp [f, hr])
  · have hret : (f (t.p.procs c)).tf.eax = (s.p.procs c).sz := by grind [ofInt_of_nonneg]
    rw [hret]
    refine Or.inr ⟨fun i sz hi => h.same i c _ _ _ hi (use_of_running hc), fun i sz hi => ?_⟩
    have huse : use ((t.p.set c f).procs c) = some ((t.p.procs c).pgdir, (t.p.procs c).sz) := by
      rw [hself]
      exact use_of_running (p := f (t.p.procs c)) (ht.state.trans hc)
    rw [hagree.same i c _ _ _ hi huse]
    exact ht.size h0 (by omega)

end Growproc

/-! ## Every run -/

theorem Agree.refresh {old : Vm} {s : Sys} {c : Nat} (h : Agree s) : Agree (refresh old s c) :=
  h.congr (fun i _ hi => ⟨i, hi⟩) fun _ _ _ => Iff.rfl

/-- A step of `sbrk` that fits. -/
theorem step_sbrk {s s' : Sys} {c : Nat} {n : Int} (h : Agree s) (hfit : Fits s (.sbrk c n))
    (hs : step s (.sbrk c n) = some s') :
    Agree s' ∧ s'.p.panicked = none ∧ (0 ≤ n → ReturnsNew s s' c n) ∨
      ∃ e, s'.p.panicked = some e ∧ e ≠ "remap" := by
  simp only [step] at hs
  split at hs
  · rename_i hen
    obtain ⟨hp, hruns, hn, hn'⟩ := hen
    have hspec := sys_sbrk_spec h hruns.2.1 hfit hn hn'
    unfold spec at hspec
    split at hs <;> rename_i heq <;> rw [heq] at hspec <;> cases hs
    · exact Or.inl ⟨hspec.1.refresh, hspec.2.1.trans hp, hspec.2.2⟩
    · exact Or.inr ⟨_, rfl, hspec⟩
  · cases hs

theorem step_proc {s s' : Sys} {a : proc.Act} (h : Agree s) (hs : step s (.proc a) = some s') :
    Agree s' ∧ s'.p.panicked = none ∨ ∃ e, s'.p.panicked = some e ∧ e ≠ "remap" := by
  simp only [step] at hs
  split at hs
  · rename_i hk
    obtain ⟨p, hp, rfl⟩ := Option.map_eq_some_iff.mp hs
    obtain ⟨hnone, hen⟩ := enabled_of_step hp
    have hkept : Kept (act a) { s.p with stored := [] } :=
      act_kept (by cases a <;> exact hen) hk.1
    have hstacks := kstacks_spec s.p { s with p := p }
    unfold after
    cases hx : kstacks s.p { s with p := p } with
    | error msg t => exact Or.inr ⟨msg, rfl, of_spec_error (E := fun e _ => e ≠ "remap") hstacks hx⟩
    | ok u t =>
      have hsame := of_spec hstacks hx
      simp only at hsame
      obtain ⟨hp', hdirs⟩ := hsame
      rcases step_spec hp hkept with ⟨hpan, hinh⟩ | ⟨e, t, he, rfl⟩
      · refine Or.inl ⟨h.congr (fun i v hi => hinh i v (hp' ▸ hi)) fun d pg _ => ?_, ?_⟩
        · unfold Vm.maps Vm.pte
          rw [hdirs]
        · simp only [hp']
          exact hpan.trans hnone
      · exact Or.inr ⟨e, by simp only [hp'], he⟩
  · cases hs

/-- Before a panic the processes agree, and the panic is not that of `mappages`. -/
def Safe (s : Sys) : Prop := s.p.panicked ≠ some "remap" ∧ (s.p.panicked = none → Agree s)

theorem Safe.step {s s' : Sys} {a : Act} (h : Safe s) (hfit : Fits s a)
    (hs : step s a = some s') : Safe s' := by
  have hp : s.p.panicked = none := by
    cases a with
    | proc a =>
      simp only [grow.step] at hs
      split at hs
      · obtain ⟨p, hp, _⟩ := Option.map_eq_some_iff.mp hs
        exact (enabled_of_step hp).1
      · cases hs
    | sbrk c n =>
      simp only [grow.step] at hs
      split at hs
      · rename_i hen
        exact hen.1
      · cases hs
  have hcases : Agree s' ∧ s'.p.panicked = none ∨ ∃ e, s'.p.panicked = some e ∧ e ≠ "remap" := by
    cases a with
    | proc a => exact step_proc (h.2 hp) hs
    | sbrk c n =>
      rcases step_sbrk (h.2 hp) hfit hs with ⟨h1, h2, _⟩ | h1
      · exact Or.inl ⟨h1, h2⟩
      · exact Or.inr h1
  rcases hcases with ⟨h1, h2⟩ | ⟨e, he, hne⟩
  · exact ⟨by simp [h2], fun _ => h1⟩
  · exact ⟨by simpa [he] using hne, fun h0 => by simp [h0] at he⟩

/-- Processes agree on the size of a page directory that they share, the directory maps exactly
the pages below it, `sbrk` returns memory that none of them has, and `mappages` does not panic, in
every run where a process changes its size only while nobody shares its page directory, never to
zero, and never when the free pages run out at the last page table. -/
theorem threads_agree_on_their_size {s0 s : Sys} {as : List Act} (h0 : Agree s0)
    (hp : s0.p.panicked = none) (hfit : Along step Fits s0 as) (hrun : run step s0 as = some s) :
    s.p.panicked ≠ some "remap" ∧
      (s.p.panicked = none → Agree s ∧
        ∀ c n s', Fits s (.sbrk c n) → step s (.sbrk c n) = some s' → 0 ≤ n →
          s'.p.panicked = none → ReturnsNew s s' c n) := by
  have hsafe : Safe s :=
    inv_of_along (fun s a s' h hf hs => h.step hf hs) ⟨by simp [hp], fun _ => h0⟩ hfit hrun
  refine ⟨hsafe.1, fun hnone => ⟨hsafe.2 hnone, fun c n s' hf hs hn hok => ?_⟩⟩
  rcases step_sbrk (hsafe.2 hnone) hf hs with ⟨_, _, h⟩ | ⟨e, he, _⟩
  · exact h hn
  · rw [hok] at he
    cases he

/-- A page table with one entry, for page 0. -/
def firstTable : PageTable :=
  { page := 0x103000
    pte := fun j => if j = 0 then some ⟨0x104000, PTE_W + PTE_U⟩ else none }

/-- After `userinit`, with these free pages: directory 2 maps page 0. -/
def boot (free : List Nat) : Sys :=
  { p := userinit fun _ => 0
    vm :=
      { kend := 0x100000
        free := free
        ram := fun _ _ => 0
        dirs := fun d i => if d = 2 ∧ i = 0 then some firstTable else none }
    kpage := fun _ => 0x101000 }

theorem use_boot {free : List Nat} {i : Nat} {v : Nat × Nat}
    (h : use ((boot free).p.procs i) = some v) : i = 0 ∧ v = (2, PGSIZE) := by
  by_cases hi : i = 0
  · subst hi
    exact ⟨rfl, by simpa [use, boot, userinit, eq_comm] using h⟩
  · simp [use, boot, userinit, unused, hi] at h

theorem maps_boot (free : List Nat) {pg : Nat} (h : pg < 2 ^ 20) :
    (boot free).vm.maps 2 pg ↔ pg = 0 := by
  unfold Vm.maps Vm.pte boot
  rw [PDX_page, PTX_page]
  by_cases hi : pg / 1024 % 1024 = 0
  · by_cases hj : pg % 1024 = 0
    · simp only [hi, hj, firstTable, and_self, if_true, Option.bind_some, ne_eq, reduceCtorEq,
        not_false_eq_true, true_iff]
      omega
    · simp only [hi, hj, firstTable, and_self, if_true, if_false, Option.bind_some, ne_eq,
        not_true_eq_false, false_iff]
      omega
  · grind

theorem agree_boot (free : List Nat) : Agree (boot free) := by
  refine ⟨fun i j d x y hi hj => ?_, fun i d sz hi => ?_⟩
  · grind [use_boot, Prod.mk.injEq]
  · have h1 := (use_boot hi).2
    simp only [Prod.mk.injEq] at h1
    obtain ⟨rfl, rfl⟩ := h1
    refine ⟨by decide, fun pg hpg => ?_⟩
    rw [maps_boot free (page_lt_of_user hpg)]
    simp only [PGSIZE]
    omega

/-- Init runs. -/
def initRuns (free : List Nat) : Sys :=
  { boot free with p := (boot free).p.set 0 fun p => { p with state := .RUNNING } }

theorem alone_initRuns (free : List Nat) : Alone (initRuns free) 0 := by
  intro i sz h
  by_contra hi
  simp [initRuns, proc.Sys.set, use, boot, userinit, unused, hi] at h

/-- Init, before it has a thread, asks for a page. Then it makes a thread, which runs. -/
def growsFirst : List Act :=
  [.proc (.run 0), .sbrk 0 4096, .proc (.user 0 callFrame fun _ => 0), .proc (.clone 0 true),
    .proc (.run 1)]

theorem a_thread_has_the_new_size :
    ∃ s, run step (boot [0x200000, 0x201000]) growsFirst = some s ∧ Agree s ∧
      (s.p.procs 1).pgdir = 2 ∧ (s.p.procs 1).sz = 8192 := by
  have hrun : ∃ s, run step (boot [0x200000, 0x201000]) growsFirst = some s :=
    Option.isSome_iff_exists.mp (by decide +kernel)
  obtain ⟨s, hs⟩ := hrun
  have hfit : Along step Fits (boot [0x200000, 0x201000]) growsFirst := by
    have hstep : step (boot [0x200000, 0x201000]) (.proc (.run 0)) =
        some (initRuns [0x200000, 0x201000]) := rfl
    have hsbrk : Fits (initRuns [0x200000, 0x201000]) (.sbrk 0 4096) := by
      refine ⟨fun _ => alone_initRuns _, by decide, fun h => ?_⟩
      exact absurd h.2.2.2.1 (by decide)
    exact (along_cons hstep).mpr ⟨trivial, hsbrk, fun _ _ => ⟨trivial, fun _ _ => ⟨trivial,
      fun _ _ => ⟨trivial, fun _ _ => trivial⟩⟩⟩⟩
  have hfacts : (run step (boot [0x200000, 0x201000]) growsFirst).map (fun s =>
      (s.p.panicked, (s.p.procs 1).pgdir, (s.p.procs 1).sz)) = some (none, 2, 8192) := by
    decide +kernel
  simp only [hs, Option.map_some, Option.some.injEq, Prod.mk.injEq] at hfacts
  have h := threads_agree_on_their_size (agree_boot _) rfl hfit hs
  exact ⟨s, hs, (h.2 hfacts.1).1, hfacts.2⟩

/-- Init makes a thread, and both ask for a page: the thread still has the old size, and
`mappages` finds the page of its own `sbrk` mapped. -/
theorem two_threads_remap :
    (run step (boot [0x200000, 0x201000, 0x202000])
        [.proc (.run 0), .proc (.user 0 callFrame fun _ => 0), .proc (.clone 0 true),
          .sbrk 0 4096, .proc (.run 1), .sbrk 1 4096]).map
      (fun s => s.p.panicked) = some (some "remap") := by
  decide +kernel

end xv6.grow
