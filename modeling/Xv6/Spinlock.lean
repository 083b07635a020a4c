-- The spin locks of spinlock.c: CPUs that acquire and release locks, one write to a lock at a time,
-- and the nesting of pushcli and popcli that keeps interrupts off. The critical sections of the
-- other modules rest on this.
import Xv6.Places
import Xv6.Runs

open Function Option places runs

namespace xv6.spinlock

/-! ## The state -/

/-- Where a CPU stands. -/
inductive Pc where
  /-- outside of `acquire` and `release` -/
  | run
  /-- in `acquire`, at `xchg` -/
  | spin (l : Nat)
  /-- in `acquire`, at `lk->cpu = cpu` -/
  | won (l : Nat)
  /-- in `release`, at `xchg` -/
  | leave (l : Nat)
  deriving DecidableEq

structure Cpu where
  /-- FL_IF of the flags -/
  ints : Bool
  ncli : Int
  intena : Bool
  pc : Pc
  /-- history: the locks that `acquire` has returned with, and that were not passed
  to `release` since -/
  held : List Nat
  /-- history: FL_IF outside of all `pushcli` -/
  outer : Bool

/-- `struct spinlock`. -/
structure Spinlock where
  locked : Bool
  cpu : Option Nat

structure Sys where
  cpus : Nat → Cpu
  locks : Nat → Spinlock
  panicked : Option String

/-- After `initlock` of every lock. -/
def init (ints : Nat → Bool) : Sys :=
  { cpus := fun c => ⟨ints c, 0, false, .run, [], ints c⟩, locks := fun _ => ⟨false,
  none⟩, panicked := none }

def Sys.set (s : Sys) (c l : Nat) (x : Cpu) (k : Spinlock) : Sys :=
  { s with cpus := update s.cpus c x, locks := update s.locks l k }

/-! ## The steps -/

def pushcli (x : Cpu) : Cpu :=
  { x with ints := false, ncli := x.ncli + 1, intena := if x.ncli = 0 then x.ints else x.intena }

/-- `popcli`, or the message of its panic. -/
def popcli (x : Cpu) : Except String Cpu :=
  if x.ints then .error "popcli - interruptible"
  else if x.ncli - 1 < 0 then .error "popcli"
  else .ok { x with ncli := x.ncli - 1, ints := x.ncli - 1 = 0 && x.intena }

/-- `holding(lk)` on CPU `c`. -/
def holding (lk : Spinlock) (c : Nat) : Bool := lk.locked && lk.cpu = some c

/-- `acquire` on CPU `c`, up to its loop. -/
def acquire (s : Sys) (c l : Nat) : Sys :=
  let x := pushcli (s.cpus c)
  if holding (s.locks l) c then { s.set c l x (s.locks l) with panicked := some "acquire" }
  else s.set c l { x with pc := .spin l } (s.locks l)

/-- `release` on CPU `c`, up to its `xchg`. -/
def release (s : Sys) (c l : Nat) : Sys :=
  if !holding (s.locks l) c then { s with panicked := some "release" }
  else
    s.set c l { s.cpus c with pc := .leave l, held := (s.cpus c).held.erase l }
      { s.locks l with cpu := none }

/-- The next step of `acquire` or `release` on CPU `c`. -/
def go (s : Sys) (c : Nat) : Option Sys :=
  match (s.cpus c).pc with
  | .run => none
  | .spin l =>
    if (s.locks l).locked then some s
    else some (s.set c l { s.cpus c with pc := .won l } { s.locks l with locked := true })
  | .won l =>
    some (s.set c l { s.cpus c with pc := .run, held := l :: (s.cpus c).held }
      { s.locks l with cpu := some c })
  | .leave l =>
    match popcli { s.cpus c with pc := .run } with
    | .ok x => some (s.set c l x { s.locks l with locked := false })
    | .error msg =>
      some { s.set c l (s.cpus c) { s.locks l with locked := false } with panicked := some msg }

/-- What can happen next on CPU `c`. -/
inductive Act where
  | acquire (c l : Nat)
  | release (c l : Nat)
  | go (c : Nat)
  /-- outside of all `pushcli`, interrupts are turned on or off: by `sti`, or on the way into a trap
  or out of it -/
  | flags (c : Nat) (ints : Bool)

def step (s : Sys) (a : Act) : Option Sys :=
  if s.panicked.isSome then none
  else
    match a with
    | .acquire c l => if (s.cpus c).pc = .run then some (acquire s c l) else none
    | .release c l => if (s.cpus c).pc = .run then some (release s c l) else none
    | .go c => go s c
    | .flags c b =>
      if (s.cpus c).ncli = 0 then
        some { s with cpus := update s.cpus c { s.cpus c with ints := b, outer := b } }
      else none

/-! ## The invariant -/

/-- The CPU is between the `xchg` of `acquire` and the `xchg` of `release`. -/
def Inside (l : Nat) (x : Cpu) : Prop := l ∈ x.held ∨ x.pc = .won l ∨ x.pc = .leave l

structure Cpu.Ok (x : Cpu) : Prop where
  ncli : x.ncli = x.held.length + if x.pc = .run then 0 else 1
  ints : x.ints = (decide (x.ncli = 0) && x.outer)
  intena : x.ncli ≠ 0 → x.intena = x.outer
  nodup : x.held.Nodup
  apart : ∀ l, x.pc = .won l ∨ x.pc = .leave l → l ∉ x.held

/-- The lock is taken exactly if a CPU is inside, and names the CPU that holds it. -/
structure Sys.Guards (s : Sys) (l : Nat) : Prop where
  one : ∃ o, Owns (Inside l) o s.cpus ∧ ((s.locks l).locked = true ↔ o ≠ none)
  cpu : ∀ c, (s.locks l).cpu = some c ↔ l ∈ (s.cpus c).held

structure Inv (s : Sys) : Prop where
  ok : ∀ c, (s.cpus c).Ok
  guards : ∀ l, s.Guards l

theorem inv_init (ints : Nat → Bool) : Inv (init ints) := by
  refine ⟨fun c => ⟨rfl, rfl, absurd rfl, List.nodup_nil, nofun⟩, fun l =>
    ⟨⟨none, fun c => ?_, ?_⟩, fun c => ?_⟩⟩ <;> simp [init, Inside]

section Inv

variable {s s' : Sys} {c l : Nat} {x : Cpu} {k : Spinlock} {a : Act}

theorem Sys.Guards.holding (h : s.Guards l) :
    holding (s.locks l) c = true ↔ l ∈ (s.cpus c).held := by
  obtain ⟨⟨o, ho, hl⟩, hc⟩ := h
  grind [spinlock.holding, Inside, ho c, hc c]

/-- A CPU changes, and where it stands to lock `l`. -/
theorem Inv.set (h : Inv s) (hx : x.Ok)
    (hone : ∃ o, Owns (Inside l) o (update s.cpus c x) ∧ (k.locked = true ↔ o ≠ none))
    (hcpu : k.cpu = (s.locks l).cpu ∧ x.held = (s.cpus c).held ∨
      Inside l (s.cpus c) ∧ k.cpu = if l ∈ x.held then some c else none)
    (hother : ∀ l' ≠ l, (l' ∈ x.held ↔ l' ∈ (s.cpus c).held) ∧
      (x.pc = .won l' ∨ x.pc = .leave l' ↔ (s.cpus c).pc = .won l' ∨ (s.cpus c).pc = .leave l')) :
    Inv (s.set c l x k) := by
  refine ⟨forall_move h.ok hx, fun l' => ?_⟩
  obtain ⟨⟨o, ho, hlk⟩, hc⟩ := h.guards l'
  by_cases hl : l' = l
  · subst hl
    refine ⟨by simpa [Sys.set] using hone, fun c' => ?_⟩
    have hunique : Inside l' (s.cpus c) → l' ∈ (s.cpus c').held → c' = c := fun hin hm =>
      ho.unique (Or.inl hm) hin
    by_cases hcc : c' = c
    · simp only [Sys.set, hcc, update_self]
      grind
    · simp only [Sys.set, update_self, update_of_ne hcc]
      grind
  · obtain ⟨hheld, hpc⟩ := hother l' hl
    refine ⟨⟨o, ho.move (or_congr hheld hpc), by simpa [Sys.set, hl] using hlk⟩, fun c' => ?_⟩
    by_cases hcc : c' = c <;> simp [Sys.set, hl, hcc, hc, hheld]

theorem Inv.acquire (h : Inv s) (hpc : (s.cpus c).pc = .run) (hl : l ∉ (s.cpus c).held) :
    Inv (acquire s c l) ∧ (acquire s c l).panicked = s.panicked := by
  obtain ⟨h1, h2, h3, h4, h5⟩ := h.ok c
  obtain ⟨o, ho, hlk⟩ := (h.guards l).one
  rw [spinlock.acquire, if_neg fun hh => hl ((h.guards l).holding.mp hh)]
  refine ⟨h.set ?_ ⟨o, ho.move ?_, hlk⟩ (Or.inl ⟨rfl, rfl⟩) ?_, rfl⟩
  · constructor <;> grind [pushcli]
  · simp [Inside, hpc, pushcli]
  · simp [pushcli, hpc]

theorem Inv.release (h : Inv s) (hpc : (s.cpus c).pc = .run) (hl : l ∈ (s.cpus c).held) :
    Inv (release s c l) ∧ (release s c l).panicked = s.panicked := by
  obtain ⟨h1, h2, h3, h4, h5⟩ := h.ok c
  obtain ⟨o, ho, hlk⟩ := (h.guards l).one
  rw [spinlock.release, if_neg (by simp [(h.guards l).holding.mpr hl])]
  refine ⟨h.set ?_ ⟨o, ho.move (iff_of_true (Or.inr (Or.inr rfl)) (Or.inl hl)), hlk⟩
    (Or.inr ⟨Or.inl hl, by simp [h4.not_mem_erase]⟩) ?_, rfl⟩
  · constructor <;> grind
  · grind

theorem popcli_ok (h1 : x.ints = false) (h2 : 0 < x.ncli) :
    popcli x = .ok { x with ncli := x.ncli - 1, ints := x.ncli - 1 = 0 && x.intena } := by
  rw [popcli, if_neg (by simp [h1]), if_neg (by omega)]

theorem Inv.go (h : Inv s) (hs : go s c = some s') : Inv s' ∧ s'.panicked = s.panicked := by
  obtain ⟨h1, h2, h3, h4, h5⟩ := h.ok c
  cases hpc : (s.cpus c).pc with
  | run => simp [spinlock.go, hpc] at hs
  | spin l =>
    obtain ⟨o, ho, hl⟩ := (h.guards l).one
    simp only [spinlock.go, hpc] at hs
    split at hs <;> obtain rfl := some.inj hs
    · exact ⟨h, rfl⟩
    · obtain rfl : o = none := by simp_all
      have hout := fun hm => ho.none_iff.mp rfl c (Or.inl hm)
      refine ⟨h.set ?_ ⟨some c, ho.acquire (Or.inr (Or.inl rfl)), by simp⟩
        (Or.inl ⟨rfl, rfl⟩) ?_, rfl⟩
      · constructor <;> grind
      · grind
  | won l =>
    obtain ⟨o, ho, hl⟩ := (h.guards l).one
    have hin : Inside l (s.cpus c) := Or.inr (Or.inl hpc)
    simp only [spinlock.go, hpc, some.injEq] at hs
    subst hs
    refine ⟨h.set ?_ ⟨o, ho.move (iff_of_true (Or.inl List.mem_cons_self) hin), hl⟩
      (Or.inr ⟨hin, by simp⟩) ?_, rfl⟩
    · constructor <;> grind
    · grind
  | leave l =>
    obtain ⟨o, ho, hl⟩ := (h.guards l).one
    have hpop := popcli_ok (x := { s.cpus c with pc := .run }) (by grind) (by grind)
    simp only [spinlock.go, hpc, hpop, some.injEq] at hs
    subst hs
    refine ⟨h.set ?_ ⟨none, ho.release (Or.inr (Or.inr hpc)) ?_, by simp⟩ (Or.inl ⟨rfl,
      rfl⟩) ?_, rfl⟩
    · constructor <;> grind
    · simp [Inside, h5 l (Or.inr hpc)]
    · grind

/-- The caller is wrong about the lock: it acquires one that it holds, or releases one
that it does not. -/
def Misuse (s : Sys) (msg : String) : Act → Prop
  | .acquire c l => msg = "acquire" ∧ l ∈ (s.cpus c).held
  | .release c l => msg = "release" ∧ l ∉ (s.cpus c).held
  | _ => False

theorem Inv.step (h : Inv s) (hs : step s a = some s') :
    Inv s' ∧ s'.panicked = none ∨ ∃ msg, s'.panicked = some msg ∧ Misuse s msg a := by
  obtain ⟨hfine, hs⟩ := ite_none_left_eq_some.mp hs
  rw [Bool.not_eq_true, isSome_eq_false_iff, isNone_iff_eq_none] at hfine
  cases a with
  | acquire c l =>
    obtain ⟨hpc, hs⟩ := ite_none_right_eq_some.mp hs
    obtain rfl := some.inj hs
    by_cases hl : l ∈ (s.cpus c).held
    · refine Or.inr ⟨"acquire", ?_, rfl, hl⟩
      rw [spinlock.acquire, if_pos ((h.guards l).holding.mpr hl)]
    · exact Or.inl (hfine ▸ h.acquire hpc hl)
  | release c l =>
    obtain ⟨hpc, hs⟩ := ite_none_right_eq_some.mp hs
    obtain rfl := some.inj hs
    by_cases hl : l ∈ (s.cpus c).held
    · exact Or.inl (hfine ▸ h.release hpc hl)
    · refine Or.inr ⟨"release", ?_, rfl, hl⟩
      rw [spinlock.release, if_pos (by simpa using fun hh => hl ((h.guards l).holding.mp hh))]
  | flags c b =>
    obtain ⟨h1, h2, h3, h4, h5⟩ := h.ok c
    obtain ⟨o, ho, hl⟩ := (h.guards 0).one
    obtain ⟨hz, hs⟩ := ite_none_right_eq_some.mp hs
    have hset := h.set (x := { s.cpus c with ints := b, outer := b }) (by constructor <;> grind)
      ⟨o, ho.move (p := c) Iff.rfl, hl⟩ (Or.inl ⟨rfl, rfl⟩) fun _ _ => ⟨Iff.rfl, Iff.rfl⟩
    exact some.inj hs ▸ Or.inl ⟨by simpa [Sys.set] using hset, hfine⟩
  | go c => exact Or.inl (hfine ▸ h.go hs)

end Inv

/-- Spin locks keep critical sections apart. In every state of every run without a panic: one CPU at
most is inside of a lock, and one is exactly if the lock is taken; interrupts are off there; and a
CPU that holds no lock has them as it had them before. A panic comes only from a caller that is
wrong about a lock, and never from `popcli`. -/
theorem spin_locks_exclude (ints : Nat → Bool) (as : List Act) (s : Sys)
    (hrun : run step (init ints) as = some s) (hfine : s.panicked = none) :
    (∀ l c c', Inside l (s.cpus c) → Inside l (s.cpus c') → c = c') ∧
    (∀ l, (s.locks l).locked = true ↔ ∃ c, Inside l (s.cpus c)) ∧
    (∀ l c, Inside l (s.cpus c) → (s.cpus c).ints = false) ∧
    (∀ c, (s.cpus c).pc = .run → (s.cpus c).held = [] → (s.cpus c).ints = (s.cpus c).outer) ∧
    ∀ a s' msg, step s a = some s' → s'.panicked = some msg → Misuse s msg a := by
  have h : Inv s := by
    refine inv_of_run (I := fun s => s.panicked = none → Inv s) (fun s a s' h hs hfine => ?_)
      (fun _ => inv_init ints) hrun hfine
    obtain ⟨hold, _⟩ := ite_none_left_eq_some.mp hs
    rcases (h (by simpa using hold)).step hs with hs | ⟨msg, hm, _⟩
    · exact hs.1
    · rw [hfine] at hm
      cases hm
  refine ⟨fun l c c' hc hc' => ?_, fun l => ?_, fun l c hin => ?_, fun c hpc hheld => ?_,
    fun a s' msg hs hm => ?_⟩
  · obtain ⟨o, ho, _⟩ := (h.guards l).one
    exact ho.unique hc hc'
  · obtain ⟨o, ho, hl⟩ := (h.guards l).one
    rw [hl, ne_eq, ho.none_iff, not_forall_not]
  · obtain ⟨h1, h2, -⟩ := h.ok c
    have hne : (s.cpus c).ncli ≠ 0 := by
      rcases hin with hin | hin | hin
      · have := List.length_pos_of_mem hin
        grind
      · grind
      · grind
    simp [h2, hne]
  · obtain ⟨h1, h2, -⟩ := h.ok c
    rw [h2, h1, hpc, hheld]
    rfl
  · rcases h.step hs with ⟨_, hn⟩ | ⟨_, hm', hmis⟩
    · rw [hn] at hm
      cases hm
    · exact some.inj (hm'.symm.trans hm) ▸ hmis

/-- CPU 0 acquires two locks and releases one, while CPU 1 spins for the other. -/
def contention : List Act :=
  [.acquire 0 5, .go 0, .go 0, .acquire 1 5, .go 1, .acquire 0 6, .go 0, .go 0, .release 0 6, .go 0]

theorem cpu_0_is_inside_alone : ∃ s, run step (init fun _ => true) contention = some s ∧
    (s.cpus 1).pc = .spin 5 ∧ (s.cpus 0).ints = false ∧ ¬ Inside 5 (s.cpus 1) := by
  obtain ⟨s, hs, hfine, h0, h1⟩ : ∃ s, run step (init fun _ => true) contention = some s ∧
      s.panicked = none ∧ (s.cpus 0).held = [5] ∧ (s.cpus 1).pc = .spin 5 := by decide +kernel
  obtain ⟨hone, -, hints, -⟩ := spin_locks_exclude _ _ s hs hfine
  have hin : Inside 5 (s.cpus 0) := Or.inl (by simp [h0])
  exact ⟨s, hs, h1, hints 5 0 hin, fun h => by cases hone 5 0 1 hin h⟩

end xv6.spinlock
