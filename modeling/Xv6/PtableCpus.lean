-- Which CPU runs which process, and who holds ptable.lock: the lock is handed over at swtch, a
-- process is the current one of one CPU at most, and nobody touches the state of a process that
-- another CPU runs.
import Xv6.Ptable

open Option runs
open Function (update update_of_ne update_self)

namespace xv6.ptable

open proc (Procstate Call)

/-! ## Places -/

/-- The places that `acquire(&ptable.lock)` leads to. -/
def Pc.entry : Pc → Bool
  | .alloc _ | .ready .. | .exit_wake | .scan _ | .sleep none _ | .wakeup1 .. | .kill _
  | .yield _ => true
  | _ => false

/-- The places that `sched` returns to. -/
def Pc.resumed : Pc → Bool
  | .tidy _ | .release _ | .zombie => true
  | _ => false

/-- The places of a process on a CPU without the lock. -/
def Pc.plain : Pc → Bool
  | .user | .stack .. | .copy .. | .adopt .. | .acquire _ => true
  | _ => false

/-- Each place goes on where it can. -/
def Pc.Fits : Pc → Prop
  | .acquire x => x.entry = true ∧ x.Fits
  | .wakeup1 _ b | .yield b | .release b => b.plain = true ∧ b.Fits
  | .sched x | .off x => x.resumed = true ∧ x.Fits
  | _ => True

/-- The slot that a `fork` or `clone` has allocated and not yet made RUNNABLE. -/
def Pc.embryo : Pc → Option Nat
  | .stack _ np | .copy _ np | .adopt _ np | .ready _ np => some np
  | .acquire x | .wakeup1 _ x | .yield x | .release x | .sched x | .off x => x.embryo
  | _ => none

/-- The state that a process has at a place on a CPU. -/
def Pc.Stands (st : Procstate) : Pc → Prop
  | .sched _ => st = .RUNNABLE ∨ st = .SLEEPING ∨ st = .ZOMBIE
  | .off _ => False
  | _ => st = .RUNNING

theorem Pc.locked_of_entry {x : Pc} (h : x.entry = true) : x.locked = true := by
  cases x <;> simp_all [Pc.entry, Pc.locked]

theorem Pc.locked_of_resumed {x : Pc} (h : x.resumed = true) : x.locked = true := by
  cases x <;> simp_all [Pc.resumed, Pc.locked]

theorem Pc.locked_of_plain {x : Pc} (h : x.plain = true) : x.locked = false := by
  cases x <;> simp_all [Pc.plain, Pc.locked]

variable {st : Procstate}

theorem Pc.stands_of_entry {x : Pc} (h : x.entry = true) : x.Stands st ↔ st = .RUNNING := by
  cases x <;> simp_all [Pc.entry, Pc.Stands]

theorem Pc.stands_of_resumed {x : Pc} (h : x.resumed = true) : x.Stands st ↔ st = .RUNNING := by
  cases x <;> simp_all [Pc.resumed, Pc.Stands]

theorem Pc.stands_of_plain {x : Pc} (h : x.plain = true) : x.Stands st ↔ st = .RUNNING := by
  cases x <;> simp_all [Pc.plain, Pc.Stands]

/-! ## What a process does -/

theorem first_eq_some {q : Nat} {test : Nat → Prop} [DecidablePred test]
    (h : Table.first test = some q) :
    q < NPROC ∧ test q :=
  (bytes.scan_eq_some h).imp_right of_decide_eq_true

theorem first_eq_none {test : Nat → Prop} [DecidablePred test] (h : Table.first test = none) :
    ∀ q < NPROC, ¬ test q :=
  fun _ hq => of_decide_eq_false (bytes.scan_eq_none h hq)

/-- What the process `p`, which is RUNNING, does to the table on its way to `x`. -/
inductive Does (s : Sys) (p : Nat) : Pc → Table → Prop where
  | alloc (k : Creator) (np : Nat) (h : s.pc p = .alloc k) (hlt : np < NPROC)
      (hnp : (s.tab.procs np).state = .UNUSED) : Does s p (.release (.stack k np)) (s.tab.alloc np)
  | stack (k : Creator) (np : Nat) (h : s.pc p = .stack k np) :
      Does s p (.copy k np) (s.tab.stack np)
  | abandon (k : Creator) (np : Nat) (h : s.pc p = .stack k np ∨ s.pc p = .copy k np) :
      Does s p .user (s.tab.abandon np)
  | pgdir (k : Creator) (np d : Nat) (h : s.pc p = .copy k np)
      (hd : k = .clone → d = (s.tab.procs p).pgdir) : Does s p (.adopt k np) (s.tab.setPgdir np d)
  | adopt (k : Creator) (np : Nat) (h : s.pc p = .adopt k np) :
      Does s p (.acquire (.ready k np)) (s.tab.adopt np p)
  | ready (k : Creator) (np : Nat) (h : s.pc p = .ready k np) :
      Does s p (.release .user) (s.tab.ready k np p)
  | wakeup (chan : Nat) (b : Pc) (h : s.pc p = .wakeup1 chan b) :
      Does s p (.release b) (s.tab.wakeup1 chan)
  | exit_wake (q : Nat) (h : s.pc p = .exit_wake) (hq : (s.tab.procs p).parent = some q) :
      Does s p .exit_pass (s.tab.wakeup1 q)
  | orphan (h : s.pc p = .exit_wake) (hq : (s.tab.procs p).parent = none) :
      Does s p .exit_pass s.tab
  | exit_pass (h : s.pc p = .exit_pass) : Does s p .exit_zombie (s.tab.pass p)
  | exit_zombie (h : s.pc p = .exit_zombie) : Does s p (.sched .zombie) (s.tab.zombie p)
  | reap (r : Call) (q : Nat) (h : s.pc p = .scan r) (hlt : q < NPROC) (hq : s.tab.child p r q)
      (hz : (s.tab.procs q).state = .ZOMBIE) : Does s p (.release .user) (s.tab.reap p r q)
  | fail (r : Call) (h : s.pc p = .scan r)
      (hno : (∀ q < NPROC, ¬ s.tab.child p r q) ∨ (s.tab.procs p).killed = true) :
      Does s p (.release .user) (s.tab.ret p r none)
  | wait (r : Call) (h : s.pc p = .scan r)
      (hno : ∀ q < NPROC, s.tab.child p r q → (s.tab.procs q).state ≠ .ZOMBIE) :
      Does s p (.sleep (some r) p) s.tab
  | sleep (r : Option Call) (chan : Nat) (h : s.pc p = .sleep r chan) :
      Does s p (.sched (.tidy r)) (s.tab.sleep p chan)
  | rescan (r : Call) (h : s.pc p = .tidy (some r)) : Does s p (.scan r) (s.tab.tidy p)
  | woken (h : s.pc p = .tidy none) : Does s p (.release .user) (s.tab.tidy p)
  | kill (pid : Int) (q : Nat) (h : s.pc p = .kill pid) (hlt : q < NPROC)
      (hq : (s.tab.procs q).pid = pid) : Does s p (.release .user) (s.tab.kill pid q)
  | yield (b : Pc) (h : s.pc p = .yield b) :
      Does s p (.sched (.release b)) (s.tab.setState p .RUNNABLE)

/-- What the process `p` on CPU `c` does when it goes on. -/
inductive Went (s : Sys) (c p : Nat) : Sys → Prop where
  | acquire (x : Pc) (h : s.pc p = .acquire x) (hfree : s.lock = none) :
      Went s c p { s.move p s.tab x with lock := some c }
  | release (b : Pc) (h : s.pc p = .release b) : Went s c p { s.move p s.tab b with lock := none }
  | swtch (x : Pc) (h : s.pc p = .sched x) :
      Went s c p { s.move p s.tab (.off x) with cpu := Function.update s.cpu c (.back p) }
  | full (k : Creator) (h : s.pc p = .alloc k) : Went s c p (s.move p s.tab (.release .user))
  | unknown (pid : Int) (h : s.pc p = .kill pid) : Went s c p (s.move p s.tab (.release .user))
  -- the new context starts at `forkret`
  | stack (k : Creator) (np : Nat) (h : s.pc p = .stack k np) :
      Went s c p ({ s with pc := Function.update s.pc np (.off (.release .user)) }.move p
        (s.tab.stack np) (.copy k np))
  | act (x : Pc) (t : Table) (hd : Does s p x t) : Went s c p (s.move p t x)

theorem went {s s' : Sys} {c p : Nat} {ok : Bool} {d : Nat} (hs : go s c p ok d = some s') :
    Went s c p s' := by
  cases hpc : s.pc p with
  | user | off x | zombie => simp [go, hpc] at hs
  | acquire x =>
    simp only [go, hpc, ite_none_right_eq_some, some.injEq] at hs
    obtain ⟨hfree, rfl⟩ := hs
    exact .acquire x hpc hfree
  | alloc k =>
    simp only [go, hpc, some.injEq, alloc] at hs
    split at hs <;> subst hs
    · exact .full k hpc
    · rename_i np hnp
      obtain ⟨hlt, hun⟩ := first_eq_some hnp
      exact .act _ _ (.alloc k np hpc hlt hun)
  | stack k np =>
    simp only [go, hpc] at hs
    split at hs <;> obtain rfl := some.inj hs
    · exact .stack k np hpc
    · exact .act _ _ (.abandon k np (Or.inl hpc))
  | copy k np =>
    cases k with
    | fork =>
      simp only [go, hpc] at hs
      split at hs <;> obtain rfl := some.inj hs
      · exact .act _ _ (.pgdir .fork np d hpc (by simp))
      · exact .act _ _ (.abandon .fork np (Or.inr hpc))
    | clone =>
      simp only [go, hpc, some.injEq] at hs
      subst hs
      exact .act _ _ (.pgdir .clone np _ hpc fun _ => rfl)
  | exit_wake =>
    simp only [go, hpc] at hs
    split at hs <;> obtain rfl := some.inj hs
    · rename_i q hq
      exact .act _ _ (.exit_wake q hpc hq)
    · rename_i hq
      exact .act _ _ (.orphan hpc hq)
  | scan r =>
    simp only [go, hpc, some.injEq, scan] at hs
    split at hs
    · rename_i q hq
      obtain ⟨hlt, hchild, hz⟩ := first_eq_some hq
      subst hs
      exact .act _ _ (.reap r q hpc hlt hchild hz)
    · rename_i hnone
      split at hs <;> subst hs
      · rename_i hc
        exact .act _ _ (.fail r hpc (hc.imp_left first_eq_none))
      · exact .act _ _ (.wait r hpc fun q hq hch hz => first_eq_none hnone q hq ⟨hch, hz⟩)
  | tidy r =>
    cases r <;> simp only [go, hpc, some.injEq] at hs <;> subst hs
    · exact .act _ _ (.woken hpc)
    · exact .act _ _ (.rescan _ hpc)
  | kill pid =>
    simp only [go, hpc, some.injEq, kill] at hs
    split at hs <;> subst hs
    · exact .unknown pid hpc
    · rename_i q hq
      obtain ⟨hlt, hpid⟩ := first_eq_some hq
      exact .act _ _ (.kill pid q hpc hlt hpid)
  | release b =>
    simp only [go, hpc, some.injEq] at hs
    exact hs ▸ .release b hpc
  | sched x =>
    simp only [go, hpc, some.injEq] at hs
    exact hs ▸ .swtch x hpc
  | adopt k np =>
    simp only [go, hpc, some.injEq] at hs
    exact hs ▸ .act _ _ (.adopt k np hpc)
  | ready k np =>
    simp only [go, hpc, some.injEq] at hs
    exact hs ▸ .act _ _ (.ready k np hpc)
  | exit_pass =>
    simp only [go, hpc, some.injEq] at hs
    exact hs ▸ .act _ _ (.exit_pass hpc)
  | exit_zombie =>
    simp only [go, hpc, some.injEq] at hs
    exact hs ▸ .act _ _ (.exit_zombie hpc)
  | sleep r chan =>
    simp only [go, hpc, some.injEq] at hs
    exact hs ▸ .act _ _ (.sleep r chan hpc)
  | wakeup1 chan b =>
    simp only [go, hpc, some.injEq] at hs
    exact hs ▸ .act _ _ (.wakeup chan b hpc)
  | yield b =>
    simp only [go, hpc, some.injEq] at hs
    exact hs ▸ .act _ _ (.yield b hpc)

/-- A process that changes the table is RUNNING. -/
theorem Does.running {s : Sys} {p : Nat} {x : Pc} {t : Table} (hd : Does s p x t)
    (hst : (s.pc p).Stands st) :
    st = .RUNNING := by
  cases hd with
  | abandon k np h => rcases h with h | h <;> rwa [h] at hst
  | alloc _ _ h | stack _ _ h | pgdir _ _ _ h | adopt _ _ h | ready _ _ h | wakeup _ _ h
      | exit_wake _ h
  | orphan h | exit_pass h | exit_zombie h | reap _ _ h | fail _ h | wait _ h | sleep _ _ h
      | rescan _ h
  | woken h | kill _ _ h | yield _ h => rwa [h] at hst

/-! ## The invariant -/

/-- The changes of the state of a process. -/
inductive Turns : Procstate → Procstate → Prop where
  | alloc : Turns .UNUSED .EMBRYO
  | ready : Turns .EMBRYO .RUNNABLE
  | run : Turns .RUNNABLE .RUNNING
  | yield : Turns .RUNNING .RUNNABLE
  | sleep : Turns .RUNNING .SLEEPING
  | exit : Turns .RUNNING .ZOMBIE
  | wakeup : Turns .SLEEPING .RUNNABLE
  | abandon : Turns .EMBRYO .UNUSED
  | reap : Turns .ZOMBIE .UNUSED

/-- Each process keeps its state or changes it as it may. -/
def Turned (t t' : Table) : Prop :=
  ∀ q, (t'.procs q).state = (t.procs q).state ∨ Turns (t.procs q).state (t'.procs q).state

/-- CPU `c` is at a place with `ptable.lock`. -/
def Sys.holds (s : Sys) (c : Nat) : Prop :=
  match s.cpu c with
  | .idle => False
  | .on p => (s.pc p).locked = true
  | _ => True

/-- The state of `proc`, as CPU `c` stands. -/
def Sys.Placed (s : Sys) (c p : Nat) : Prop :=
  match s.cpu c with
  | .enter _ => (s.tab.procs p).state = .RUNNING
  | .back _ => (s.tab.procs p).state = .RUNNABLE ∨ (s.tab.procs p).state = .SLEEPING ∨
      (s.tab.procs p).state = .ZOMBIE
  | _ => (s.pc p).Stands (s.tab.procs p).state

structure Cpus (s : Sys) : Prop where
  fits : ∀ p, (s.pc p).Fits
  lock : ∀ c, s.lock = some c ↔ s.holds c
  once : ∀ c c' p, (s.cpu c).cur = some p → (s.cpu c').cur = some p → c = c'
  placed : ∀ c p, (s.cpu c).cur = some p → s.Placed c p
  running : ∀ p, (s.tab.procs p).state = .RUNNING → ∃ c, (s.cpu c).cur = some p
  embryo : ∀ p np, (s.pc p).embryo = some np → (s.tab.procs np).state = .EMBRYO
  mother : ∀ p q np, (s.pc p).embryo = some np → (s.pc q).embryo = some np → p = q

theorem cpus_init : Cpus init := by
  refine ⟨fun p => ⟨rfl, rfl, trivial⟩, fun c => ?_, fun c c' p h => ?_, fun c p h => ?_,
    fun p h => ?_, fun p np h => ?_, fun p q np h => ?_⟩
  · simp [init, Sys.holds]
  · simp [init, Cpu.cur] at h
  · simp [init, Cpu.cur] at h
  · grind [init]
  · simp [init, Pc.embryo] at h
  · simp [init, Pc.embryo] at h

section Cpus

variable {s s' : Sys} {c c' p q np : Nat} {x : Pc}

/-- A process that another CPU runs is RUNNING, or that CPU has the lock. -/
theorem Cpus.other (h : Cpus s) (hcur : (s.cpu c).cur = some p) :
    (s.tab.procs p).state = .RUNNING ∨ s.lock = some c ∧
      ((s.tab.procs p).state = .RUNNABLE ∨ (s.tab.procs p).state = .SLEEPING ∨
        (s.tab.procs p).state = .ZOMBIE) := by
  have hp := h.placed c p hcur
  have hl := h.lock c
  unfold Sys.Placed at hp
  unfold Sys.holds at hl
  cases hc : s.cpu c with
  | idle | scan i | wakeup1 i => simp [hc, Cpu.cur] at hcur
  | enter i =>
    rw [hc] at hp
    exact Or.inl hp
  | back i =>
    grind
  | on i =>
    rw [hc] at hp hl hcur
    obtain rfl : i = p := some.inj hcur
    cases hpc : s.pc i with
    | sched x =>
      have hl' : s.lock = some c ↔ (s.pc i).locked = true := hl
      rw [hpc] at hp hl'
      exact Or.inr ⟨hl'.mpr rfl, hp⟩
    | off x =>
      rw [hpc] at hp
      exact hp.elim
    | _ =>
      rw [hpc] at hp
      exact Or.inl hp

/-- What a step of CPU `c` may do to the state of a process that it does not run: a RUNNING
process stays as it is, and without the lock only an EMBRYO changes. -/
def Touches (s : Sys) (c : Nat) (st st' : Procstate) : Prop :=
  st' = st ∨ Turns st st' ∧ st ≠ .RUNNING ∧ st' ≠ .RUNNING ∧ (s.lock = some c ∨ st = .EMBRYO)

/-- The process of another CPU is not touched. -/
theorem Cpus.untouched (h : Cpus s) (hne : c' ≠ c) (hcur : (s.cpu c').cur = some q)
    (ht : Touches s c (s.tab.procs q).state st) : st = (s.tab.procs q).state := by
  rcases ht with ht | ⟨_, hrun, _, hcase⟩
  · exact ht
  · exfalso
    rcases h.other hcur with hr | ⟨hl, hst⟩
    · exact hrun hr
    · grind

/-- What CPU `c` must show for a step of its own. -/
theorem Cpus.step (h : Cpus s) (c : Nat) (hcpu : ∀ c', c' ≠ c → s'.cpu c' = s.cpu c')
    (hother : ∀ c', c' ≠ c → ∀ q, (s.cpu c').cur = some q →
      s'.pc q = s.pc q ∧ (s'.tab.procs q).state = (s.tab.procs q).state)
    (hfits : ∀ q, (s'.pc q).Fits) (hlock : s'.lock = some c ↔ s'.holds c)
    (hlocks : ∀ c', c' ≠ c → (s'.lock = some c' ↔ s.lock = some c'))
    (hcur : ∀ q, (s'.cpu c).cur = some q → s'.Placed c q ∧ ∀ c', c' ≠ c → (s.cpu c').cur ≠ some q)
    (hrun : ∀ q, (s'.tab.procs q).state = .RUNNING →
      (s'.cpu c).cur = some q ∨ ∃ c', c' ≠ c ∧ (s.cpu c').cur = some q)
    (hembryo : ∀ q np, (s'.pc q).embryo = some np → (s'.tab.procs np).state = .EMBRYO)
    (hmother : ∀ p q np, (s'.pc p).embryo = some np → (s'.pc q).embryo = some np → p = q) :
    Cpus s' := by
  refine ⟨hfits, fun c' => ?_, fun c1 c2 q h1 h2 => ?_, fun c' q hq => ?_, fun q hq => ?_,
    hembryo, hmother⟩
  · by_cases hc : c' = c
    · subst hc
      exact hlock
    · rw [hlocks c' hc, h.lock c']
      unfold Sys.holds
      rw [hcpu c' hc]
      cases hon : s.cpu c' with
      | on q => simp only [(hother c' hc q (by rw [hon]; rfl)).1]
      | _ => exact Iff.rfl
  · by_cases hc1 : c1 = c
    · grind
    · grind [h.once]
  · by_cases hc : c' = c
    · subst hc
      exact (hcur q hq).1
    · rw [hcpu c' hc] at hq
      have hold := h.placed c' q hq
      obtain ⟨hpc, hst⟩ := hother c' hc q hq
      unfold Sys.Placed at hold ⊢
      rw [hcpu c' hc, hpc, hst]
      exact hold
  · grind

/-- A lock operation on the way from a place to another. -/
inductive LockOp (lock lock' : Option Nat) (c : Nat) (a b : Bool) : Prop where
  | keep (h : lock' = lock) (hb : b = a)
  | acquire (h : lock = none) (h' : lock' = some c) (hb : b = true)
  | release (ha : a = true) (h' : lock' = none) (hb : b = false)

/-- A step of the process `p` that CPU `c` runs, to the place `x`. -/
theorem Cpus.move (h : Cpus s) (hon : s.cpu c = .on p) (hcpu : s'.cpu = s.cpu)
    (hpc : ∀ q, q ≠ p → s'.pc q = s.pc q ∨ (s.tab.procs q).state = .EMBRYO ∧
      s'.pc q = .off (.release .user))
    (hx : s'.pc p = x) (hfits : x.Fits) (hstands : x.Stands (s'.tab.procs p).state)
    (hlock : LockOp s.lock s'.lock c (s.pc p).locked x.locked)
    (htouch : ∀ q, q ≠ p → Touches s c (s.tab.procs q).state (s'.tab.procs q).state)
    (hnew : ∀ np, x.embryo = some np → (s'.tab.procs np).state = .EMBRYO ∧
      ((s.pc p).embryo = some np ∨ (s.tab.procs np).state = .UNUSED))
    (hkeep : ∀ np, (s.tab.procs np).state = .EMBRYO → (s'.tab.procs np).state = .EMBRYO ∨
      (s.pc p).embryo = some np) : Cpus s' := by
  have hcurp : (s.cpu c).cur = some p := by
    rw [hon]
    rfl
  have hne : ∀ c', c' ≠ c → ∀ q, (s.cpu c').cur = some q → q ≠ p := by grind [h.once]
  have hheld : s.lock = some c ↔ (s.pc p).locked = true := by
    rw [h.lock c]
    unfold Sys.holds
    rw [hon]
  -- the embryos of other processes
  have hothers : ∀ q np, q ≠ p → (s'.pc q).embryo = some np →
      (s.pc q).embryo = some np ∧ (s.tab.procs np).state = .EMBRYO := by
    intro q np hq hnp
    rcases hpc q hq with he | ⟨_, he⟩
    · grind [h.embryo]
    · rw [he] at hnp
      cases hnp
  refine h.step c (fun _ _ => by rw [hcpu]) (fun c' hc q hq => ⟨?_, ?_⟩) (fun q => ?_) ?_
    (fun c' hc => ?_)
    (fun q hq => ?_) (fun q hq => ?_) (fun q np hq => ?_) (fun p1 p2 np h1 h2 => ?_)
  · rcases hpc q (hne c' hc q hq) with he | ⟨he, _⟩
    · exact he
    · rcases h.other hq with hr | ⟨_, hr⟩ <;> rw [he] at hr <;> simp at hr
  · exact h.untouched hc hq (htouch q (hne c' hc q hq))
  · by_cases hq : q = p
    · grind
    · rcases hpc q hq with he | ⟨_, he⟩
      · rw [he]
        exact h.fits q
      · rw [he]
        exact ⟨rfl, rfl, trivial⟩
  · unfold Sys.holds
    rw [hcpu, hon]
    simp only [hx]
    cases hlock with
    | keep h1 h2 => rw [h1, h2, hheld]
    | acquire _ h2 h3 => exact iff_of_true h2 h3
    | release _ h2 h3 => rw [h2, h3]; simp
  · cases hlock with
    | keep h1 _ => rw [h1]
    | acquire h1 h2 _ =>
      grind
    | release h1 h2 _ =>
      grind
  · grind [some.inj, Sys.Placed]
  · by_cases hqp : q = p
    · grind
    · rcases htouch q hqp with he | ⟨_, _, hr, _⟩
      · grind [h.running, some.inj]
      · exact absurd hq hr
  · by_cases hqp : q = p
    · grind
    · obtain ⟨hold, hst⟩ := hothers q np hqp hq
      rcases hkeep np hst with he | he
      · exact he
      · exact absurd (h.mother q p np hold he) hqp
  · -- a new embryo was UNUSED, so that no other process has it
    have huniq : ∀ q, q ≠ p → x.embryo = some np → (s'.pc q).embryo ≠ some np := by
      intro q hq hxn hqn
      obtain ⟨hold, hst⟩ := hothers q np hq hqn
      rcases (hnew np hxn).2 with he | he
      · exact hq (h.mother q p np hold he)
      · rw [hst] at he
        cases he
    by_cases hp1 : p1 = p
    · grind
    · grind [h.mother]

/-! ## The states after each change of the table -/

variable {t : Table}

theorem procs_set (t : Table) (q : Nat) (f : Proc → Proc) (q' : Nat) :
    (t.set q f).procs q' = if q' = q then f (t.procs q) else t.procs q' :=
  Function.update_apply ..

/-- Nothing but a sleeping process that becomes RUNNABLE. -/
def Wakes (t t' : Table) : Prop :=
  ∀ q, (t'.procs q).state = (t.procs q).state ∨
    (t.procs q).state = .SLEEPING ∧ (t'.procs q).state = .RUNNABLE

theorem Wakes.trans {t t' t'' : Table} (h1 : Wakes t t') (h2 : Wakes t' t'') : Wakes t t'' := by
  intro q
  rcases h1 q with he | ⟨he, hr⟩
  · rcases h2 q with he' | ⟨hs, hr⟩
    · exact Or.inl (he'.trans he)
    · exact Or.inr ⟨he ▸ hs, hr⟩
  · rcases h2 q with he' | ⟨hs, _⟩
    · grind
    · rw [hr] at hs
      cases hs

theorem wakes_wakeup1 (t : Table) (chan : Nat) : Wakes t (t.wakeup1 chan) := by
  intro q
  simp only [Table.wakeup1]
  split
  · grind
  · exact Or.inl rfl

theorem wakes_of_states {t t' : Table} (h : ∀ q, (t'.procs q).state = (t.procs q).state) :
    Wakes t t' := fun q => Or.inl (h q)

theorem wakes_passTurn (p : Nat) (t : Table) (q : Nat) : Wakes t (Table.passTurn p t q) := by
  have hset : Wakes t (t.set q fun r => { r with parent := some initproc }) := by
    grind [wakes_of_states, procs_set]
  unfold Table.passTurn
  split
  · dsimp only
    split
    · exact hset.trans (wakes_wakeup1 _ _)
    · exact hset
  · exact wakes_of_states fun _ => rfl

theorem wakes_pass (t : Table) (p : Nat) : Wakes t (t.pass p) := by
  unfold Table.pass
  generalize List.range NPROC = l
  induction l generalizing t with
  | nil => exact wakes_of_states fun _ => rfl
  | cons q l ih => exact (wakes_passTurn p t q).trans (ih _)

theorem wakes_kill (t : Table) (pid : Int) (q : Nat) : Wakes t (t.kill pid q) := by
  intro q'
  simp only [Table.kill, procs_set]
  by_cases hq : q' = q
  · grind
  · exact Or.inl (by rw [if_neg hq])

/-! ## The steps of a process -/

theorem Cpus.stands (h : Cpus s) (hon : s.cpu c = .on p) :
    (s.pc p).Stands (s.tab.procs p).state := by
  have hp := h.placed c p (by rw [hon]; rfl)
  unfold Sys.Placed at hp
  rwa [hon] at hp

theorem Cpus.locked (h : Cpus s) (hon : s.cpu c = .on p) (hl : (s.pc p).locked = true) :
    s.lock = some c := by
  rw [h.lock c]
  unfold Sys.holds
  rw [hon]
  exact hl

theorem Wakes.turned {t t' : Table} (h : Wakes t t') : Turned t t' := by
  intro q
  rcases h q with he | ⟨h1, h2⟩
  · exact Or.inl he
  · rw [h1, h2]
    exact Or.inr .wakeup

theorem turned_refl (t : Table) : Turned t t := fun _ => Or.inl rfl

theorem turned_slot {t t' : Table}
    (hst : ∀ q, (t'.procs q).state = if q = np then st else (t.procs q).state)
    (hturn : Turns (t.procs np).state st) : Turned t t' := by
  intro q
  rw [hst]
  split
  · grind
  · exact Or.inl rfl

theorem turned_of_states {t t' : Table} (h : ∀ q, (t'.procs q).state = (t.procs q).state) :
    Turned t t' := fun q => Or.inl (h q)

/-- The table stays as it is. -/
theorem Cpus.quiet (h : Cpus s) (hon : s.cpu c = .on p) {l : Option Nat} (hfits : x.Fits)
    (hstands : x.Stands (s.tab.procs p).state) (hlock : LockOp s.lock l c (s.pc p).locked x.locked)
    (hembryo : x.embryo = none ∨ x.embryo = (s.pc p).embryo) :
    Cpus { s.move p s.tab x with lock := l } := by
  refine h.move hon rfl (fun q hq => Or.inl (update_of_ne hq ..)) (update_self ..)
    hfits hstands hlock (fun _ _ => Or.inl rfl) (fun np hnp => ?_) (fun np hnp => Or.inl hnp)
  rcases hembryo with he | he
  · rw [he] at hnp
    cases hnp
  · rw [he] at hnp
    exact ⟨h.embryo p np hnp, Or.inl hnp⟩

/-- A change of the table inside of a critical section, or of the own embryo. -/
theorem Cpus.change (h : Cpus s) (hon : s.cpu c = .on p) (hfits : x.Fits)
    (hstands : x.Stands (t.procs p).state) (hlock : x.locked = (s.pc p).locked)
    (htouch : ∀ q, q ≠ p → Touches s c (s.tab.procs q).state (t.procs q).state)
    (hnew : ∀ np, x.embryo = some np → (t.procs np).state = .EMBRYO ∧
      ((s.pc p).embryo = some np ∨ (s.tab.procs np).state = .UNUSED))
    (hkeep : ∀ np, (s.tab.procs np).state = .EMBRYO → (t.procs np).state = .EMBRYO ∨
      (s.pc p).embryo = some np) : Cpus (s.move p t x) :=
  h.move hon rfl (fun _ hq => Or.inl (update_of_ne hq ..)) (update_self ..) hfits
    hstands (.keep rfl hlock) htouch hnew hkeep

/-- Sleeping processes are woken. -/
theorem Cpus.wakes (h : Cpus s) (hon : s.cpu c = .on p) (hw : Wakes s.tab t) (hfits : x.Fits)
    (hp : (s.pc p).Stands .RUNNING → x.Stands .RUNNING) (hrun : (s.tab.procs p).state = .RUNNING)
    (hl : (s.pc p).locked = true) (hx : x.locked = true)
    (hembryo : x.embryo = none ∨ x.embryo = (s.pc p).embryo) :
    Cpus (s.move p t x) ∧ Turned s.tab (s.move p t x).tab := by
  have hsame : ∀ q, (s.tab.procs q).state ≠ .SLEEPING → (t.procs q).state = (s.tab.procs q).state :=
    fun q hq => (hw q).resolve_right fun hc => hq hc.1
  refine ⟨h.change hon hfits ?_ (by rw [hl, hx]) (fun q _ => ?_) (fun np hnp => ?_)
    (fun np hnp => ?_), hw.turned⟩
  · grind [h.stands]
  · rcases hw q with he | ⟨h1, h2⟩
    · exact Or.inl he
    · rw [h1, h2]
      exact Or.inr ⟨.wakeup, by simp, by simp, Or.inl (h.locked hon hl)⟩
  · grind [h.embryo]
  · grind

/-- The states stay as they are. -/
theorem Cpus.fields (h : Cpus s) (hon : s.cpu c = .on p)
    (hst : ∀ q, (t.procs q).state = (s.tab.procs q).state) (hfits : x.Fits)
    (hstands : x.Stands (s.tab.procs p).state) (hlock : x.locked = (s.pc p).locked)
    (hembryo : x.embryo = none ∨ x.embryo = (s.pc p).embryo) :
    Cpus (s.move p t x) ∧ Turned s.tab (s.move p t x).tab := by
  refine ⟨h.change hon hfits (by rw [hst]; exact hstands) hlock (fun q _ => Or.inl (hst q))
    (fun np hnp => ?_) (fun np hnp => Or.inl (by rw [hst, hnp])), fun q => Or.inl (hst q)⟩
  rcases hembryo with he | he
  · rw [he] at hnp
    cases hnp
  · grind [h.embryo]

/-- The process changes its own state, to leave the CPU. -/
theorem Cpus.leave (h : Cpus s) (hon : s.cpu c = .on p) {y : Pc}
    (hst : ∀ q, (t.procs q).state = if q = p then st else (s.tab.procs q).state)
    (hturn : Turns .RUNNING st) (hfits : y.resumed = true ∧ y.Fits)
    (hrun : (s.tab.procs p).state = .RUNNING) (hl : (s.pc p).locked = true)
    (hembryo : y.embryo = none ∨ y.embryo = (s.pc p).embryo) :
    Cpus (s.move p t (.sched y)) ∧ Turned s.tab (s.move p t (.sched y)).tab := by
  have hnp : ∀ np, (s.tab.procs np).state = .EMBRYO → (t.procs np).state = .EMBRYO := by grind
  refine ⟨h.change hon hfits ?_ (by rw [hl]; rfl) (fun q hq => Or.inl (by rw [hst, if_neg hq]))
    (fun np he => ?_) (fun np he => Or.inl (hnp np he)), turned_slot hst (hrun ▸ hturn)⟩
  · rw [hst, if_pos rfl]
    cases hturn <;> simp [Pc.Stands]
  · have he : y.embryo = some np := he
    rcases hembryo with h0 | h0
    · rw [h0] at he
      cases he
    · grind [h.embryo]

/-- A slot that no CPU runs changes its state, and no other one. -/
theorem Cpus.slot (h : Cpus s) (hon : s.cpu c = .on p) (hrun : (s.tab.procs p).state = .RUNNING)
    {st' : Procstate} (hst : ∀ q, (t.procs q).state = if q = np then st' else (s.tab.procs q).state)
    (hold : (s.tab.procs np).state = st) (hturn : Turns st st')
    (hne : st ≠ .RUNNING ∧ st' ≠ .RUNNING) (hfree : s.lock = some c ∨ st = .EMBRYO) (hfits : x.Fits)
    (hx : x.Stands .RUNNING) (hlock : x.locked = (s.pc p).locked)
    (hnew : ∀ q, x.embryo = some q → q = np ∧ st' = .EMBRYO ∧
      ((s.pc p).embryo = some np ∨ (s.tab.procs np).state = .UNUSED))
    (hkeep : st = .EMBRYO → st' = .EMBRYO ∨ (s.pc p).embryo = some np) :
    Cpus (s.move p t x) ∧ Turned s.tab (s.move p t x).tab := by
  refine ⟨h.change hon hfits ?_ hlock (fun q _ => ?_) (fun q hq => ?_) (fun q hq => ?_),
    turned_slot hst (hold ▸ hturn)⟩
  · grind
  · rw [hst]
    split
    · rename_i hq
      rw [hq, hold]
      exact Or.inr ⟨hturn, hne.1, hne.2, hfree⟩
    · exact Or.inl rfl
  · grind
  · grind

/-- The state of a slot that is set. -/
theorem state_set {f : Proc → Proc} (hf : (f (t.procs np)).state = st) (q : Nat) :
    ((t.set np f).procs q).state = if q = np then st else (t.procs q).state := by
  rw [procs_set]
  split
  · exact hf
  · rfl

/-- The states, where a field other than the state is set. -/
theorem state_keep {f : Proc → Proc} (hf : (f (t.procs np)).state = (t.procs np).state) (q : Nat) :
    ((t.set np f).procs q).state = (t.procs q).state := by
  rw [procs_set]
  split
  · rename_i hq
    rw [hq, hf]
  · rfl

theorem state_alloc (t : Table) (np q : Nat) :
    ((t.alloc np).procs q).state = if q = np then .EMBRYO else (t.procs q).state := by
  simp only [Table.alloc]
  exact state_set rfl q

theorem state_abandon (t : Table) (np q : Nat) :
    ((t.abandon np).procs q).state = if q = np then .UNUSED else (t.procs q).state := by
  unfold Table.abandon
  exact state_set rfl q

theorem state_ready (t : Table) (k : Creator) (np p q : Nat) :
    ((t.ready k np p).procs q).state = if q = np then .RUNNABLE else (t.procs q).state := by
  simp only [Table.ready]
  exact state_set rfl q

theorem state_zombie (t : Table) (p q : Nat) :
    ((t.zombie p).procs q).state = if q = p then .ZOMBIE else (t.procs q).state := by
  simp only [Table.zombie]
  exact state_set rfl q

theorem state_reap (t : Table) (p : Nat) (r : Call) (z q : Nat) :
    ((t.reap p r z).procs q).state = if q = z then .UNUSED else (t.procs q).state := by
  unfold Table.reap
  exact state_set rfl q

theorem state_sleep (t : Table) (p chan q : Nat) :
    ((t.sleep p chan).procs q).state = if q = p then .SLEEPING else (t.procs q).state := by
  unfold Table.sleep
  exact state_set rfl q

theorem state_setState (t : Table) (p : Nat) (st : Procstate) (q : Nat) :
    ((t.setState p st).procs q).state = if q = p then st else (t.procs q).state := by
  unfold Table.setState
  exact state_set rfl q

theorem state_stack (t : Table) (np q : Nat) :
    ((t.stack np).procs q).state = (t.procs q).state := by
  unfold Table.stack
  exact state_keep rfl q

theorem state_setPgdir (t : Table) (np d q : Nat) :
    ((t.setPgdir np d).procs q).state = (t.procs q).state := by
  unfold Table.setPgdir
  exact state_keep rfl q

theorem state_adopt (t : Table) (np p q : Nat) :
    ((t.adopt np p).procs q).state = (t.procs q).state := by
  unfold Table.adopt
  exact state_keep rfl q

theorem state_tidy (t : Table) (p q : Nat) : ((t.tidy p).procs q).state = (t.procs q).state := by
  unfold Table.tidy
  exact state_keep rfl q

/-- A creation fails. -/
theorem Cpus.abandon (h : Cpus s) (hon : s.cpu c = .on p) (hnp : (s.pc p).embryo = some np)
    (hrun : (s.tab.procs p).state = .RUNNING) (hplain : (s.pc p).locked = false) :
    Cpus (s.move p (s.tab.abandon np) .user) ∧ Turned s.tab (s.tab.abandon np) := by
  exact h.slot hon hrun (state_abandon s.tab np) (h.embryo p np hnp) .abandon (by simp)
    (Or.inr rfl) trivial rfl (by rw [hplain]; rfl) (fun q hq => by cases hq) fun _ => Or.inr hnp

/-- A switch between the process of a CPU and its scheduler. -/
theorem Cpus.switch (h : Cpus s) {y : Cpu} (hcur : (s.cpu c).cur = some p) (hy : y.cur = some p)
    (hlock : s.lock = some c) (hfits : x.Fits) (hx : x.embryo = (s.pc p).embryo)
    (hs' : s' = { s.move p s.tab x with cpu := update s.cpu c y }) (hholds : s'.holds c)
    (hplaced : s'.Placed c p) : Cpus s' := by
  subst hs'
  have hne : ∀ c', c' ≠ c → ∀ q, (s.cpu c').cur = some q → q ≠ p := by grind [h.once]
  have hembryo : ∀ q, (update s.pc p x q).embryo = (s.pc q).embryo := by
    intro q
    by_cases hq : q = p
    · rw [hq, update_self, hx]
    · rw [update_of_ne hq]
  refine h.step c (fun c' hc => update_of_ne hc ..)
    (fun c' hc q hq => ⟨update_of_ne (hne c' hc q hq) .., rfl⟩) (fun q => ?_)
    (iff_of_true hlock hholds) (fun _ _ => Iff.rfl) (fun q hq => ?_) (fun q hq => ?_)
    (fun q np hq => h.embryo q np ((hembryo q).symm.trans hq))
    fun q q' np hq hq' => h.mother q q' np ((hembryo q).symm.trans hq) ((hembryo q').symm.trans hq')
  · simp only [Sys.move]
    by_cases hq : q = p
    · rw [hq, update_self]
      exact hfits
    · rw [update_of_ne hq]
      exact h.fits q
  · simp only [update_self] at hq
    obtain rfl : p = q := some.inj (hy.symm.trans hq)
    exact ⟨hplaced, fun c' hc hq' => hne c' hc p hq' rfl⟩
  · obtain ⟨c', hc'⟩ := h.running q hq
    by_cases hc : c' = c
    · rw [hc, hcur] at hc'
      refine Or.inl ?_
      simp only [update_self]
      exact hy.trans hc'
    · exact Or.inr ⟨c', hc, hc'⟩

/-- The process switches to the scheduler of its CPU. -/
theorem Cpus.swtch (h : Cpus s) (hon : s.cpu c = .on p) (hpc : s.pc p = .sched x) :
    Cpus { s.move p s.tab (.off x) with cpu := update s.cpu c (.back p) } := by
  have hstands := h.stands hon
  have hfits := h.fits p
  rw [hpc] at hstands hfits
  refine h.switch (x := .off x) (by rw [hon]; rfl) rfl (h.locked hon (by rw [hpc]; rfl)) hfits
    (by rw [hpc]; rfl) rfl ?_ ?_
  · simp [Sys.holds]
  · simp only [Sys.Placed, update_self]
    exact hstands

theorem Cpus.does (h : Cpus s) (hon : s.cpu c = .on p) (hd : Does s p x t) :
    Cpus (s.move p t x) ∧ Turned s.tab (s.move p t x).tab := by
  have hfits := h.fits p
  have hrun := hd.running (h.stands hon)
  have hlocked := h.locked hon
  have hembryo := h.embryo p
  cases hd with
  | alloc k np hpc hlt hun =>
    refine h.slot hon hrun (state_alloc s.tab np) hun .alloc (by simp)
      (Or.inl (hlocked (by rw [hpc]; rfl)))
      ⟨rfl, trivial⟩ rfl (by rw [hpc]; rfl) (fun q hq => ?_) (by simp)
    exact ⟨(some.inj hq).symm, rfl, Or.inr hun⟩
  | stack k np hpc =>
    exact h.fields hon (state_stack s.tab np) trivial hrun (by rw [hpc]; rfl)
      (Or.inr (by rw [hpc]; rfl))
  | abandon k np hpc =>
    rcases hpc with hpc | hpc <;>
      exact h.abandon hon (by rw [hpc]; rfl) hrun (by rw [hpc]; rfl)
  | pgdir k np d hpc hd =>
    exact h.fields hon (state_setPgdir s.tab np d) trivial hrun (by rw [hpc]; rfl)
      (Or.inr (by rw [hpc]; rfl))
  | adopt k np hpc =>
    exact h.fields hon (state_adopt s.tab np p) ⟨rfl, trivial⟩ hrun (by rw [hpc]; rfl)
      (Or.inr (by rw [hpc]; rfl))
  | ready k np hpc =>
    exact h.slot hon hrun (state_ready s.tab k np p) (hembryo np (by rw [hpc]; rfl)) .ready
      (by simp) (Or.inr rfl) ⟨rfl, trivial⟩ rfl (by rw [hpc]; rfl) (fun q hq => by cases hq)
      fun _ => Or.inr (by rw [hpc]; rfl)
  | wakeup chan b hpc =>
    rw [hpc] at hfits
    exact h.wakes hon (wakes_wakeup1 s.tab chan) hfits (fun _ => rfl) hrun (by rw [hpc]; rfl) rfl
      (Or.inr (by rw [hpc]; rfl))
  | exit_wake q hpc hq =>
    exact h.wakes hon (wakes_wakeup1 s.tab q) trivial (fun _ => rfl) hrun (by rw [hpc]; rfl) rfl
      (Or.inl rfl)
  | exit_pass hpc =>
    exact h.wakes hon (wakes_pass s.tab p) trivial (fun _ => rfl) hrun (by rw [hpc]; rfl) rfl
      (Or.inl rfl)
  | exit_zombie hpc =>
    exact h.leave hon (state_zombie s.tab p) .exit ⟨rfl, trivial⟩ hrun (by rw [hpc]; rfl)
      (Or.inl rfl)
  | reap r q hpc hlt hq hz =>
    exact h.slot hon hrun (state_reap s.tab p r q) hz .reap (by simp)
      (Or.inl (hlocked (by rw [hpc]; rfl)))
      ⟨rfl, trivial⟩ rfl (by rw [hpc]; rfl) (fun q hq => by cases hq) (by simp)
  | orphan hpc hq =>
    exact h.fields hon (fun _ => rfl) trivial hrun (by rw [hpc]; rfl) (Or.inl rfl)
  | fail r hpc hno =>
    exact h.fields hon (fun _ => rfl) ⟨rfl, trivial⟩ hrun (by rw [hpc]; rfl) (Or.inl rfl)
  | wait r hpc hno =>
    exact h.fields hon (fun _ => rfl) trivial hrun (by rw [hpc]; rfl) (Or.inl rfl)
  | sleep r chan hpc =>
    exact h.leave hon (state_sleep s.tab p chan) .sleep ⟨rfl, trivial⟩ hrun (by rw [hpc]; rfl)
      (Or.inl rfl)
  | rescan r hpc =>
    exact h.fields hon (state_tidy s.tab p) trivial hrun (by rw [hpc]; rfl) (Or.inl rfl)
  | woken hpc =>
    exact h.fields hon (state_tidy s.tab p) ⟨rfl, trivial⟩ hrun (by rw [hpc]; rfl) (Or.inl rfl)
  | kill pid q hpc hlt hq =>
    exact h.wakes hon (wakes_kill s.tab pid q) ⟨rfl, trivial⟩ (fun _ => rfl) hrun
      (by rw [hpc]; rfl) rfl (Or.inl rfl)
  | yield b hpc =>
    rw [hpc] at hfits
    exact h.leave hon (state_setState s.tab p .RUNNABLE) .yield ⟨rfl, hfits⟩ hrun (by rw [hpc]; rfl)
      (Or.inr (by rw [hpc]; rfl))

theorem Cpus.went (h : Cpus s) (hon : s.cpu c = .on p) (hw : Went s c p s') :
    Cpus s' ∧ Turned s.tab s'.tab := by
  have hfits := h.fits p
  have hstands := h.stands hon
  cases hw with
  | acquire x hpc hfree =>
    rw [hpc] at hfits hstands
    exact ⟨h.quiet hon hfits.2 ((Pc.stands_of_entry hfits.1).mpr hstands)
      (.acquire hfree rfl (Pc.locked_of_entry hfits.1)) (Or.inr (by rw [hpc]; rfl)), turned_refl _⟩
  | release b hpc =>
    rw [hpc] at hfits hstands
    exact ⟨h.quiet hon hfits.2 ((Pc.stands_of_plain hfits.1).mpr hstands)
      (.release (by rw [hpc]; rfl) rfl (Pc.locked_of_plain hfits.1)) (Or.inr (by rw [hpc]; rfl)),
      turned_refl _⟩
  | swtch x hpc => exact ⟨h.swtch hon hpc, turned_refl _⟩
  | full _ hpc | unknown _ hpc =>
    rw [hpc] at hstands
    exact h.fields hon (fun _ => rfl) ⟨rfl, trivial⟩ hstands (by rw [hpc]; rfl) (Or.inl rfl)
  | stack k np hpc =>
    rw [hpc] at hstands
    have hst := h.embryo p np (by rw [hpc]; rfl)
    have hkeep := state_stack s.tab np
    refine ⟨h.move hon rfl (fun q hq => ?_) (update_self ..) trivial ?_
      (.keep rfl (by rw [hpc]; rfl)) (fun q _ => Or.inl (hkeep q)) (fun q hq => ?_)
      (fun q hq => Or.inl ((hkeep q).trans hq)), turned_of_states hkeep⟩
    · by_cases hqn : q = np
      · subst hqn
        refine Or.inr ⟨hst, ?_⟩
        simp only [Sys.move]
        rw [update_of_ne hq, update_self]
      · refine Or.inl ?_
        simp only [Sys.move]
        rw [update_of_ne hq, update_of_ne hqn]
    · exact (hkeep p).trans hstands
    · obtain rfl : np = q := some.inj hq
      exact ⟨(hkeep np).trans hst, Or.inl (by rw [hpc]; rfl)⟩
  | act x t hd => exact h.does hon hd

/-! ## The steps of the scheduler -/

/-- A step of `scheduler` after which its CPU runs no process. -/
theorem Cpus.idle (h : Cpus s) {y : Cpu} {l : Option Nat}
    (hcur : ∀ q, (s.cpu c).cur = some q → (s.tab.procs q).state ≠ .RUNNING) (hy : y.cur = none)
    (hl : y = .idle ∧ l = none ∨ y ≠ .idle ∧ l = some c) (hold : s.lock = some c ∨ s.lock = none)
    (ht : t = s.tab ∨ Wakes s.tab t ∧ s.lock = some c) :
    Cpus { s with tab := t, cpu := update s.cpu c y, lock := l } := by
  have hwakes : Wakes s.tab t := by grind [wakes_of_states]
  have hembryo : ∀ q np, (s.pc q).embryo = some np → (t.procs np).state = .EMBRYO := by
    intro q np hq
    have hst := h.embryo q np hq
    rcases hwakes np with he | ⟨he, _⟩
    · rw [he, hst]
    · rw [hst] at he
      cases he
  refine h.step c (fun c' hc => update_of_ne hc ..) (fun c' hc q hq => ⟨rfl, ?_⟩) h.fits ?_
    (fun c' hc => ?_) (fun q hq => ?_) (fun q hq => Or.inr ?_) hembryo h.mother
  · rcases ht with rfl | ⟨_, hlock⟩
    · rfl
    · rcases hwakes q with he | ⟨he, _⟩
      · exact he
      · rcases h.other hq with hr | ⟨hl', _⟩
        · rw [hr] at he
          cases he
        · grind
  · simp only [Sys.holds, update_self]
    rcases hl with ⟨rfl, rfl⟩ | ⟨hne, rfl⟩
    · simp
    · cases y with
      | idle => exact absurd rfl hne
      | on q => cases hy
      | _ => exact iff_of_true rfl trivial
  · have h1 : l ≠ some c' := by grind
    have h2 : s.lock ≠ some c' := by grind
    exact iff_of_false h1 h2
  · grind
  · have hq : (t.procs q).state = .RUNNING := hq
    have hrun : (s.tab.procs q).state = .RUNNING := by
      rcases hwakes q with he | ⟨_, he⟩
      · rw [← he, hq]
      · rw [hq] at he
        cases he
    obtain ⟨c', hc'⟩ := h.running q hrun
    refine ⟨c', ?_, hc'⟩
    rintro rfl
    exact hcur q hc' hrun

/-- The scheduler chooses a process. -/
theorem Cpus.choose (h : Cpus s) {i : Nat} (hscan : s.cpu c = .scan i)
    (hst : (s.tab.procs i).state = .RUNNABLE) :
    Cpus { s with tab := s.tab.setState i .RUNNING, cpu := update s.cpu c (.enter i) } := by
  have hlock : s.lock = some c := by
    rw [h.lock c]
    simp [Sys.holds, hscan]
  have hset := state_setState s.tab i .RUNNING
  have hfree : ∀ c', c' ≠ c → (s.cpu c').cur ≠ some i := by
    intro c' hc hi
    rcases h.other hi with hr | ⟨hl, _⟩
    · rw [hst] at hr
      cases hr
    · grind
  refine h.step c (fun c' hc => update_of_ne hc ..) (fun c' hc q hq => ⟨rfl, ?_⟩) h.fits ?_
    (fun _ _ => Iff.rfl) (fun q hq => ?_) (fun q hq => ?_) (fun q np hq => ?_) h.mother
  · grind
  · grind [Sys.holds]
  · simp only [update_self] at hq
    obtain rfl : i = q := some.inj hq
    refine ⟨?_, hfree⟩
    simp only [Sys.Placed, update_self, hset, if_true]
  · simp only [hset] at hq
    split at hq
    · grind [Cpu.cur]
    · grind [h.running, Cpu.cur]
  · grind [h.embryo]

/-- The scheduler switches to the process that it chose. -/
theorem Cpus.enter (h : Cpus s) (henter : s.cpu c = .enter p) (hpc : s.pc p = .off x) :
    Cpus { s.move p s.tab x with cpu := update s.cpu c (.on p) } := by
  have hfits := h.fits p
  rw [hpc] at hfits
  have hcurp : (s.cpu c).cur = some p := by
    rw [henter]
    rfl
  have hrun : (s.tab.procs p).state = .RUNNING := by
    have hp := h.placed c p hcurp
    unfold Sys.Placed at hp
    rwa [henter] at hp
  have hlock : s.lock = some c := by
    rw [h.lock c]
    simp [Sys.holds, henter]
  refine h.switch hcurp rfl hlock hfits.2 (by rw [hpc]; rfl) rfl ?_ ?_
  · simp only [Sys.holds, Sys.move, update_self]
    exact Pc.locked_of_resumed hfits.1
  · simp only [Sys.Placed, Sys.move, update_self]
    exact (Pc.stands_of_resumed hfits.1).mpr hrun

theorem cpus_scheduler (h : Cpus s) (hs : scheduler s c = some s') :
    Cpus s' ∧ Turned s.tab s'.tab := by
  have hheld := h.lock c
  cases hc : s.cpu c with
  | idle =>
    simp only [scheduler, hc, ite_none_right_eq_some, some.injEq] at hs
    obtain ⟨hfree, rfl⟩ := hs
    exact ⟨h.idle (by simp [hc, Cpu.cur]) rfl (Or.inr ⟨by simp, rfl⟩) (Or.inr hfree) (Or.inl rfl),
      turned_refl _⟩
  | scan i =>
    have hlock : s.lock = some c := hheld.mpr (by simp [Sys.holds, hc])
    have hnone : ∀ q, (s.cpu c).cur = some q → (s.tab.procs q).state ≠ .RUNNING := by
      simp [hc, Cpu.cur]
    simp only [scheduler, hc] at hs
    split at hs
    · split at hs
      · rename_i hst
        obtain rfl := some.inj hs
        refine ⟨h.choose hc hst, turned_slot (state_setState s.tab i .RUNNING) ?_⟩
        rw [hst]
        exact .run
      · obtain rfl := some.inj hs
        exact ⟨h.idle (l := s.lock) hnone rfl (Or.inr ⟨by simp, hlock⟩) (Or.inl hlock) (Or.inl rfl),
          turned_refl _⟩
    · obtain rfl := some.inj hs
      exact ⟨h.idle hnone rfl (Or.inl ⟨rfl, rfl⟩) (Or.inl hlock) (Or.inl rfl), turned_refl _⟩
  | enter p =>
    simp only [scheduler, hc] at hs
    split at hs
    · rename_i x hpc
      obtain rfl := some.inj hs
      exact ⟨h.enter hc hpc, turned_refl _⟩
    · cases hs
  | on p => simp [scheduler, hc] at hs
  | back p =>
    have hlock : s.lock = some c := hheld.mpr (by simp [Sys.holds, hc])
    have hp := h.placed c p (by rw [hc]; rfl)
    unfold Sys.Placed at hp
    rw [hc] at hp
    simp only [scheduler, hc, some.injEq] at hs
    subst hs
    refine ⟨h.idle (l := s.lock) (fun q hq => ?_) rfl (Or.inr ⟨by simp, hlock⟩) (Or.inl hlock)
      (Or.inl rfl), turned_refl _⟩
    rw [hc] at hq
    obtain rfl : p = q := some.inj hq
    rcases hp with hp | hp | hp <;> rw [hp] <;> simp
  | wakeup1 chan =>
    have hlock : s.lock = some c := hheld.mpr (by simp [Sys.holds, hc])
    simp only [scheduler, hc, some.injEq] at hs
    subst hs
    exact ⟨h.idle (by simp [hc, Cpu.cur]) rfl (Or.inl ⟨rfl, rfl⟩) (Or.inl hlock)
      (Or.inr ⟨wakes_wakeup1 s.tab chan, hlock⟩), (wakes_wakeup1 s.tab chan).turned⟩

/-! ## Every step -/

theorem call_eq {ok : Nat → Bool} (hs : s.call c x ok = some s') :
    ∃ p, s.cpu c = .on p ∧ s.pc p = .user ∧ ok p = true ∧ s' = s.move p s.tab (.acquire x) := by
  unfold Sys.call at hs
  split at hs
  · rename_i p hon
    obtain ⟨⟨hpc, hok⟩, hs⟩ := ite_none_right_eq_some.mp hs
    exact ⟨p, hon, hpc, hok, (some.inj hs).symm⟩
  · cases hs

/-- An interrupted process is at a place without the lock. -/
theorem Cpus.interrupted (h : Cpus s) {f : Pc → Pc} (hs : s.interrupt c f = some s') :
    ∃ p, s.cpu c = .on p ∧ (s.pc p).plain = true ∧ s' = s.move p s.tab (.acquire (f (s.pc p))) := by
  unfold Sys.interrupt at hs
  split at hs
  · rename_i p hon
    split at hs
    · cases hs
    · have hstands := h.stands hon
      refine ⟨p, hon, ?_, (some.inj hs).symm⟩
      cases hpc : s.pc p <;> simp_all [Pc.locked, Pc.plain, Pc.Stands]
  · cases hs

theorem cpus_call (h : Cpus s) {ok : Nat → Bool} (hs : s.call c x ok = some s')
    (hx : x.entry = true ∧ x.Fits ∧ x.embryo = none) : Cpus s' ∧ s'.tab = s.tab := by
  obtain ⟨p, hon, hpc, _, rfl⟩ := call_eq hs
  have hstands := h.stands hon
  rw [hpc] at hstands
  exact ⟨h.quiet (l := s.lock) hon ⟨hx.1, hx.2.1⟩ hstands (.keep rfl (by rw [hpc]; rfl))
    (Or.inl hx.2.2), rfl⟩

theorem cpus_interrupt (h : Cpus s) {f : Pc → Pc} (hs : s.interrupt c f = some s')
    (hf : ∀ b, (f b).entry = true ∧ (b.plain = true ∧ b.Fits → (f b).Fits) ∧
      (f b).embryo = b.embryo) :
    Cpus s' ∧ s'.tab = s.tab := by
  obtain ⟨p, hon, hplain, rfl⟩ := h.interrupted hs
  refine ⟨h.quiet (l := s.lock) hon ⟨(hf _).1, (hf _).2.1 ⟨hplain, h.fits p⟩⟩
    ((Pc.stands_of_plain hplain).mp (h.stands hon)) (.keep rfl ?_) (Or.inr (hf _).2.2), rfl⟩
  rw [Pc.locked_of_plain hplain]
  rfl

theorem cpus_step (h : Cpus s) {a : Act} (hs : ptable.step s a = some s') :
    Cpus s' ∧ Turned s.tab s'.tab := by
  have hquiet : Cpus s' ∧ s'.tab = s.tab → Cpus s' ∧ Turned s.tab s'.tab := fun hq =>
    ⟨hq.1, hq.2 ▸ turned_refl _⟩
  cases a with
  | cpu c => exact cpus_scheduler h hs
  | irq c chan =>
    rw [ptable.step, ite_none_right_eq_some] at hs
    obtain ⟨⟨hc, hfree⟩, hs⟩ := hs
    obtain rfl := some.inj hs
    exact ⟨h.idle (by simp [hc, Cpu.cur]) rfl (Or.inr ⟨by simp, rfl⟩) (Or.inr hfree) (Or.inl rfl),
      turned_refl _⟩
  | go c ok d =>
    simp only [ptable.step] at hs
    split at hs
    · rename_i p hon
      exact h.went hon (ptable.went hs)
    · cases hs
  | create c k | reap c r | kill c pid | exit c | sleep c chan =>
    exact hquiet (cpus_call h hs ⟨rfl, trivial, rfl⟩)
  | wakeup c chan | timer c => exact hquiet (cpus_interrupt h hs fun b => ⟨rfl, id, rfl⟩)

end Cpus

end xv6.ptable
