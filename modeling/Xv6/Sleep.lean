-- The sleep and wakeup of proc.c, one lock operation or one state write at a time: waiters that
-- sleep while a condition is false, wakers that make it true, kill, and the scheduler that hands
-- ptable.lock from process to process. The law: no wakeup is lost.
import Xv6.Places
import Xv6.Proc

open Option Function places runs

namespace xv6.sleep

open proc (Procstate)

/-! ## The state -/

/-- Where a process stands. The condition is protected by a lock `lk`, which is `ptable.lock` or
another one. -/
inductive Pc where
  /-- in other code, without a lock -/
  | idle
  /-- a waiter at `acquire(lk)`: its own, or the last of its `sleep` -/
  | acquire
  /-- a waiter at `while(!cond)`, with `lk` -/
  | test
  /-- a waiter past its loop, with `lk` -/
  | body
  /-- in `sleep`, at `acquire(&ptable.lock)`, with `lk` -/
  | sleep_acquire
  /-- in `sleep`, at `release(lk)`, with both locks -/
  | sleep_release
  /-- in `sleep`, at `proc->chan = chan`, with `ptable.lock` -/
  | set_chan
  /-- in `sleep`, at `proc->state = SLEEPING`, with `ptable.lock` -/
  | set_state
  /-- in `sched`, at `swtch`, with `ptable.lock` -/
  | sched
  /-- in `sched`, switched away from -/
  | off
  /-- in `sleep` after `sched`, at `proc->chan = 0`, with `ptable.lock` -/
  | tidy
  /-- in `sleep`, at `release(&ptable.lock)` -/
  | sleep_leave
  /-- a waker at `acquire(lk)` -/
  | waker
  /-- a waker that makes the condition true, with `lk` -/
  | make
  /-- in `wakeup`, at `acquire(&ptable.lock)`, with `lk` -/
  | wakeup
  /-- in the loop of `wakeup1`, at slot `i`, with both locks -/
  | wakeup1 (i : Nat)
  /-- in `wakeup`, at `release(&ptable.lock)`, with both locks -/
  | wakeup_leave
  /-- a waiter or a waker at `release(lk)` -/
  | leave
  /-- in `kill` of the process in slot `q`, at `acquire(&ptable.lock)` -/
  | kill (q : Nat)
  /-- in `kill`, about to wake the process in slot `q`, with `ptable.lock` -/
  | killing (q : Nat)
  /-- in `kill`, at `release(&ptable.lock)` -/
  | kill_leave
  deriving DecidableEq

/-- Who holds `ptable.lock`: a process, or the scheduler of some CPU. -/
inductive Owner where
  | proc (p : Nat)
  | scheduler
  deriving DecidableEq

structure Proc where
  state : Procstate
  chan : Option Nat
  deriving DecidableEq

structure Sys where
  procs : Nat → Proc
  pc : Nat → Pc
  /-- `ptable.lock` -/
  pt : Option Owner
  /-- `lk`, if it is another lock -/
  lk : Option Nat
  cond : Bool

/-- Every process runs, and none has a lock. -/
def init (cond : Bool) : Sys :=
  { procs := fun _ => { state := .RUNNING, chan := none }, pc := fun _ => .idle,
    pt := none, lk := none, cond := cond }

def Sys.goto (s : Sys) (p : Nat) (x : Pc) : Sys := { s with pc := Function.update s.pc p x }

def Sys.setState (s : Sys) (p : Nat) (x : Procstate) : Sys :=
  { s with procs := Function.update s.procs p { s.procs p with state := x } }

def Sys.setChan (s : Sys) (p : Nat) (c : Option Nat) : Sys :=
  { s with procs := Function.update s.procs p { s.procs p with chan := c } }

/-! ## The steps -/

section Steps

variable (same : Bool) (chan : Nat)

/-- `lk` is free. If `same` holds, then `lk` is `ptable.lock`. -/
def Sys.lkFree (s : Sys) : Prop := if same then s.pt = none else s.lk = none

instance (s : Sys) : Decidable (s.lkFree same) :=
  inferInstanceAs (Decidable (if same then s.pt = none else s.lk = none))

def Sys.acquire_lk (s : Sys) (p : Nat) : Sys :=
  if same then { s with pt := some (.proc p) } else { s with lk := some p }

def Sys.release_lk (s : Sys) : Sys := if same then { s with pt := none } else { s with lk := none }

/-- One turn of the loop of `wakeup1`. -/
def Sys.wake (s : Sys) (i : Nat) : Sys :=
  if (s.procs i).state = .SLEEPING ∧ (s.procs i).chan = some chan then s.setState i .RUNNABLE else s

/-- One step of process `p` in the code that it is in. The code after the loop of a waiter leaves
the condition as it is if `b` holds, and makes it false if not. -/
def go (s : Sys) (p : Nat) (b : Bool) : Option Sys :=
  match s.pc p with
  | .idle | .off => none
  | .acquire => if s.lkFree same then some ((s.acquire_lk same p).goto p .test) else none
  | .test =>
    if s.cond then some (s.goto p .body)
    else some (s.goto p (if same then .set_chan else .sleep_acquire))
  | .body => some { s.goto p .leave with cond := s.cond && b }
  | .sleep_acquire =>
    if s.pt = none then some { s.goto p .sleep_release with pt := some (.proc p) } else none
  | .sleep_release => some { s.goto p .set_chan with lk := none }
  | .set_chan => some ((s.setChan p (some chan)).goto p .set_state)
  | .set_state => some ((s.setState p .SLEEPING).goto p .sched)
  | .sched => some { s.goto p .off with pt := some .scheduler }
  | .tidy => some ((s.setChan p none).goto p (if same then .test else .sleep_leave))
  | .sleep_leave => some { s.goto p .acquire with pt := none }
  | .waker => if s.lkFree same then some ((s.acquire_lk same p).goto p .make) else none
  | .make => some { s.goto p (if same then .wakeup1 0 else .wakeup) with cond := true }
  | .wakeup =>
    if s.pt = none then some { s.goto p (.wakeup1 0) with pt := some (.proc p) } else none
  | .wakeup1 i =>
    if i < NPROC then some ((s.wake chan i).goto p (.wakeup1 (i + 1)))
    else some (s.goto p (if same then .leave else .wakeup_leave))
  | .wakeup_leave => some { s.goto p .leave with pt := none }
  | .leave => some ((s.release_lk same).goto p .idle)
  | .kill q =>
    if s.pt = none then some { s.goto p (.killing q) with pt := some (.proc p) } else none
  | .killing q =>
    some ((if (s.procs q).state = .SLEEPING then s.setState q .RUNNABLE else s).goto p .kill_leave)
  | .kill_leave => some { s.goto p .idle with pt := none }

/-- What can happen next. -/
inductive Act where
  /-- a process starts to run the code of a waiter, of a waker, or `kill` -/
  | wait (p : Nat)
  | waker (p : Nat)
  | kill (p q : Nat)
  /-- a process goes on -/
  | go (p : Nat) (b : Bool)
  /-- the scheduler of an idle CPU acquires `ptable.lock` -/
  | scheduler
  /-- a scheduler switches to process `p` -/
  | swtch (p : Nat)
  /-- a scheduler releases `ptable.lock` -/
  | release

def step (s : Sys) : Act → Option Sys
  | .wait p => if p < NPROC ∧ s.pc p = .idle then some (s.goto p .acquire) else none
  | .waker p => if p < NPROC ∧ s.pc p = .idle then some (s.goto p .waker) else none
  | .kill p q => if p < NPROC ∧ s.pc p = .idle then some (s.goto p (.kill q)) else none
  | .go p b => go same chan s p b
  | .scheduler => if s.pt = none then some { s with pt := some .scheduler } else none
  | .swtch p =>
    if s.pt = some .scheduler ∧ (s.procs p).state = .RUNNABLE ∧ s.pc p = .off then
      some { (s.setState p .RUNNING).goto p .tidy with pt := some (.proc p) }
    else none
  | .release => if s.pt = some .scheduler then some { s with pt := none } else none

end Steps

/-! ## The invariant -/

/-- The process that holds the lock, if one does. -/
def Owner.process : Option Owner → Option Nat
  | some (.proc p) => some p
  | _ => none

/-- The places where a process holds `ptable.lock`. -/
def Pc.holdsPt (same : Bool) : Pc → Prop
  | .test | .body | .make | .leave => same = true
  | .sleep_release | .set_chan | .set_state | .sched | .tidy | .sleep_leave | .wakeup1 _
  | .wakeup_leave | .killing _ | .kill_leave => True
  | _ => False

/-- The places where a process holds `lk`, if that is another lock. -/
def Pc.holdsLk (same : Bool) : Pc → Prop
  | .test | .body | .make | .leave | .wakeup1 _ => same = false
  | .sleep_acquire | .sleep_release | .wakeup | .wakeup_leave => True
  | _ => False

/-- Process `p` sleeps on `chan`, or has released `lk` to do so. -/
def Sys.drowsy (s : Sys) (chan p : Nat) : Prop :=
  s.pc p = .set_chan ∨ s.pc p = .set_state ∨
    (s.procs p).state = .SLEEPING ∧ (s.procs p).chan = some chan

/-- Process `w` is a waker that will come to slot `p` in its `wakeup1`. -/
def Pc.wakes (p : Nat) (x : Pc) : Prop := x = .wakeup ∨ ∃ i ≤ p, x = .wakeup1 i

structure Inv (same : Bool) (chan : Nat) (s : Sys) : Prop where
  pt : Owns (Pc.holdsPt same) (Owner.process s.pt) s.pc
  lk : Owns (Pc.holdsLk same) s.lk s.pc
  other : same = true → s.lk = none
  /-- the table has NPROC slots -/
  slots : ∀ p, NPROC ≤ p → s.pc p = .idle ∧ (s.procs p).state ≠ .SLEEPING
  /-- `sleep` is called while the condition is false -/
  quiet : ∀ p, s.pc p = .sleep_acquire ∨ s.pc p = .sleep_release → s.cond = false
  /-- a process that sleeps although the condition is true will be woken -/
  woken : ∀ p, s.drowsy chan p → s.cond = true → ∃ w, (s.pc w).wakes p

theorem inv_init (same : Bool) (chan : Nat) (cond : Bool) : Inv same chan (init cond) := by
  refine ⟨fun p => ?_, fun p => ?_, fun _ => rfl, fun p _ => ⟨rfl, by simp [init]⟩, fun p hp => ?_,
    fun p hp => ?_⟩
  · simp [init, Owner.process, Pc.holdsPt]
  · simp [init, Pc.holdsLk]
  · simp [init] at hp
  · simp [Sys.drowsy, init] at hp

section Moves

variable {same : Bool} {chan : Nat} {s s' : Sys} {p : Nat} {x : Pc}

theorem Inv.lt (h : Inv same chan s) (hp : s.pc p ≠ .idle) : p < NPROC :=
  Nat.lt_of_not_le fun hle => hp (h.slots p hle).1

/-- Process `p` moves to another place. What it must show: it holds the locks of that place, no
process falls asleep while the condition is true, and it wakes whom it was to wake. -/
theorem Inv.move (h : Inv same chan s) (hp : p < NPROC) (hpc : s'.pc = update s.pc p x)
    (hpt : Owns (Pc.holdsPt same) (Owner.process s'.pt) (update s.pc p x))
    (hlk : Owns (Pc.holdsLk same) s'.lk (update s.pc p x))
    (hother : same = true → s'.lk = none) (hslots : ∀ q, NPROC ≤ q → (s'.procs q).state ≠ .SLEEPING)
    (hquiet : x = .sleep_acquire ∨ x = .sleep_release → s'.cond = false)
    (hcond : s'.cond = true → s.cond = true)
    (hdrowsy : ∀ q, s'.drowsy chan q → s'.cond = true → s.drowsy chan q)
    (hwakes : ∀ q, s'.drowsy chan q → s'.cond = true → (s.pc p).wakes q → x.wakes q) :
    Inv same chan s' := by
  refine ⟨hpc ▸ hpt, hpc ▸ hlk, hother, fun q hq => ?_, fun q hq => ?_, fun q hq hc => ?_⟩
  · rw [hpc, update_of_ne (by omega)]
    exact ⟨(h.slots q hq).1, hslots q hq⟩
  · by_cases hqp : q = p
    · subst hqp
      rw [hpc, update_self] at hq
      exact hquiet hq
    · rw [hpc, update_of_ne hqp] at hq
      cases hc : s'.cond with
      | false => rfl
      | true =>
        grind [h.quiet]
  · obtain ⟨w, hw⟩ := h.woken q (hdrowsy q hq hc) (hcond hc)
    rw [hpc]
    by_cases hwp : w = p
    · subst hwp
      exact ⟨w, by rw [update_self]; exact hwakes q hq hc hw⟩
    · exact ⟨w, by rwa [update_of_ne hwp]⟩

/-- ... a step that leaves the table and the condition. -/
theorem Inv.step (h : Inv same chan s) (hp : p < NPROC) (pt : Option Owner) (lk : Option Nat)
    (hpt : Owns (Pc.holdsPt same) (Owner.process pt) (update s.pc p x))
    (hlk : Owns (Pc.holdsLk same) lk (update s.pc p x)) (hother : same = true → lk = none)
    (hquiet : x = .sleep_acquire ∨ x = .sleep_release → s.cond = false)
    (hdrowsy : x = .set_chan ∨ x = .set_state → s.cond = false)
    (hwakes : ∀ q, (s.pc p).wakes q → x.wakes q ∨ NPROC ≤ q) :
    Inv same chan { s with pc := update s.pc p x, pt := pt, lk := lk } := by
  have hold : ∀ q, Sys.drowsy { s with pc := update s.pc p x, pt := pt, lk := lk } chan q →
      s.cond = true → s.drowsy chan q := by
    intro q hq hc
    by_cases hqp : q = p
    · grind [Sys.drowsy]
    · grind [Sys.drowsy]
  refine h.move hp rfl hpt hlk hother (fun q hq => (h.slots q hq).2) hquiet id hold
    fun q hq hc hw => ?_
  rcases hwakes q hw with hw | hle
  · exact hw
  · obtain ⟨hidle, hne⟩ := h.slots q hle
    rcases hold q hq hc with hx | hx | hx
    · rw [hidle] at hx
      cases hx
    · rw [hidle] at hx
      cases hx
    · exact absurd hx.1 hne

/-- ... a step that takes `lk`. -/
theorem Inv.acquire_lk (h : Inv same chan s) (hp : p < NPROC) (hfree : s.lkFree same)
    (hpt : (s.pc p).holdsPt same ↔ False) (hx : x.holdsPt same ↔ same = true)
    (hlk : x.holdsLk same ↔ same = false) (hlk' : (s.pc p).holdsLk same ↔ False)
    (hquiet : x ≠ .sleep_acquire ∧ x ≠ .sleep_release ∧ x ≠ .set_chan ∧ x ≠ .set_state)
    (hwakes : ∀ q, ¬ (s.pc p).wakes q) : Inv same chan ((s.acquire_lk same p).goto p x) := by
  obtain ⟨h1, h2, h3, h4⟩ := hquiet
  cases same with
  | true =>
    have hfree : s.pt = none := hfree
    refine h.step (x := x) hp (some (.proc p)) s.lk ?_ (h.lk.move (by rw [hlk, hlk']; simp)) h.other
      (by simp [h1, h2]) (by simp [h3, h4]) fun q hq => absurd hq (hwakes q)
    have hnone := h.pt
    rw [hfree] at hnone
    exact hnone.acquire (hx.mpr rfl)
  | false =>
    have hfree : s.lk = none := hfree
    refine h.step (x := x) hp s.pt (some p) (h.pt.move (by rw [hx, hpt]; simp)) ?_ (by simp)
      (by simp [h1, h2]) (by simp [h3, h4]) fun q hq => absurd hq (hwakes q)
    have hnone := h.lk
    rw [hfree] at hnone
    exact hnone.acquire (hlk.mpr rfl)

/-- ... a step that takes `ptable.lock`. -/
theorem Inv.acquire_pt (h : Inv same chan s) (hp : p < NPROC) (hfree : s.pt = none)
    (hx : x.holdsPt same) (hlk : x.holdsLk same ↔ (s.pc p).holdsLk same)
    (hquiet : x = .sleep_release → s.cond = false)
    (hne : x ≠ .sleep_acquire ∧ x ≠ .set_chan ∧ x ≠ .set_state)
    (hwakes : ∀ q, (s.pc p).wakes q → x.wakes q) :
    Inv same chan { s.goto p x with pt := some (.proc p) } := by
  obtain ⟨h1, h2, h3⟩ := hne
  refine h.step hp (some (.proc p)) s.lk ?_ (h.lk.move hlk) h.other ?_ (by simp [h2, h3])
    fun q hq => Or.inl (hwakes q hq)
  · have hnone := h.pt
    rw [hfree] at hnone
    exact hnone.acquire hx
  · grind

/-- ... a step that gives `ptable.lock` back, or hands it to the scheduler. -/
theorem Inv.release_pt (h : Inv same chan s) (hp : p < NPROC) {o : Option Owner}
    (ho : Owner.process o = none) (hpt : (s.pc p).holdsPt same) (hx : ¬ x.holdsPt same)
    (hlk : x.holdsLk same ↔ (s.pc p).holdsLk same)
    (hne : x ≠ .sleep_acquire ∧ x ≠ .sleep_release ∧ x ≠ .set_chan ∧ x ≠ .set_state)
    (hwakes : ∀ q, ¬ (s.pc p).wakes q) : Inv same chan { s.goto p x with pt := o } := by
  obtain ⟨h1, h2, h3, h4⟩ := hne
  refine h.step hp o s.lk ?_ (h.lk.move hlk) h.other (by simp [h1, h2]) (by simp [h3, h4])
    fun q hq => absurd hq (hwakes q)
  rw [ho]
  exact h.pt.release hpt hx

/-- ... a step that keeps its locks. -/
theorem Inv.keep (h : Inv same chan s) (hp : p < NPROC)
    (hpt : x.holdsPt same ↔ (s.pc p).holdsPt same) (hlk : x.holdsLk same ↔ (s.pc p).holdsLk same)
    (hquiet : x = .sleep_acquire ∨ x = .sleep_release → s.cond = false)
    (hdrowsy : x = .set_chan ∨ x = .set_state → s.cond = false)
    (hwakes : ∀ q, (s.pc p).wakes q → x.wakes q ∨ NPROC ≤ q) : Inv same chan (s.goto p x) :=
  h.step hp s.pt s.lk (h.pt.move hpt) (h.lk.move hlk) h.other hquiet hdrowsy hwakes

/-- No other process is in the part of `sleep` before `release(lk)`, while `p` holds `lk`. -/
theorem Inv.alone (h : Inv same chan s) (hlk : same = false → (s.pc p).holdsLk same) {q : Nat}
    (hq : s.pc q = .sleep_acquire ∨ s.pc q = .sleep_release) : q = p := by
  have hheld : (s.pc q).holdsLk same := by
    rcases hq with hq | hq <;> rw [hq] <;> exact trivial
  cases same with
  | true => exact absurd hheld (h.lk.none_iff.mp (h.other rfl) q)
  | false => exact h.lk.unique hheld (hlk rfl)

/-- ... the step that makes the condition true. -/
theorem Inv.make (h : Inv same chan s) (hpc : s.pc p = .make) :
    Inv same chan { s.goto p (if same then .wakeup1 0 else .wakeup) with cond := true } := by
  have hlk : same = false → (s.pc p).holdsLk same := fun hs => by rw [hpc]; exact hs
  have hp := h.lt (p := p) (by rw [hpc]; simp)
  refine ⟨?_, ?_, h.other, fun q hq => ?_, fun q hq => ?_, fun q _ _ => ?_⟩
  · refine h.pt.move ?_
    rw [hpc]
    cases same <;> simp [Pc.holdsPt]
  · refine h.lk.move ?_
    rw [hpc]
    cases same <;> simp [Pc.holdsLk]
  · simp only [Sys.goto]
    rw [update_of_ne (by omega)]
    exact h.slots q hq
  · by_cases hqp : q = p
    · subst hqp
      simp only [Sys.goto, update_self] at hq
      split at hq <;> simp at hq
    · simp only [Sys.goto, update_of_ne hqp] at hq
      exact absurd (h.alone hlk hq) hqp
  · refine ⟨p, ?_⟩
    simp only [Sys.goto, update_self]
    split
    · exact Or.inr ⟨0, Nat.zero_le q, rfl⟩
    · exact Or.inl rfl

/-- One slot of the table and one place change. -/
theorem drowsy_of {i q : Nat} {r : Proc} {o : Option Owner}
    (hr : r.state = .SLEEPING → r.chan = some chan → s.drowsy chan i)
    (hx : x = .set_chan ∨ x = .set_state → s.drowsy chan p)
    (hq : Sys.drowsy { s with
      procs := update s.procs i r, pc := update s.pc p x, pt := o } chan q) :
    s.drowsy chan q := by
  have hpc : ∀ y, y = Pc.set_chan ∨ y = .set_state → update s.pc p x q = y →
      s.drowsy chan q := by
    intro y hy heq
    by_cases hqp : q = p
    · grind
    · rw [update_of_ne hqp] at heq
      subst heq
      exact hy.imp id Or.inl
  rcases hq with hq | hq | ⟨h1, h2⟩
  · exact hpc _ (Or.inl rfl) hq
  · exact hpc _ (Or.inr rfl) hq
  · simp only at h1 h2
    by_cases hqi : q = i
    · grind
    · rw [update_of_ne hqi] at h1 h2
      exact Or.inr (Or.inr ⟨h1, h2⟩)

/-- ... a step that changes one slot of the table. -/
theorem Inv.table (h : Inv same chan s) (hp : p < NPROC) {i : Nat} {r : Proc} {o : Option Owner}
    (hi : r.state = .SLEEPING → i < NPROC)
    (hr : r.state = .SLEEPING → r.chan = some chan → s.drowsy chan i)
    (hpt : Owns (Pc.holdsPt same) (Owner.process o) (update s.pc p x))
    (hlk : x.holdsLk same ↔ (s.pc p).holdsLk same)
    (hne : x ≠ .sleep_acquire ∧ x ≠ .sleep_release)
    (hx : x = .set_chan ∨ x = .set_state → s.drowsy chan p) (hwakes : ∀ q, ¬ (s.pc p).wakes q) :
    Inv same chan { s with
      procs := update s.procs i r, pc := update s.pc p x, pt := o } := by
  refine h.move hp rfl hpt (h.lk.move hlk) h.other (fun q hq hs => ?_)
    (fun hc => (hc.elim hne.1 hne.2).elim) id (fun q hq _ => drowsy_of hr hx hq)
    (fun q _ _ hw => absurd hw (hwakes q))
  by_cases hqi : q = i
  · grind
  · simp only [update_of_ne hqi] at hs
    exact (h.slots q hq).2 hs

/-- A slot of the table after its turn in the loop of `wakeup1`. -/
def Proc.woken (chan : Nat) (r : Proc) : Proc :=
  if r.state = .SLEEPING ∧ r.chan = some chan then { r with state := .RUNNABLE } else r

theorem Proc.woken_sleeping {r : Proc} (h1 : (r.woken chan).state = .SLEEPING)
    (h2 : (r.woken chan).chan = some chan) : False := by
  unfold Proc.woken at h1 h2
  split at h1
  · cases h1
  · grind

theorem wake_eq (s : Sys) (chan i : Nat) :
    s.wake chan i = { s with procs := update s.procs i ((s.procs i).woken chan) } := by
  unfold Sys.wake Proc.woken
  split
  · rfl
  · rw [update_eq_self]

theorem place_of {q : Nat} {y : Pc} (hx : x ≠ y) (h : update s.pc p x q = y) : s.pc q = y := by
  by_cases hqp : q = p
  · grind
  · grind

/-- ... a turn of the loop of `wakeup1`. -/
theorem Inv.wakeup1 (h : Inv same chan s) {i : Nat} (hpc : s.pc p = .wakeup1 i) (hi : i < NPROC) :
    Inv same chan ((s.wake chan i).goto p (.wakeup1 (i + 1))) := by
  have hp := h.lt (p := p) (by rw [hpc]; simp)
  have hheld : (s.pc p).holdsPt same := by
    rw [hpc]
    exact trivial
  -- the process in slot `i` is not about to sleep, since `p` holds `ptable.lock`
  have hlocked : ¬ (s.pc i = .set_chan ∨ s.pc i = .set_state) := by
    intro hy
    have hi : (s.pc i).holdsPt same := by
      rcases hy with hy | hy <;> rw [hy] <;> exact trivial
    obtain rfl := h.pt.unique hheld hi
    rw [hpc] at hy
    simp at hy
  rw [wake_eq]
  refine h.move hp rfl (h.pt.move (by rw [hpc]; exact Iff.rfl))
    (h.lk.move (by rw [hpc]; exact Iff.rfl))
    h.other (fun q hq => ?_) (by simp) id (fun q hq _ => drowsy_of ?_ (by simp) hq)
    (fun q hq _ hw => ?_)
  · simp only [Sys.goto]
    rw [update_of_ne (by omega)]
    exact (h.slots q hq).2
  · exact fun h1 h2 => (Proc.woken_sleeping h1 h2).elim
  · rcases hw with hw | ⟨j, hj, hw⟩
    · rw [hpc] at hw
      cases hw
    rw [hpc] at hw
    obtain rfl := Pc.wakeup1.inj hw
    refine Or.inr ⟨i + 1, ?_, rfl⟩
    by_contra hq'
    obtain rfl : q = i := by omega
    rcases hq with hq | hq | ⟨h1, h2⟩
    · exact hlocked (Or.inl (place_of (by simp) hq))
    · exact hlocked (Or.inr (place_of (by simp) hq))
    · simp only [Sys.goto, update_self] at h1 h2
      exact Proc.woken_sleeping h1 h2

/-- Some places are there only if `lk` is another lock. -/
theorem Inv.differ (h : Inv same chan s) (hp : (s.pc p).holdsLk same) : same = false := by
  cases same with
  | true => exact absurd hp (h.lk.none_iff.mp (h.other rfl) p)
  | false => rfl

/-! ## Every step -/

theorem inv_go (h : Inv same chan s) {b : Bool} (hs : go same chan s p b = some s') :
    Inv same chan s' := by
  have hp : p < NPROC := by
    refine h.lt fun hpc => ?_
    simp [go, hpc] at hs
  cases hpc : s.pc p with
  | idle => simp [go, hpc] at hs
  | off => simp [go, hpc] at hs
  | acquire | waker =>
    simp only [go, hpc, ite_none_right_eq_some, some.injEq] at hs
    obtain ⟨hfree, rfl⟩ := hs
    exact h.acquire_lk hp hfree (by simp [hpc, Pc.holdsPt]) (by simp [Pc.holdsPt])
      (by simp [Pc.holdsLk]) (by simp [hpc, Pc.holdsLk]) (by simp) (by simp [hpc, Pc.wakes])
  | test =>
    simp only [go, hpc] at hs
    split at hs
    · obtain rfl := some.inj hs
      exact h.keep hp (by simp [hpc, Pc.holdsPt]) (by simp [hpc, Pc.holdsLk]) (by simp) (by simp)
        (by simp [hpc, Pc.wakes])
    · rename_i hc
      have hc : s.cond = false := by simpa using hc
      obtain rfl := some.inj hs
      refine h.keep hp ?_ ?_ (fun _ => hc) (fun _ => hc) (by simp [hpc, Pc.wakes])
      · cases same <;> simp [hpc, Pc.holdsPt]
      · cases same <;> simp [hpc, Pc.holdsLk]
  | body =>
    simp only [go, hpc, some.injEq] at hs
    obtain rfl := hs
    refine h.move hp rfl (h.pt.move (by simp [hpc, Pc.holdsPt]))
      (h.lk.move (by simp [hpc, Pc.holdsLk]))
      h.other (fun q hq => (h.slots q hq).2) (by simp) (fun hc => ?_) (fun q hq _ => ?_)
      (by simp [hpc, Pc.wakes])
    · grind
    · rcases hq with hq | hq | hq
      · exact Or.inl (place_of (by simp) hq)
      · exact Or.inr (Or.inl (place_of (by simp) hq))
      · exact Or.inr (Or.inr hq)
  | sleep_acquire =>
    simp only [go, hpc, ite_none_right_eq_some, some.injEq] at hs
    obtain ⟨hfree, rfl⟩ := hs
    exact h.acquire_pt hp hfree trivial (by simp [hpc, Pc.holdsLk])
      (fun _ => h.quiet p (Or.inl hpc)) (by simp) (by simp [hpc, Pc.wakes])
  | wakeup =>
    simp only [go, hpc, ite_none_right_eq_some, some.injEq] at hs
    obtain ⟨hfree, rfl⟩ := hs
    refine h.acquire_pt hp hfree trivial ?_ (by simp) (by simp)
      (fun q _ => Or.inr ⟨0, Nat.zero_le q, rfl⟩)
    exact iff_of_true (h.differ (p := p) (by rw [hpc]; exact trivial)) (by rw [hpc]; exact trivial)
  | kill q =>
    simp only [go, hpc, ite_none_right_eq_some, some.injEq] at hs
    obtain ⟨hfree, rfl⟩ := hs
    exact h.acquire_pt hp hfree trivial (by simp [hpc, Pc.holdsLk]) (by simp) (by simp)
      (by simp [hpc, Pc.wakes])
  | sleep_release =>
    simp only [go, hpc, some.injEq] at hs
    obtain rfl := hs
    exact h.step hp s.pt none (h.pt.move (by simp [hpc, Pc.holdsPt]))
      (h.lk.release (by rw [hpc]; exact trivial) (by simp [Pc.holdsLk])) (fun _ => rfl) (by simp)
      (fun _ => h.quiet p (Or.inr hpc)) (by simp [hpc, Pc.wakes])
  | set_chan =>
    simp only [go, hpc, some.injEq] at hs
    obtain rfl := hs
    exact h.table (o := s.pt) hp (fun _ => hp) (fun _ _ => Or.inl hpc)
      (h.pt.move (by simp [hpc, Pc.holdsPt])) (by simp [hpc, Pc.holdsLk]) (by simp)
      (fun _ => Or.inl hpc) (by simp [hpc, Pc.wakes])
  | set_state =>
    simp only [go, hpc, some.injEq] at hs
    obtain rfl := hs
    exact h.table (o := s.pt) hp (fun _ => hp) (fun _ _ => Or.inr (Or.inl hpc))
      (h.pt.move (by simp [hpc, Pc.holdsPt])) (by simp [hpc, Pc.holdsLk]) (by simp) (by simp)
      (by simp [hpc, Pc.wakes])
  | sched | sleep_leave | kill_leave =>
    simp only [go, hpc, some.injEq] at hs
    obtain rfl := hs
    exact h.release_pt hp rfl (by simp [hpc, Pc.holdsPt]) (by simp [Pc.holdsPt])
      (by simp [hpc, Pc.holdsLk]) (by simp) (by simp [hpc, Pc.wakes])
  | tidy =>
    simp only [go, hpc, some.injEq] at hs
    obtain rfl := hs
    refine h.table (o := s.pt) hp (fun _ => hp) (by simp) (h.pt.move ?_) ?_ ?_ ?_
      (by simp [hpc, Pc.wakes])
    · cases same <;> simp [hpc, Pc.holdsPt]
    · cases same <;> simp [hpc, Pc.holdsLk]
    · cases same <;> simp
    · cases same <;> simp
  | make =>
    simp only [go, hpc, some.injEq] at hs
    obtain rfl := hs
    exact h.make hpc
  | wakeup1 i =>
    simp only [go, hpc] at hs
    split at hs
    · grind [some.inj, h.wakeup1]
    · rename_i hi
      obtain rfl := some.inj hs
      refine h.keep hp ?_ ?_ ?_ ?_ ?_
      · cases same <;> simp [hpc, Pc.holdsPt]
      · cases same <;> simp [hpc, Pc.holdsLk]
      · cases same <;> simp
      · cases same <;> simp
      · rintro q (hw | ⟨j, hj, hw⟩)
        · rw [hpc] at hw
          cases hw
        · grind
  | wakeup_leave =>
    simp only [go, hpc, some.injEq] at hs
    obtain rfl := hs
    have hsame := h.differ (p := p) (by rw [hpc]; exact trivial)
    exact h.release_pt hp rfl (by simp [hpc, Pc.holdsPt]) (by simp [Pc.holdsPt, hsame])
      (by simp [hpc, Pc.holdsLk, hsame]) (by simp) (by simp [hpc, Pc.wakes])
  | leave =>
    simp only [go, hpc, some.injEq] at hs
    obtain rfl := hs
    cases same with
    | true =>
      exact h.release_pt (o := none) hp rfl (by simp [hpc, Pc.holdsPt]) (by simp [Pc.holdsPt])
        (by simp [hpc, Pc.holdsLk]) (by simp) (by simp [hpc, Pc.wakes])
    | false =>
      exact h.step hp s.pt none (h.pt.move (by simp [hpc, Pc.holdsPt]))
        (h.lk.release (by simp [hpc, Pc.holdsLk]) (by simp [Pc.holdsLk])) (by simp)
        (by simp) (by simp) (by simp [hpc, Pc.wakes])
  | killing q =>
    simp only [go, hpc, some.injEq] at hs
    obtain rfl := hs
    split
    · exact h.table (o := s.pt) hp (by simp) (by simp) (h.pt.move (by simp [hpc, Pc.holdsPt]))
        (by simp [hpc, Pc.holdsLk]) (by simp) (by simp) (by simp [hpc, Pc.wakes])
    · grind [h.keep, Pc.holdsPt, Pc.holdsLk, Pc.wakes]

/-- ... a process that starts to run one of the three codes. -/
theorem Inv.start (h : Inv same chan s)
    (hs : (if p < NPROC ∧ s.pc p = .idle then some (s.goto p x) else none) = some s')
    (hpt : x.holdsPt same ↔ False) (hlk : x.holdsLk same ↔ False)
    (hne : x ≠ .set_chan ∧ x ≠ .set_state ∧ x ≠ .sleep_acquire ∧ x ≠ .sleep_release) :
    Inv same chan s' := by
  obtain ⟨h1, h2, h3, h4⟩ := hne
  rw [ite_none_right_eq_some] at hs
  obtain ⟨⟨hp, hpc⟩, hs⟩ := hs
  obtain rfl := some.inj hs
  refine h.keep hp ?_ ?_ (by simp [h3, h4]) (by simp [h1, h2]) (by simp [hpc, Pc.wakes])
  · rw [hpt, hpc]
    exact Iff.rfl
  · rw [hlk, hpc]
    exact Iff.rfl

/-- The scheduler takes `ptable.lock`, or gives it back. -/
theorem Inv.scheduler (h : Inv same chan s) {o : Option Owner} (h1 : Owner.process s.pt = none)
    (h2 : Owner.process o = none) : Inv same chan { s with pt := o } := by
  refine ⟨?_, h.lk, h.other, h.slots, h.quiet, h.woken⟩
  rw [h2, ← h1]
  exact h.pt

theorem inv_step (h : Inv same chan s) {a : Act} (hs : sleep.step same chan s a = some s') :
    Inv same chan s' := by
  cases a with
  | wait p | waker p | kill p q => exact h.start hs Iff.rfl Iff.rfl (by simp)
  | go p b => exact inv_go h hs
  | scheduler =>
    rw [sleep.step, ite_none_right_eq_some] at hs
    obtain ⟨hfree, hs⟩ := hs
    obtain rfl := some.inj hs
    exact h.scheduler (by rw [hfree]; rfl) rfl
  | swtch p =>
    rw [sleep.step, ite_none_right_eq_some] at hs
    obtain ⟨⟨hown, _, hoff⟩, hs⟩ := hs
    obtain rfl := some.inj hs
    have hp := h.lt (p := p) (by simp [hoff])
    refine h.table (o := some (.proc p)) hp (by simp) (by simp) ?_ (by simp [hoff, Pc.holdsLk])
      (by simp) (by simp) (by simp [hoff, Pc.wakes])
    have hnone := h.pt
    rw [hown] at hnone
    exact hnone.acquire trivial
  | release =>
    rw [sleep.step, ite_none_right_eq_some] at hs
    obtain ⟨hown, hs⟩ := hs
    obtain rfl := some.inj hs
    exact h.scheduler (by rw [hown]; rfl) rfl

end Moves

/-! ## The law -/

/-- No wakeup is lost: in no state that a run reaches are both locks free and the condition true
while a process sleeps on the channel. -/
theorem no_wakeup_is_lost (same : Bool) (chan : Nat) (cond : Bool) (as : List Act) (s : Sys)
    (hrun : run (step same chan) (init cond) as = some s) (hlk : s.lkFree same) (hpt : s.pt = none)
    (hcond : s.cond = true) (p : Nat) :
    ¬ ((s.procs p).state = .SLEEPING ∧ (s.procs p).chan = some chan) := by
  have h : Inv same chan s := inv_of_run (fun _ _ _ h hs => inv_step h hs)
    (inv_init same chan cond) hrun
  intro hsleep
  obtain ⟨w, hw⟩ := h.woken p (Or.inr (Or.inr hsleep)) hcond
  -- that waker holds a lock
  have hfree : ∀ q, ¬ (s.pc q).holdsPt same := h.pt.none_iff.mp (by rw [hpt]; rfl)
  rcases hw with hw | ⟨i, _, hw⟩
  · have hheld : (s.pc w).holdsLk same := by
      rw [hw]
      exact trivial
    have hsame := h.differ hheld
    subst hsame
    exact h.lk.none_iff.mp hlk w hheld
  · refine hfree w ?_
    rw [hw]
    exact trivial

/-- A waiter goes to sleep, and a waker wakes it and is done. -/
def nap : List Act :=
  .wait 0 :: List.replicate 7 (.go 0 true) ++ [.release, .waker 1] ++
    List.replicate (6 + NPROC) (.go 1 true)

theorem the_napper_is_woken : ∃ s, run (step false 7) (init false) nap = some s ∧ s.pc 0 = .off ∧
      ¬ ((s.procs 0).state = .SLEEPING ∧ (s.procs 0).chan = some 7) := by
  obtain ⟨s, hs, h1, h2, h3, h4⟩ : ∃ s, run (step false 7) (init false) nap = some s ∧ s.lk = none ∧
      s.pt = none ∧ s.cond = true ∧ s.pc 0 = .off := by decide +kernel
  exact ⟨s, hs, h4, no_wakeup_is_lost false 7 false nap s hs h1 h2 h3 0⟩

end xv6.sleep
