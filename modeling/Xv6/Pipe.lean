-- Pipes (pipe.c) under any interleaving: processes in pipewrite and piperead, kill, and the closing
-- of either end. A step is one turn of a loop under p->lock, or a critical section of ptable.lock.
import Xv6.Fifo
import Xv6.Places
import Xv6.Runs
import Xv6.Sysread

open Option Function runs places fifo

namespace xv6.pipe

open sysread (PIPESIZE)

/-! ## The state -/

/-- What a process sleeps on. -/
inductive Chan where
  | nread
  | nwrite
  deriving DecidableEq

/-- Where a process stands. -/
inductive Pc where
  /-- outside of the functions below -/
  | user
  /-- in `pipewrite` of `n` bytes, of which `i` are stored: at `acquire(&p->lock)`, its own or the
  one at the end of `sleep` -/
  | write_acquire (n : Int) (i : Nat)
  /-- at the tests of the loops, with `p->lock`; `new` says that bytes were stored since the readers
  were woken last -/
  | write (n : Int) (i : Nat) (new : Bool)
  /-- at the `wakeup` of the inner loop -/
  | write_wakeup (n : Int) (i : Nat)
  /-- at the `sleep` of the inner loop -/
  | write_sleep (n : Int) (i : Nat)
  /-- in `sleep`, switched away from -/
  | write_off (n : Int) (i : Nat)
  /-- at the last `wakeup` -/
  | write_last (n : Int)
  /-- at a `release(&p->lock)` before a `return` -/
  | write_leave (r : Int)
  /-- in `piperead` of `n` bytes: at `acquire(&p->lock)` -/
  | read_acquire (n : Int)
  /-- at the test of the first loop, with `p->lock` -/
  | read_test (n : Int)
  | read_sleep (n : Int)
  | read_off (n : Int)
  /-- at the tests of the second loop, with `i` bytes taken -/
  | read (n : Int) (i : Nat)
  | read_wakeup (n : Int) (i : Nat)
  | read_leave (n r : Int)
  deriving DecidableEq

structure Sys where
  /-- `data`, `nread` and `nwrite` -/
  queue : Queue UInt8
  readopen : Bool
  writeopen : Bool
  /-- who holds `p->lock` -/
  lock : Option Nat
  pc : Nat → Pc
  /-- the process is SLEEPING on the channel -/
  asleep : Nat → Option Chan
  killed : Nat → Bool
  /-- the bytes that writers have stored, oldest first -/
  stored : List UInt8
  /-- the bytes that readers have taken, oldest first -/
  taken : List UInt8

/-- A pipe that `pipealloc` made. -/
def init (data : Nat → UInt8) : Sys :=
  { queue := { data := data, nread := 0, nwrite := 0 }, readopen := true, writeopen := true,
    lock := none
    pc := fun _ => .user, asleep := fun _ => none, killed := fun _ => false, stored :=
    [], taken := [] }

namespace Sys

def goto (s : Sys) (p : Nat) (x : Pc) : Sys := { s with pc := Function.update s.pc p x }

def wakeup (s : Sys) (c : Chan) : Sys :=
  { s with asleep := fun q => if s.asleep q = some c then none else s.asleep q }

/-- `sleep(c, &p->lock)`, up to the switch to the scheduler. -/
def sleep (s : Sys) (p : Nat) (c : Chan) : Sys :=
  { s with asleep := Function.update s.asleep p (some c), lock := none }

/-- `p->nwrite == p->nread + PIPESIZE` -/
def full (s : Sys) : Prop := s.queue.nwrite = uint (s.queue.nread + PIPESIZE)

def empty (s : Sys) : Prop := s.queue.nread = s.queue.nwrite

instance (s : Sys) : Decidable s.full := inferInstanceAs (Decidable (_ = _))

instance (s : Sys) : Decidable s.empty := inferInstanceAs (Decidable (_ = _))

/-- `p->data[p->nwrite++ % PIPESIZE] = b` -/
def store (s : Sys) (b : UInt8) : Sys :=
  { s with queue := s.queue.push PIPESIZE (2 ^ 32) b, stored := s.stored ++ [b] }

/-- `addr[i] = p->data[p->nread++ % PIPESIZE]` -/
def take (s : Sys) : Sys :=
  { s with queue := s.queue.pop (2 ^ 32), taken := s.taken ++
  [s.queue.data (s.queue.nread % PIPESIZE)] }

/-- `pipeclose`. When both ends are closed, the pipe is gone. -/
def close (s : Sys) (writable : Bool) : Sys :=
  if writable then { s.wakeup .nread with writeopen := false }
  else { s.wakeup .nwrite with readopen := false }

end Sys

/-! ## The steps -/

/-- The next step of process `p` in the function it is in. `b` is the byte at `addr[i]`. -/
def go (s : Sys) (p : Nat) (b : UInt8) : Option Sys :=
  match s.pc p with
  | .user => none
  | .write_acquire n i =>
    if s.lock = none then some { s.goto p (.write n i false) with lock := some p } else none
  | .write n i _ =>
    if (i : Int) < n then
      if s.full then
        if s.readopen = false ∨ s.killed p then some (s.goto p (.write_leave (-1)))
        else some (s.goto p (.write_wakeup n i))
      else some ((s.store b).goto p (.write n (i + 1) true))
    else some (s.goto p (.write_last n))
  | .write_wakeup n i => some ((s.wakeup .nread).goto p (.write_sleep n i))
  | .write_sleep n i => some ((s.sleep p .nwrite).goto p (.write_off n i))
  | .write_off n i => if s.asleep p = none then some (s.goto p (.write_acquire n i)) else none
  | .write_last n => some ((s.wakeup .nread).goto p (.write_leave n))
  | .write_leave _ => some { s.goto p .user with lock := none }
  | .read_acquire n =>
    if s.lock = none then some { s.goto p (.read_test n) with lock := some p } else none
  | .read_test n =>
    if s.empty ∧ s.writeopen then
      if s.killed p then some (s.goto p (.read_leave n (-1))) else some (s.goto p (.read_sleep n))
    else some (s.goto p (.read n 0))
  | .read_sleep n => some ((s.sleep p .nread).goto p (.read_off n))
  | .read_off n => if s.asleep p = none then some (s.goto p (.read_acquire n)) else none
  | .read n i =>
    if (i : Int) < n ∧ ¬ s.empty then some (s.take.goto p (.read n (i + 1)))
    else some (s.goto p (.read_wakeup n i))
  | .read_wakeup n i => some ((s.wakeup .nwrite).goto p (.read_leave n i))
  | .read_leave _ _ => some { s.goto p .user with lock := none }

/-- What can happen next. -/
inductive Act where
  /-- process `p` calls `pipewrite` or `piperead` for `n` bytes -/
  | write (p : Nat) (n : Int)
  | read (p : Nat) (n : Int)
  /-- process `p` goes on in the function it is in -/
  | go (p : Nat) (b : UInt8)
  | close (writable : Bool)
  /-- some process calls `kill` for process `q` -/
  | kill (q : Nat)

def step (s : Sys) (a : Act) : Option Sys :=
  if s.readopen = false ∧ s.writeopen = false then none
  else
    match a with
    | .write p n => if s.pc p = .user then some (s.goto p (.write_acquire n 0)) else none
    | .read p n => if s.pc p = .user then some (s.goto p (.read_acquire n)) else none
    | .go p b => go s p b
    | .close writable => if s.lock = none then some (s.close writable) else none
    | .kill q =>
      some { s with
        killed := Function.update s.killed q true, asleep := Function.update s.asleep q none }

/-! ## The invariant -/

/-- The places where a process holds `p->lock`. -/
def Pc.holds : Pc → Prop
  | .write .. | .write_wakeup .. | .write_sleep .. | .write_last _ | .write_leave _ | .read_test _
  | .read_sleep _ | .read .. | .read_wakeup .. | .read_leave .. => True
  | _ => False

/-- What a process at a place knows about the pipe. -/
def Sys.At (s : Sys) : Pc → Prop
  | .write_wakeup .. | .write_sleep .. => s.full ∧ s.readopen = true
  | .read_sleep _ => s.empty ∧ s.writeopen = true
  | .read _ i => i = 0 → ¬ s.empty ∨ s.writeopen = false
  | .read_wakeup n i => 0 < n → i = 0 → s.empty ∧ s.writeopen = false
  | .read_leave n r => 0 < n → r = 0 → s.empty ∧ s.writeopen = false
  | _ => True

structure Inv (s : Sys) : Prop where
  lock : Owns Pc.holds s.lock s.pc
  place : ∀ p, s.At (s.pc p)
  valid : s.queue.Valid PIPESIZE (2 ^ 32)
  fifo : s.stored = s.taken ++ s.queue.contents PIPESIZE (2 ^ 32)

theorem sizes : Sizes PIPESIZE (2 ^ 32) := ⟨by decide, by decide, by decide⟩

theorem inv_init (data : Nat → UInt8) : Inv (init data) := by
  refine ⟨fun p => ?_, fun p => trivial, ⟨?_, ?_, ?_⟩, ?_⟩
  · simp [init, Pc.holds]
  · simp [init]
  · simp [init]
  · simp [init, Queue.count]
  · simp [init, Queue.contents, Queue.count]

section Steps

variable {s s' : Sys} {p : Nat} {x : Pc}

theorem at_of_not_holds (h : ¬ x.holds) : s.At x := by
  cases x with
  | user | write_acquire | write_off | read_acquire | read_off => trivial
  | _ => exact absurd trivial h

/-- A step of the process that holds `p->lock`: nobody else knows about the pipe. -/
theorem Inv.hold (h : Inv s) (hp : (s.pc p).holds) (hpc : s'.pc = update s.pc p x)
    (hlock : Owns Pc.holds s'.lock (update s.pc p x)) (hat : s'.At x)
    (hvalid : s'.queue.Valid PIPESIZE (2 ^ 32))
    (hfifo : s'.stored = s'.taken ++ s'.queue.contents PIPESIZE (2 ^ 32)) : Inv s' := by
  refine ⟨hpc ▸ hlock, fun q => ?_, hvalid, hfifo⟩
  rw [hpc]
  by_cases hq : q = p
  · grind
  · grind [at_of_not_holds, h.lock.unique]

/-- ... one that leaves the pipe and keeps the lock. -/
theorem Inv.stay (h : Inv s) (hp : (s.pc p).holds) (hx : x.holds) (hat : s.At x) :
    Inv (s.goto p x) :=
  h.hold hp rfl (h.lock.move (iff_of_true hx hp)) hat h.valid h.fifo

/-- A step that leaves the pipe and the lock, and goes to a place without the lock. -/
theorem Inv.outside (h : Inv s) (hp : ¬ (s.pc p).holds) (hx : ¬ x.holds) : Inv (s.goto p x) := by
  refine ⟨h.lock.move (iff_of_false hx hp), forall_move h.place (at_of_not_holds hx),
    h.valid, h.fifo⟩

theorem Inv.acquire (h : Inv s) (hfree : s.lock = none) (hx : x.holds) (hat : s.At x) :
    Inv { s.goto p x with lock := some p } := by
  have hnone := h.lock
  rw [hfree] at hnone
  exact ⟨hnone.acquire hx, forall_move h.place hat, h.valid, h.fifo⟩

theorem Inv.release (h : Inv s) (hp : (s.pc p).holds)
    (hx : ¬ x.holds) (asleep : Nat → Option Chan) :
    Inv { s.goto p x with lock := none, asleep := asleep } :=
  h.hold hp rfl (h.lock.release hp hx) (at_of_not_holds hx) h.valid h.fifo

theorem Inv.setAsleep (h : Inv s) (asleep : Nat → Option Chan) (killed : Nat → Bool) :
    Inv { s with asleep := asleep, killed := killed } :=
  ⟨h.lock, h.place, h.valid, h.fifo⟩

theorem Inv.wakeup (h : Inv s) (c : Chan) : Inv (s.wakeup c) := h.setAsleep _ s.killed

theorem Inv.not_full (h : Inv s) (hf : ¬ s.full) : s.queue.count (2 ^ 32) < PIPESIZE := by
  have hne : s.queue.count (2 ^ 32) ≠ PIPESIZE := fun hc => hf ((h.valid.full_iff sizes).mpr hc)
  have := h.valid.count
  omega

theorem Inv.not_empty (h : Inv s) (he : ¬ s.empty) : s.queue.count (2 ^ 32) ≠ 0 :=
  fun hc => he (h.valid.empty_iff.mpr hc)

theorem Inv.store (h : Inv s) {n : Int} {i : Nat} {new : Bool} (hp : s.pc p = .write n i new)
    (hf : ¬ s.full) (b : UInt8) : Inv ((s.store b).goto p (.write n (i + 1) true)) := by
  have hroom := h.not_full hf
  have hholds : (s.pc p).holds := by
    rw [hp]
    trivial
  refine h.hold hholds rfl (h.lock.move (iff_of_true trivial hholds)) trivial
    (h.valid.push sizes hroom b).1 ?_
  change s.stored ++ [b] = s.taken ++ (s.queue.push PIPESIZE (2 ^ 32) b).contents PIPESIZE (2 ^ 32)
  rw [h.valid.contents_push sizes hroom, h.fifo, List.append_assoc]

theorem Inv.take (h : Inv s) {n : Int} {i : Nat} (hp : s.pc p = .read n i) (he : ¬ s.empty) :
    Inv (s.take.goto p (.read n (i + 1))) := by
  have hne := h.not_empty he
  have hholds : (s.pc p).holds := by
    rw [hp]
    trivial
  refine h.hold hholds rfl (h.lock.move (iff_of_true trivial hholds)) (fun hi => by cases hi)
    (h.valid.pop hne).1 ?_
  change s.stored = s.taken ++ [_] ++ (s.queue.pop (2 ^ 32)).contents PIPESIZE (2 ^ 32)
  rw [h.fifo, h.valid.contents_pop sizes hne, List.append_assoc]
  rfl

theorem Inv.go (h : Inv s) {b : UInt8} (hs : go s p b = some s') : Inv s' := by
  have hplace := h.place p
  unfold pipe.go at hs
  split at hs
  case h_1 => cases hs
  case h_2 n i hp | h_9 n hp =>
    obtain ⟨hfree, hs⟩ := ite_none_right_eq_some.mp hs
    cases hs
    exact h.acquire hfree trivial trivial
  case h_3 n i new hp =>
    have hholds : (s.pc p).holds := by
      rw [hp]
      trivial
    split at hs
    · split at hs
      · rename_i hfull
        split at hs
        · cases hs
          exact h.stay hholds trivial trivial
        · rename_i hopen
          cases hs
          refine h.stay hholds trivial ⟨hfull, ?_⟩
          simpa using fun hr => hopen (Or.inl hr)
      · grind [h.store]
    · cases hs
      exact h.stay hholds trivial trivial
  case h_4 n i hp =>
    cases hs
    rw [hp] at hplace
    exact (h.wakeup .nread).stay (by rw [show (s.wakeup .nread).pc p = _ from hp]; trivial)
      trivial hplace
  case h_5 n i hp | h_8 r hp | h_11 n hp | h_15 n r hp =>
    cases hs
    exact h.release (by rw [hp]; trivial) id _
  case h_6 n i hp | h_12 n hp =>
    obtain ⟨_, hs⟩ := ite_none_right_eq_some.mp hs
    cases hs
    exact h.outside (by rw [hp]; exact id) id
  case h_7 n hp =>
    cases hs
    exact (h.wakeup .nread).stay (by rw [show (s.wakeup .nread).pc p = _ from hp]; trivial)
      trivial trivial
  case h_10 n hp =>
    have hholds : (s.pc p).holds := by
      rw [hp]
      trivial
    split at hs
    · rename_i hwait
      split at hs
      · cases hs
        exact h.stay hholds trivial fun _ hr => by cases hr
      · cases hs
        exact h.stay hholds trivial hwait
    · rename_i hwait
      cases hs
      refine h.stay hholds trivial fun _ => ?_
      by_cases he : s.empty
      · grind
      · exact Or.inl he
  case h_13 n i hp =>
    split at hs
    · grind [h.take]
    · rename_i hmore
      cases hs
      refine h.stay (by rw [hp]; trivial) trivial fun hn hi => ?_
      rw [hp] at hplace
      have he : s.empty := by grind
      exact ⟨he, (hplace hi).resolve_left (not_not.mpr he)⟩
  case h_14 n i hp =>
    cases hs
    rw [hp] at hplace
    refine (h.wakeup .nwrite).stay
      (by rw [show (s.wakeup .nwrite).pc p = _ from hp]; trivial) trivial
      fun hn hi => hplace hn (by simpa using hi)

theorem Inv.close (h : Inv s) (hfree : s.lock = none) (writable : Bool) :
    Inv (s.close writable) := by
  have hnone : ∀ p, ¬ (s.pc p).holds := h.lock.none_iff.mp hfree
  unfold Sys.close
  split
  · exact ⟨h.lock, fun p => at_of_not_holds (hnone p), h.valid, h.fifo⟩
  · exact ⟨h.lock, fun p => at_of_not_holds (hnone p), h.valid, h.fifo⟩

theorem Inv.step {a : Act} (h : Inv s) (hs : step s a = some s') : Inv s' := by
  unfold pipe.step at hs
  split at hs
  · cases hs
  cases a with
  | write p n | read p n =>
    obtain ⟨hp, hs⟩ := ite_none_right_eq_some.mp hs
    cases hs
    exact h.outside (by rw [hp]; exact id) id
  | go p b => exact h.go hs
  | close writable =>
    grind [h.close]
  | kill q =>
    cases hs
    exact h.setAsleep _ _

end Steps

/-- A pipe is a first-in first-out stream of bytes. In every state of every run, what was stored
is what was taken followed by what is in the ring, which never has more than PIPESIZE bytes, and
a `piperead` of at least one byte that is about to return 0 has found the pipe empty and its
write end closed. -/
theorem a_pipe_is_a_stream (data : Nat → UInt8) (as : List Act) (s : Sys)
    (hrun : run step (init data) as = some s) :
    s.stored = s.taken ++ s.queue.contents PIPESIZE (2 ^ 32) ∧
    (∃ c ≤ PIPESIZE, s.queue.nwrite = (s.queue.nread + c) % 2 ^ 32 ∧
      (s.queue.contents PIPESIZE (2 ^ 32)).length = c) ∧
    ∀ p n, s.pc p = .read_leave n 0 → 0 < n →
      s.queue.nread = s.queue.nwrite ∧ s.writeopen = false := by
  have h : Inv s := inv_of_run (fun _ _ _ h hs => h.step hs) (inv_init data) hrun
  refine ⟨h.fifo, ⟨s.queue.count (2 ^ 32), h.valid.count, h.valid.nwrite_eq, ?_⟩,
    fun p n hp hn => ?_⟩
  · simp [Queue.contents]
  · have := h.place p
    rw [hp] at this
    exact this hn rfl

/-- Process 0 writes the bytes 7 and 8, and process 1 takes one byte. -/
def sevenEight : List Act :=
  [.write 0 2, .go 0 0, .go 0 7, .go 0 8, .go 0 0, .go 0 0, .go 0 0, .read 1 1, .go 1 0,
  .go 1 0, .go 1 0]

theorem the_eight_is_left :
    ∃ s, run step (init fun _ => 0) sevenEight = some s ∧ s.stored = [7, 8] ∧
      s.queue.contents PIPESIZE (2 ^ 32) = [8] := by
  obtain ⟨s, hs, h1, h2⟩ : ∃ s, run step (init fun _ => 0) sevenEight = some s ∧ s.stored = [7, 8] ∧
      s.taken = [7] := by decide +kernel
  have hlaw := (a_pipe_is_a_stream (fun _ => 0) sevenEight s hs).1
  rw [h1, h2, List.singleton_append, List.cons.injEq] at hlaw
  exact ⟨s, hs, h1, hlaw.2.symm⟩

/-! ## Sleepers -/

/-- The places from which a process will wake the readers before it releases `p->lock`, unless it
returns early. -/
def Pc.wakesReaders : Pc → Prop
  | .write _ _ new => new = true
  | .write_wakeup .. | .write_last _ => True
  | _ => False

/-- The places from which a process will wake the writers before it releases `p->lock`. -/
def Pc.wakesWriters : Pc → Prop
  | .read _ i => i ≠ 0
  | .read_wakeup .. => True
  | _ => False

theorem Pc.wakesReaders.holds {x : Pc} (h : x.wakesReaders) : x.holds := by
  cases x with
  | write | write_wakeup | write_last => trivial
  | _ => exact h.elim

theorem Pc.wakesWriters.holds {x : Pc} (h : x.wakesWriters) : x.holds := by
  cases x with
  | read | read_wakeup => trivial
  | _ => exact h.elim

/-- Who sleeps although there is no reason to will be woken. -/
structure Served (s : Sys) : Prop extends Inv s where
  readers : ∀ q, s.asleep q = some .nread →
    s.empty ∧ s.writeopen = true ∨ ∃ w, (s.pc w).wakesReaders
  writers : ∀ q, s.asleep q = some .nwrite →
    s.full ∧ s.readopen = true ∨ ∃ r, (s.pc r).wakesWriters

/-- No reader is asleep when a `pipewrite` returns early with bytes stored that it has not told the
readers about. -/
def Tells (s : Sys) : Act → Prop
  | .go p _ => ∀ n i, s.pc p = .write n i true → (i : Int) < n → s.full →
      s.readopen = false ∨ s.killed p = true → ∀ q, s.asleep q ≠ some .nread
  | _ => True

theorem served_init (data : Nat → UInt8) : Served (init data) := by
  refine ⟨inv_init data, fun q hq => ?_, fun q hq => ?_⟩
  · cases hq
  · cases hq

section Serve

variable {s s' : Sys} {p : Nat} {x : Pc}

/-- Process `p` goes to `x`. The pipe is as before, and nobody falls asleep. -/
theorem Served.move (h : Served s) (hinv : Inv s') (hpc : s'.pc = update s.pc p x)
    (hqueue : s'.queue = s.queue) (hro : s'.readopen = s.readopen)
    (hwo : s'.writeopen = s.writeopen) (hasleep : ∀ q c, s'.asleep q = some c → s.asleep q = some c)
    (hreaders : (s.pc p).wakesReaders → x.wakesReaders ∨ ∀ q, s'.asleep q ≠ some .nread)
    (hwriters : (s.pc p).wakesWriters → x.wakesWriters ∨ ∀ q, s'.asleep q ≠ some .nwrite) :
    Served s' := by
  have hempty : s'.empty ↔ s.empty := by
    unfold Sys.empty
    rw [hqueue]
  have hfull : s'.full ↔ s.full := by
    unfold Sys.full
    rw [hqueue]
  refine ⟨hinv, fun q hq => ?_, fun q hq => ?_⟩
  · rw [hempty, hwo, hpc]
    refine (h.readers q (hasleep q _ hq)).imp_right fun hw => exists_move hw fun hpw => ?_
    exact (hreaders hpw).resolve_right fun hnone => hnone q hq
  · rw [hfull, hro, hpc]
    refine (h.writers q (hasleep q _ hq)).imp_right fun hr => exists_move hr fun hpr => ?_
    exact (hwriters hpr).resolve_right fun hnone => hnone q hq

/-- ... and wakes nobody that it was to wake. -/
theorem Served.goto (h : Served s) (hinv : Inv (s.goto p x))
    (hreaders : (s.pc p).wakesReaders → x.wakesReaders ∨ ∀ q, s.asleep q ≠ some .nread)
    (hwriters : (s.pc p).wakesWriters → x.wakesWriters) : Served (s.goto p x) :=
  h.move hinv rfl rfl rfl rfl (fun _ _ hq => hq) hreaders fun hp => Or.inl (hwriters hp)

theorem wakeup_asleep {c c' : Chan} {q : Nat} (h : (s.wakeup c).asleep q = some c') :
    s.asleep q = some c' ∧ c' ≠ c := by
  have h : (if s.asleep q = some c then none else s.asleep q) = some c' := h
  obtain ⟨hne, hq⟩ := ite_none_left_eq_some.mp h
  refine ⟨hq, ?_⟩
  rintro rfl
  exact hne hq

/-- `wakeup`: nobody sleeps on the channel any more. -/
theorem Served.wakeup (h : Served s) {c : Chan} (hinv : Inv ((s.wakeup c).goto p x))
    (hreaders : (s.pc p).wakesReaders → c = .nread) (hwriters : (s.pc p).wakesWriters →
      c = .nwrite) :
    Served ((s.wakeup c).goto p x) := by
  refine h.move hinv rfl rfl rfl rfl (fun _ _ hq => (wakeup_asleep hq).1)
    (fun hp => Or.inr fun q hq => ?_) fun hp => Or.inr fun q hq => ?_
  · exact (wakeup_asleep hq).2 (hreaders hp).symm
  · exact (wakeup_asleep hq).2 (hwriters hp).symm

/-- `sleep`, with a reason to. -/
theorem Served.sleep (h : Served s) {c : Chan} (hinv : Inv ((s.sleep p c).goto p x))
    (hr : c = .nread → s.empty ∧ s.writeopen = true) (hw : c = .nwrite → s.full ∧ s.readopen = true)
    (hreaders : ¬ (s.pc p).wakesReaders) (hwriters : ¬ (s.pc p).wakesWriters) :
    Served ((s.sleep p c).goto p x) := by
  refine ⟨hinv, fun q hq => ?_, fun q hq => ?_⟩
  · have hq : update s.asleep p (some c) q = some .nread := hq
    by_cases hqp : q = p
    · rw [hqp, update_self] at hq
      exact Or.inl (hr (some.inj hq))
    · rw [update_of_ne hqp] at hq
      exact (h.readers q hq).imp_right fun hw => exists_move hw fun hp => absurd hp hreaders
  · have hq : update s.asleep p (some c) q = some .nwrite := hq
    by_cases hqp : q = p
    · rw [hqp, update_self] at hq
      exact Or.inl (hw (some.inj hq))
    · rw [update_of_ne hqp] at hq
      exact (h.writers q hq).imp_right fun hr => exists_move hr fun hp => absurd hp hwriters

theorem Served.store (h : Served s) {n : Int} {i : Nat} {new : Bool} (hp : s.pc p = .write n i new)
    (hf : ¬ s.full) {b : UInt8} (hinv : Inv ((s.store b).goto p (.write n (i + 1) true))) :
    Served ((s.store b).goto p (.write n (i + 1) true)) := by
  refine ⟨hinv, fun q hq => Or.inr ⟨p, ?_⟩, fun q hq => Or.inr ?_⟩
  · change (update s.pc p _ p).wakesReaders
    rw [update_self]
    rfl
  · refine exists_move ((h.writers q hq).resolve_left fun hw => hf hw.1) fun hw => ?_
    change (s.pc p).wakesWriters at hw
    rw [hp] at hw
    exact hw.elim

theorem Served.take (h : Served s) {n : Int} {i : Nat} (hp : s.pc p = .read n i) (he : ¬ s.empty)
    (hinv : Inv (s.take.goto p (.read n (i + 1)))) : Served (s.take.goto p (.read n (i + 1))) := by
  refine ⟨hinv, fun q hq => Or.inr ?_, fun q hq => Or.inr ⟨p, ?_⟩⟩
  · refine exists_move ((h.readers q hq).resolve_left fun hr => he hr.1) fun hr => ?_
    change (s.pc p).wakesReaders at hr
    rw [hp] at hr
    exact hr.elim
  · change (update s.pc p _ p).wakesWriters
    rw [update_self]
    exact Nat.succ_ne_zero i

/-- `release(&p->lock)`, `acquire(&p->lock)` and the steps between them, by a process that has
nobody to wake. -/
theorem Served.owesNobody (h : Served s) (hinv : Inv s') (hpc : s'.pc = update s.pc p x)
    (hqueue : s'.queue = s.queue) (hro : s'.readopen = s.readopen)
    (hwo : s'.writeopen = s.writeopen) (hasleep : s'.asleep = s.asleep)
    (hreaders : ¬ (s.pc p).wakesReaders) (hwriters : ¬ (s.pc p).wakesWriters) : Served s' :=
  h.move hinv hpc hqueue hro hwo (fun _ _ hq => hasleep ▸ hq) (fun hp => absurd hp hreaders)
    fun hp => absurd hp hwriters

theorem Served.go (h : Served s) {b : UInt8} (ht : Tells s (.go p b)) (hs : go s p b = some s') :
    Served s' := by
  have hinv := h.toInv.go hs
  have hplace := h.place p
  unfold pipe.go at hs
  split at hs
  case h_1 => cases hs
  case h_2 n i hp | h_6 n i hp | h_9 n hp | h_12 n hp =>
    obtain ⟨_, hs⟩ := ite_none_right_eq_some.mp hs
    cases hs
    exact h.owesNobody hinv rfl rfl rfl rfl rfl (by rw [hp]; exact id) (by rw [hp]; exact id)
  case h_3 n i new hp =>
    have hwriters : ¬ (s.pc p).wakesWriters := by
      rw [hp]
      exact id
    split at hs
    · rename_i hmore
      split at hs
      · rename_i hfull
        split at hs
        · rename_i hstop
          cases hs
          refine h.goto hinv (fun hr => Or.inr ?_) fun hw => absurd hw hwriters
          rw [hp] at hr
          exact ht n i (hr ▸ hp) hmore hfull hstop
        · cases hs
          exact h.goto hinv (fun _ => Or.inl trivial) fun hw => absurd hw hwriters
      · grind [h.store]
    · cases hs
      exact h.goto hinv (fun _ => Or.inl trivial) fun hw => absurd hw hwriters
  case h_4 n i hp | h_7 n hp =>
    cases hs
    exact h.wakeup hinv (fun _ => rfl) fun hw => by rw [hp] at hw; exact hw.elim
  case h_5 n i hp =>
    cases hs
    rw [hp] at hplace
    exact h.sleep hinv (fun hc => by cases hc) (fun _ => hplace) (by rw [hp]; exact id)
      (by rw [hp]; exact id)
  case h_8 r hp | h_15 n r hp =>
    cases hs
    exact h.owesNobody hinv rfl rfl rfl rfl rfl (by rw [hp]; exact id) (by rw [hp]; exact id)
  case h_10 n hp =>
    have hno : ¬ (s.pc p).wakesReaders ∧ ¬ (s.pc p).wakesWriters := by
      rw [hp]
      exact ⟨id, id⟩
    split at hs
    · split at hs
      · cases hs
        exact h.owesNobody hinv rfl rfl rfl rfl rfl hno.1 hno.2
      · cases hs
        exact h.owesNobody hinv rfl rfl rfl rfl rfl hno.1 hno.2
    · cases hs
      exact h.owesNobody hinv rfl rfl rfl rfl rfl hno.1 hno.2
  case h_11 n hp =>
    cases hs
    rw [hp] at hplace
    exact h.sleep hinv (fun _ => hplace) (fun hc => by cases hc) (by rw [hp]; exact id)
      (by rw [hp]; exact id)
  case h_13 n i hp =>
    split at hs
    · grind [h.take]
    · cases hs
      refine h.goto hinv (fun hr => ?_) fun _ => trivial
      rw [hp] at hr
      exact hr.elim
  case h_14 n i hp =>
    cases hs
    exact h.wakeup hinv (fun hr => by rw [hp] at hr; exact hr.elim) fun _ => rfl

/-- `pipeclose` wakes those who wait for the end that it closes. -/
theorem Served.close (h : Served s) (hfree : s.lock = none) (writable : Bool) :
    Served (s.close writable) := by
  have hinv := h.toInv.close hfree writable
  unfold Sys.close at hinv ⊢
  split
  · refine ⟨by simpa [*] using hinv, fun q hq => ?_, fun q hq => h.writers q (wakeup_asleep hq).1⟩
    exact absurd rfl (wakeup_asleep hq).2
  · refine ⟨by simpa [*] using hinv, fun q hq => h.readers q (wakeup_asleep hq).1, fun q hq => ?_⟩
    exact absurd rfl (wakeup_asleep hq).2

theorem Served.step {a : Act} (h : Served s) (ht : Tells s a) (hs : step s a = some s') :
    Served s' := by
  have hinv := h.toInv.step hs
  unfold pipe.step at hs
  split at hs
  · cases hs
  cases a with
  | write p n | read p n =>
    obtain ⟨hp, hs⟩ := ite_none_right_eq_some.mp hs
    cases hs
    exact h.owesNobody hinv rfl rfl rfl rfl rfl (by rw [hp]; exact id) (by rw [hp]; exact id)
  | go p b => exact h.go ht hs
  | close writable =>
    grind [h.close]
  | kill q =>
    cases hs
    have hasleep : ∀ r c, update s.asleep q none r = some c → s.asleep r = some c := by grind
    exact ⟨hinv, fun r hr => h.readers r (hasleep r _ hr), fun r hr => h.writers r (hasleep r _ hr)⟩

end Serve

/-- As long as no `pipewrite` returns early over a sleeping reader, nobody is asleep for nothing
while `p->lock` is free. -/
theorem nobody_sleeps_for_nothing (data : Nat → UInt8) (as : List Act) (s : Sys)
    (htells : Along step Tells (init data) as) (hrun : run step (init data) as = some s)
    (hfree : s.lock = none) (q : Nat) :
    (s.asleep q = some .nread → s.queue.nread = s.queue.nwrite ∧ s.writeopen = true) ∧
    (s.asleep q = some .nwrite →
      s.queue.nwrite = (s.queue.nread + PIPESIZE) % 2 ^ 32 ∧ s.readopen = true) := by
  have h : Served s := inv_of_along (fun _ _ _ h ht hs => h.step ht hs)
    (served_init data) htells hrun
  have hnone : ∀ p, ¬ (s.pc p).holds := h.lock.none_iff.mp hfree
  constructor
  · intro hq
    exact (h.readers q hq).resolve_right fun ⟨w, hw⟩ => hnone w hw.holds
  · intro hq
    exact (h.writers q hq).resolve_right fun ⟨r, hr⟩ => hnone r hr.holds

/-- Process 1 falls asleep in `piperead`. -/
def sleeper : List Act := [.read 1 1, .go 1 0, .go 1 0, .go 1 0]

/-- Process 1 sleeps, gets a byte from process 0, and sleeps again. -/
def sleepsTwice : List Act :=
  sleeper ++ .write 0 1 :: List.replicate 5 (.go 0 7) ++ List.replicate 7 (.go 1 0) ++ sleeper

theorem the_sleeper_has_nothing_to_read : ∃ s, run step (init fun _ => 0) sleepsTwice = some s ∧
    s.stored = [7] ∧ s.asleep 1 = some .nread ∧ s.queue.nread = s.queue.nwrite := by
  obtain ⟨s, hs, hstored, hfree, hasleep⟩ : ∃ s, run step (init fun _ => 0) sleepsTwice = some s ∧
      s.stored = [7] ∧ s.lock = none ∧ s.asleep 1 = some .nread := by decide +kernel
  have hroom : Along step (fun s _ => ¬ s.full) (init fun _ => 0) sleepsTwice := by decide +kernel
  have htells : Along step Tells (init fun _ => 0) sleepsTwice := by
    refine hroom.mono fun s a hf => ?_
    cases a with
    | go p b => exact fun _ _ _ _ hfull => absurd hfull hf
    | _ => trivial
  exact ⟨s, hs, hstored, hasleep, ((nobody_sleeps_for_nothing _ _ s htells hs hfree 1).1 hasleep).1⟩

/-- Process 0 fills the pipe while process 1 sleeps in `piperead`, and is killed before it has
stored its last byte. -/
def killedWriter : List Act :=
  sleeper ++ .write 0 513 :: List.replicate 513 (.go 0 7) ++ [.kill 0, .go 0 0, .go 0 0]

/-- The killed writer returns without a `wakeup`: the reader sleeps on in front of a full pipe. -/
theorem a_reader_sleeps_before_a_full_pipe : ∃ s, run step (init fun _ => 0) killedWriter = some s ∧
    s.lock = none ∧ s.asleep 1 = some .nread ∧ s.queue.nread ≠ s.queue.nwrite ∧ s.full := by
  decide +kernel

end xv6.pipe
