-- The mutex of threadlib.c. Threads that share memory each lock the mutex, add 1 to a variable by a
-- read and a write, and unlock it, any number of times. A step is one atomic access to memory, and
-- the steps of the threads mix in every order.
import Xv6.Places
import Xv6.Runs

open places runs

namespace xv6.mutex

/-! ## The machine -/

/-- The memory that the threads share. -/
structure Mem where
  /-- `m->flag`, 0 when the lock is available -/
  flag : UInt32
  x : UInt32

def xchg (m : Mem) (newval : UInt32) : UInt32 × Mem := (m.flag, { m with flag := newval })

def mutex_init (m : Mem) : Mem := { m with flag := 0 }

def mutex_unlock (m : Mem) : Mem := { m with flag := 0 }

/-- Where a thread is, with the turns that are left after the one it is in. -/
inductive Place where
  /-- in the loop of `mutex_lock`, before `xchg` -/
  | lock (left : Nat)
  /-- before it reads `x` -/
  | load (left : Nat)
  /-- before it writes one more than what it has read -/
  | store (left : Nat) (read : UInt32)
  /-- before the write of `mutex_unlock` -/
  | unlock (left : Nat)
  | done
  deriving DecidableEq

/-- The place of a thread with so many turns to go. -/
def Place.enter : Nat → Place
  | 0 => .done
  | left + 1 => .lock left

/-- Between a successful `mutex_lock` and its `mutex_unlock`. -/
def Place.Inside : Place → Prop
  | .load _ | .store .. | .unlock _ => True
  | .lock _ | .done => False

structure State where
  mem : Mem
  pc : Nat → Place

/-- The next access of thread `p`. -/
def step (s : State) (p : Nat) : Option State :=
  match s.pc p with
  | .lock left =>
    let (old, mem) := xchg s.mem 1
    some { mem := mem, pc := Function.update s.pc p (if old = 1 then .lock left else .load left) }
  | .load left => some { s with pc := Function.update s.pc p (.store left s.mem.x) }
  | .store left read =>
    some { mem := { s.mem with x := read + 1 }, pc := Function.update s.pc p (.unlock left) }
  | .unlock left => some { mem := mutex_unlock s.mem, pc := Function.update s.pc p (.enter left) }
  | .done => none

/-- Threads 0 to n - 1, of which thread `p` is to make `turns p` turns. -/
def start (n : Nat) (turns : Nat → Nat) (mem : Mem) : State :=
  { mem := mutex_init mem, pc := fun p => if p < n then .enter (turns p) else .done }

/-! ## The invariant -/

/-- The writes of `x` that a thread has before it. -/
def Place.toGo : Place → Nat
  | .lock left | .load left | .store left _ => left + 1
  | .unlock left => left
  | .done => 0

/-- The flag is 1 while a thread is inside, what a thread has read is still there, and `x` lacks the
writes to go, of `sum` in all. -/
structure Inv (x : UInt32) (sum : Nat) (s : State) : Prop where
  flag : ∃ holder, Owns Place.Inside holder s.pc ∧ s.mem.flag = if holder.isSome then 1 else 0
  fresh : ∀ p left read, s.pc p = .store left read → read = s.mem.x
  count : ∃ rest, Total Place.toGo s.pc rest ∧ s.mem.x + UInt32.ofNat rest = x + UInt32.ofNat sum

section

variable {x : UInt32} {sum p n : Nat} {s s' : State}

theorem not_inside_enter (n : Nat) : ¬ (Place.enter n).Inside := by
  cases n <;> exact id

theorem toGo_enter (n : Nat) : (Place.enter n).toGo = n := by
  cases n <;> rfl

/-- A thread that moves to a place where it has read nothing. -/
theorem fresh_update {mem : Mem} {pc : Nat → Place} {y : Place}
    (hy : ∀ left read, y ≠ .store left read) (hpc : ∀ q, q ≠ p →
      ∀ left read, pc q = .store left read → read = mem.x) (q left : Nat) (read : UInt32)
    (h : Function.update pc p y q = .store left read) : read = mem.x := by
  by_cases hq : q = p
  · grind
  · grind

/-- While `p` is inside, no other thread has read anything. -/
theorem alone_inside {holder : Option Nat} (h : Owns Place.Inside holder s.pc)
    (hp : (s.pc p).Inside) {q left : Nat} {read : UInt32} (hq : q ≠ p) :
    s.pc q ≠ .store left read := by
  intro hstore
  refine hq (h.unique ?_ hp)
  rw [hstore]
  trivial

theorem lock_inv {left : Nat} (h : Inv x sum s) (hpc : s.pc p = .lock left) :
    Inv x sum { mem := { s.mem with flag := 1 }
                pc := Function.update s.pc p (if s.mem.flag = 1 then .lock left
                else .load left) } := by
  obtain ⟨⟨holder, howns, hflag⟩, hfresh, rest, htotal, hcount⟩ := h
  have hout : ¬ (s.pc p).Inside := by rw [hpc]; exact id
  split
  · rename_i hheld
    -- the flag was 1 and stays so
    refine ⟨⟨holder, howns.move (iff_of_false id hout), hheld.symm.trans hflag⟩, ?_,
      rest, ?_, hcount⟩
    · grind
    · exact htotal.move (by rw [hpc])
  · rename_i hheld
    cases holder with
    | some q => exact absurd hflag hheld
    | none =>
      refine ⟨⟨some p, howns.acquire trivial, rfl⟩, ?_, rest, ?_, hcount⟩
      · grind
      · exact htotal.move (by rw [hpc]; rfl)

theorem load_inv {left : Nat} (h : Inv x sum s) (hpc : s.pc p = .load left) :
    Inv x sum { s with pc := Function.update s.pc p (.store left s.mem.x) } := by
  obtain ⟨⟨holder, howns, hflag⟩, hfresh, rest, htotal, hcount⟩ := h
  have hin : (s.pc p).Inside := by rw [hpc]; trivial
  refine ⟨⟨holder, howns.move (iff_of_true trivial hin), hflag⟩, fun q left' read h => ?_,
    rest, ?_, hcount⟩
  · grind
  · exact htotal.move (by rw [hpc]; rfl)

theorem store_inv {left : Nat} {read : UInt32} (h : Inv x sum s) (hpc : s.pc p = .store left read) :
    Inv x sum
      { mem := { s.mem with x := read + 1 }, pc := Function.update s.pc p (.unlock left) } := by
  obtain ⟨⟨holder, howns, hflag⟩, hfresh, rest, htotal, hcount⟩ := h
  have hin : (s.pc p).Inside := by rw [hpc]; trivial
  obtain rfl := hfresh p left read hpc
  obtain ⟨rest, rfl⟩ : ∃ r, rest = r + 1 := by
    have hle := htotal.le p
    rw [hpc] at hle
    exact Nat.exists_eq_succ_of_ne_zero (Nat.ne_of_gt (Nat.lt_of_lt_of_le (Nat.succ_pos left) hle))
  refine ⟨⟨holder, howns.move (iff_of_true trivial hin), hflag⟩, ?_, rest, ?_, ?_⟩
  · exact fresh_update (fun _ _ h => by cases h)
      fun q hq left read h => absurd h (alone_inside howns hin hq)
  · refine htotal.move ?_
    rw [hpc]
    simp only [Place.toGo]
    omega
  · rw [← hcount, UInt32.ofNat_add, UInt32.add_assoc, UInt32.add_comm 1]
    rfl

theorem unlock_inv {left : Nat} (h : Inv x sum s) (hpc : s.pc p = .unlock left) :
    Inv x sum { mem := mutex_unlock s.mem, pc := Function.update s.pc p (.enter left) } := by
  obtain ⟨⟨holder, howns, hflag⟩, hfresh, rest, htotal, hcount⟩ := h
  have hin : (s.pc p).Inside := by rw [hpc]; trivial
  refine ⟨⟨none, howns.release hin (not_inside_enter left), rfl⟩, ?_, rest, ?_, hcount⟩
  · refine fresh_update (fun l r h => ?_) fun q _ => hfresh q
    cases left <;> cases h
  · refine htotal.move ?_
    rw [hpc, toGo_enter]
    rfl

theorem step_inv (h : Inv x sum s) (hs : step s p = some s') : Inv x sum s' := by
  unfold step at hs
  split at hs
  · rename_i hpc
    exact Option.some.inj hs ▸ lock_inv h hpc
  · rename_i hpc
    exact Option.some.inj hs ▸ load_inv h hpc
  · rename_i hpc
    exact Option.some.inj hs ▸ store_inv h hpc
  · rename_i hpc
    exact Option.some.inj hs ▸ unlock_inv h hpc
  · cases hs

theorem start_inv (n : Nat) (turns : Nat → Nat) (mem : Mem) :
    Inv mem.x (∑ p ∈ Finset.range n, turns p) (start n turns mem) := by
  have hpc : ∀ p, (start n turns mem).pc p = if p < n then .enter (turns p) else .done :=
    fun _ => rfl
  refine ⟨⟨none, fun p => ?_, rfl⟩, fun p left read h => ?_, _,
    ⟨Finset.range n, fun p hp => ?_, rfl⟩, ?_⟩
  · refine iff_of_false (fun h => by cases h) ?_
    rw [hpc]
    split
    · exact not_inside_enter _
    · exact id
  · rw [hpc] at h
    split at h
    · cases hk : turns p with
      | zero => rw [hk] at h; cases h
      | succ k => rw [hk] at h; cases h
    · cases h
  · rw [hpc, if_neg fun h => hp (Finset.mem_range.mpr h)]
    rfl
  · have hsum : ∑ p ∈ Finset.range n, ((start n turns mem).pc p).toGo = ∑ p ∈ Finset.range n,
        turns p := by
      grind [Finset.sum_congr, toGo_enter]
    rw [hsum]
    rfl

/-- At most one thread is inside at any time, and no increment is lost. -/
theorem mutex_excludes_and_counts {turns : Nat → Nat} {mem : Mem} {moves : List Nat}
    (hrun : run step (start n turns mem) moves = some s) :
    (∀ p q, (s.pc p).Inside → (s.pc q).Inside → p = q) ∧
      ((∀ p, s.pc p = .done) → s.mem.x = mem.x + UInt32.ofNat (∑ p ∈ Finset.range n, turns p)) := by
  have hinv := inv_of_run (I := Inv mem.x _) (fun _ _ _ => step_inv) (start_inv n turns mem) hrun
  obtain ⟨⟨holder, howns, -⟩, -, rest, htotal, hcount⟩ := hinv
  refine ⟨fun p q => howns.unique, fun hdone => ?_⟩
  have hzero : places.Total Place.toGo s.pc 0 := Total.zero fun p => by rw [hdone p]; rfl
  rw [htotal.unique hzero] at hcount
  rw [← hcount]
  exact (UInt32.add_zero _).symm

end

/-- Two threads of one turn each. -/
def twoThreads : State := start 2 (fun _ => 1) { flag := 1, x := 4294967295 }

/-- The second thread spins while the first is inside. -/
theorem two_threads_count : ∃ s, run step twoThreads [0, 1, 0, 0, 1, 0, 1, 1, 1, 1] = some s ∧
    (∀ p, s.pc p = .done) ∧ s.mem.x = 1 := by
  have hdone : ∀ s, run step twoThreads [0, 1, 0, 0, 1, 0, 1, 1, 1, 1] = some s →
      ∀ p, s.pc p = .done := by
    intro s hs p
    cases hs
    match p with
    | 0 => rfl
    | 1 => rfl
    | p + 2 => rfl
  obtain ⟨s, hs⟩ : ∃ s, run step twoThreads [0, 1, 0, 0, 1, 0, 1, 1, 1, 1] = some s := ⟨_, rfl⟩
  exact ⟨s, hs, hdone s hs, (mutex_excludes_and_counts hs).2 (hdone s hs)⟩

end xv6.mutex
