-- The law of join in proc.c: what it stores for the caller, and where. It takes the stack of
-- the thread from the thread's saved %ebp and stores it at the caller's saved %esp + 28, so it
-- hands the right stack to the right place only for one layout of both frames.
import Xv6.ProcDirs

open runs bytes WP

namespace xv6.proc

/-- The address that `join` stores to. -/
def stackAddr (s : Sys) (c : Nat) : Nat := uint ((s.procs c).tf.esp + 7 * 4)

/-- The ZOMBIE thread of `c` that a scan of `join` finds. -/
def Sys.deadThread (s : Sys) (c : Nat) : Option Nat :=
  s.first fun p => p.parent = some c ∧ p.pgdir = (s.procs c).pgdir ∧ p.state = .ZOMBIE

/-- The call reaps thread `i`, the word at its argument is then `stk`, the argument is an address
of the caller, and nothing else is stored. -/
structure HandsBack (s s' : Sys) (c i stk : Nat) : Prop where
  reaped : s'.panicked = none ∧ (s'.procs i).state = .UNUSED
  word : le (s'.space c).mem (joinArg s c) 4 = stk
  inside : joinArg s c < (s.procs c).sz
  only : ∀ a ∈ s'.stored, joinArg s c ≤ a ∧ a < joinArg s c + 4

/-- The caller's frame has its pointer where `join` stores, in mapped memory below its `sz`, and
the thread has exited in the frame of its first function. -/
structure FramesFit (s : Sys) (c i stk : Nat) : Prop where
  caller : stackAddr s c = joinArg s c
  inside : joinArg s c < (s.procs c).sz
  mapped : (s.space c).mapped (joinArg s c) (joinArg s c + 3)
  thread : uint ((s.procs i).tf.ebp + 3 * 4) = uint (stk + PGSIZE)

/-- The state after `join` has reaped thread `i` and returned. -/
def joined (s : Sys) (c i : Nat) : Sys :=
  let a := stackAddr s c
  let ebp := (s.procs i).tf.ebp
  { (s.set i fun p => { p with
      kstack := 0, state := .UNUSED, pid := 0, parent := none, killed := false }).set c fun p =>
        { p with tf := { p.tf with eax := ofInt (s.procs i).pid }, inside := none } with
    spaces := Function.update s.spaces (s.procs c).pgdir { s.space c with
      mem := setLe (setLe (s.space c).mem a 4 ebp) a 4 (uint (ebp + 3 * 4 + 2 ^ 32 - PGSIZE)) }
    stored := (s.stored ++ (List.range 4).map (a + ·)) ++ (List.range 4).map (a + ·) }

theorem join_spec {s : Sys} {c i : Nat} (hf : s.deadThread c = some i) :
      spec (sleepingCall c (join c)) s
      (fun _ s' => (s.space c).mapped (stackAddr s c) (stackAddr s c + 3) ∧ s' = joined s c i)
      (fun _ s' => ¬ (s.space c).mapped (stackAddr s c) (stackAddr s c + 3) ∧ s' = s) := by
  unfold Sys.deadThread at hf
  simp only [sleepingCall, join, spec_bind, spec_get, hf, spec_store, reap,
    spec_modify, spec_pure]
  refine ⟨fun hm => ⟨fun _ => ⟨hm, ?_⟩, fun hm2 => ?_⟩, fun hm => ⟨hm, trivial⟩⟩
  · simp [joined, Sys.set, Sys.space, stackAddr]
  · -- the first store maps no page and unmaps none
    refine absurd ?_ hm2
    simp only [Sys.space, Function.update_self]
    exact hm

/-- The caller of `join` is not the thread that it finds. -/
theorem deadThread_ne {s : Sys} {c i : Nat} (hc : (s.procs c).state = .RUNNING)
    (hf : s.deadThread c = some i) : i ≠ c := by
  have hi := (first_eq_some hf).2
  simp only [decide_eq_true_eq] at hi
  rintro rfl
  rw [hc] at hi
  cases hi.2.2

/-- A step of `join` that finds a ZOMBIE thread either reaps it or traps. -/
theorem step_join {s s' : Sys} {c i : Nat} (hf : s.deadThread c = some i)
    (hs : step s (.join c) = some s') : (s.space c).mapped (stackAddr s c) (stackAddr s c + 3) ∧
        s' = joined { s with stored := [] } c i ∨
      ¬ (s.space c).mapped (stackAddr s c) (stackAddr s c + 3) ∧ s'.panicked ≠ none := by
  rcases step_spec hs (join_spec (s := { s with stored := [] }) hf) with h | ⟨msg, t, h, rfl⟩
  · exact Or.inl h
  · exact Or.inr ⟨h.1, by simp⟩

theorem uint_sub_eq_iff {ebp stk : Nat} (h : stk < 2 ^ 32) :
    uint (ebp + 3 * 4 + 2 ^ 32 - PGSIZE) = stk ↔ uint (ebp + 3 * 4) = uint (stk + PGSIZE) := by
  simp only [uint, PGSIZE]
  omega

/-- `join` hands the stack of a thread, as it was given to `clone`, back through its argument, and
stores nothing else, exactly when both frames fit. -/
theorem join_hands_back_iff_frames_fit {s s' : Sys} {c i : Nat} (hi : s.deadThread c = some i)
    (hs : step s (.join c) = some s') : ∀ stk ∈ (s.procs i).stack, stk < 2 ^ 32 →
      (HandsBack s s' c i stk ↔ FramesFit s c i stk) := by
  intro stk _ hstk
  obtain ⟨hp, hen⟩ := enabled_of_step hs
  have hne := deadThread_ne hen.2.1 hi
  rcases step_join hi hs with ⟨hm, rfl⟩ | ⟨hm, hpanic⟩
  · have hword : le ((joined { s with stored := [] } c i).space c).mem (stackAddr s c) 4 =
        uint ((s.procs i).tf.ebp + 3 * 4 + 2 ^ 32 - PGSIZE) := by
      have hpg : ((joined { s with stored := [] } c i).procs c).pgdir = (s.procs c).pgdir := by
        simp [joined, Sys.set, Ne.symm hne]
      rw [Sys.space, hpg]
      simp only [joined, Function.update_self]
      exact le_setLe_of_lt (Nat.mod_lt _ (by decide))
    constructor
    · intro h
      have ha : stackAddr s c = joinArg s c := by
        have h0 := h.only (stackAddr s c) (by simp [joined, stackAddr])
        have h3 := h.only (stackAddr s c + 3) (by simp [joined, stackAddr])
        omega
      refine ⟨ha, h.inside, ha ▸ hm, ?_⟩
      rw [← uint_sub_eq_iff hstk, ← hword, ha]
      exact h.word
    · intro h
      refine ⟨⟨hp, ?_⟩, ?_, h.inside, ?_⟩
      · simp [joined, Sys.set, hne]
      · rw [← h.caller, hword, uint_sub_eq_iff hstk]
        exact h.thread
      · intro a ha
        rw [← h.caller]
        simp only [joined, List.nil_append, List.mem_append, List.mem_map, List.mem_range] at ha
        rcases ha with ⟨k, hk, rfl⟩ | ⟨k, hk, rfl⟩ <;>
          exact ⟨Nat.le_add_right _ _, Nat.add_lt_add_left hk _⟩
  · constructor
    · intro h
      exact absurd h.reaped.1 hpanic
    · intro h
      exact absurd (h.caller ▸ h.mapped) hm

instance (s : Sys) (c i stk : Nat) : Decidable (FramesFit s c i stk) :=
  decidable_of_iff (stackAddr s c = joinArg s c ∧ joinArg s c < (s.procs c).sz ∧
      (s.space c).mapped (joinArg s c) (joinArg s c + 3) ∧
      uint ((s.procs i).tf.ebp + 3 * 4) = uint (stk + PGSIZE))
    ⟨fun h => ⟨h.1, h.2.1, h.2.2.1, h.2.2.2⟩, fun h => ⟨h.caller, h.inside, h.mapped, h.thread⟩⟩

/-- A caller's stack with its %esp at 16: the argument at 20 is the address 44 of its pointer. -/
def callerStack : Mem := fun a => if a = 20 then 44 else 0

/-- Process 1 makes a thread, process 2, on the stack at 0, and sleeps in `join`. The thread clears
the memory that they share, with the argument of that `join`, and exits with this %ebp. -/
def threadRuns (ebp : Nat) : List Act :=
  [.run 0, .fork 0 .enough, .run 1, .user 1 callFrame callerStack, .clone 1 true, .join 1, .run 2,
    .user 2 { esp := 3000, ebp := ebp } fun _ => 0, .exit 2, .run 1]

/-- The thread exits in its first function, whose saved %ebp is 12 below the end of the stack. -/
theorem a_stack_is_handed_back : ∃ s s', run step (userinit fun _ => 0) (threadRuns 4084) = some s ∧
      step s (.join 1) = some s' ∧ HandsBack s s' 1 2 0 := by
  have hrun : ∃ s, run step (userinit fun _ => 0) (threadRuns 4084) = some s :=
    Option.isSome_iff_exists.mp (by decide +kernel)
  obtain ⟨s, hs⟩ := hrun
  have hjoin : ∃ s', step s (.join 1) = some s' := by
    have h : ((run step (userinit fun _ => 0) (threadRuns 4084)).bind
      (step · (.join 1))).isSome = true := by decide +kernel
    rw [hs] at h
    exact Option.isSome_iff_exists.mp h
  obtain ⟨s', hs'⟩ := hjoin
  have hfacts : (run step (userinit fun _ => 0) (threadRuns 4084)).map (fun s =>
      (s.deadThread 1, (s.procs 2).stack, decide (FramesFit s 1 2 0))) =
      some (some 2, some 0, true) := by decide +kernel
  simp only [hs, Option.map_some, Option.some.injEq, Prod.mk.injEq, decide_eq_true_eq] at hfacts
  obtain ⟨hdead, hstack, hfit⟩ := hfacts
  exact ⟨s, s', hs, hs', (join_hands_back_iff_frames_fit hdead hs' 0 hstack (by decide)).mpr hfit⟩

/-- The thread exits in a function that its first function called. The word at 44 is then not 0,
the thread's stack. -/
theorem a_wrong_stack_is_handed_back : (run step (userinit fun _ => 0) (threadRuns 2988)).map
        (fun s => (s.deadThread 1, (s.procs 2).stack, joinArg s 1)) = some (some 2, some 0, 44) ∧
      (run step (userinit fun _ => 0) (threadRuns 2988 ++ [.join 1])).map
        (fun s => (s.panicked, (s.procs 2).state, le (s.space 1).mem 44 4)) =
        some (none, .UNUSED, 2 ^ 32 - 1096) := by
  constructor <;> decide +kernel

end xv6.proc
