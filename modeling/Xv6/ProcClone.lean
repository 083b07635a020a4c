-- The law of sys_clone in sysproc.c and clone in proc.c: which stacks they take, what they write
-- to the memory of the caller, and the registers that the thread starts with. argptr checks four
-- bytes of the stack, and clone uses a page of it.
import Xv6.Grow

open runs bytes WP

namespace xv6.proc

/-- The thread in slot `np` that `c` has made on a page of its own memory. -/
structure Cloned (s s' : Sys) (c fn arg stack np : Nat) : Prop where
  inside : stack + PGSIZE ≤ (s.procs c).sz
  slot : np < NPROC ∧ (s.procs np).state = .UNUSED ∧ (s'.procs np).state = .RUNNABLE
  others : ∀ i, i ≠ np → s'.procs i = s.procs i
  memory : (s'.procs np).pgdir = (s.procs c).pgdir ∧ (s'.procs np).sz = (s.procs c).sz
  registers : (s'.procs np).tf = { (s.procs c).tf with
    eip := fn, esp := stack + PGSIZE - 8, ebp := stack + PGSIZE - 8, eax := 0 }
  words : le (s'.space c).mem (stack + PGSIZE - 8) 4 = 0xFFFFFFF ∧
    le (s'.space c).mem (stack + PGSIZE - 4) 4 = arg
  bytes : ∀ d a, (s'.spaces d).mem a ≠ (s.spaces d).mem a →
    d = (s.procs c).pgdir ∧ stack + PGSIZE - 8 ≤ a ∧ a < stack + PGSIZE

/-- What a call of `sys_clone` by `c` that returns `r` may do: a call that fails changes nothing,
and any other one makes a thread from the three arguments. -/
structure Takes (s : Sys) (c : Nat) (r : Int) (s' : Sys) : Prop where
  fails : r = -1 → s'.procs = s.procs ∧ s'.spaces = s.spaces
  succeeds : r ≠ -1 → ∃ fn arg stack np, argint s c 0 = some fn ∧ argint s c 1 = some arg ∧
    argint s c 2 = some stack ∧ r = (s'.procs np).pid ∧ Cloned s s' c fn arg stack np

/-- Process `c` has all its memory, from 0 to `sz`. -/
structure OwnsMemory (s : Sys) (c : Nat) : Prop where
  used : (s.procs c).state ≠ .UNUSED
  user : (s.procs c).sz ≤ KERNBASE
  pages : ∀ pg, pg * PGSIZE < (s.procs c).sz → (s.space c).present pg = true

section
variable {s : Sys} {c fn arg stack : Nat} {kstack : Bool}

theorem OwnsMemory.mapped (h : OwnsMemory s c) {a b : Nat} (hb : b < (s.procs c).sz) :
    (s.space c).mapped a b := by
  intro i hi
  refine Or.inr (h.pages _ ?_)
  have h1 : a / PGSIZE + i ≤ b / PGSIZE := by omega
  calc (a / PGSIZE + i) * PGSIZE ≤ b / PGSIZE * PGSIZE := Nat.mul_le_mul_right _ h1
    _ ≤ b := Nat.div_mul_le_self _ _
    _ < _ := hb

end

end xv6.proc
