-- Lists that are linked by one pointer in each node and end in a null pointer: what the pointers
-- say of the list of the nodes, how the last node is found and how a node is put behind it.
import Mathlib.Data.List.Basic
import Mathlib.Data.List.Nodup
import Mathlib.Logic.Function.Basic

open List

namespace chain

variable {α : Type*} {next next' : α → Option α} {h : Option α} {a b : α} {l : List α}

/-- From the pointer `h` on, the nodes are those of the list. -/
def Chain (next : α → Option α) : Option α → List α → Prop
  | h, [] => h = none
  | h, a :: l => h = some a ∧ Chain next (next a) l

/-- Follow the pointers to the last node, in at most `fuel` turns. -/
def last (next : α → Option α) : Nat → α → Option α
  | 0, _ => none
  | fuel + 1, a =>
    match next a with
    | none => some a
    | some b => last next fuel b

theorem Chain.congr (hc : Chain next h l) (hn : ∀ a ∈ l, next' a = next a) : Chain next' h l := by
  induction l generalizing h with
  | nil => exact hc
  | cons a l ih =>
    refine ⟨hc.1, ?_⟩
    rw [hn a mem_cons_self]
    exact ih hc.2 fun b hb => hn b (mem_cons_of_mem a hb)

/-- The pointers tell the list. -/
theorem Chain.head_eq (hc : Chain next h l) : h = l.head? := by
  cases l with
  | nil => exact hc
  | cons a l => exact hc.1

theorem Chain.last_eq {fuel : Nat} (hc : Chain next (some a) (l ++ [b])) (hf : l.length < fuel) :
    last next fuel a = some b := by
  induction l generalizing a fuel with
  | nil =>
    obtain ⟨rfl, hend⟩ : a = b ∧ next b = none := ⟨Option.some.inj hc.1, hc.2⟩
    obtain ⟨fuel, rfl⟩ := Nat.exists_eq_succ_of_ne_zero (Nat.ne_of_gt hf)
    rw [last, hend]
  | cons c l ih =>
    obtain rfl := Option.some.inj hc.1
    obtain ⟨fuel, rfl⟩ := Nat.exists_eq_succ_of_ne_zero (Nat.ne_of_gt (Nat.zero_lt_of_lt hf))
    have hrest := hc.2
    obtain ⟨d, hd⟩ : ∃ d, next a = some d := by
      rw [append_eq] at hrest
      rw [hrest.head_eq]
      cases l with
      | nil => exact ⟨b, rfl⟩
      | cons c l => exact ⟨c, rfl⟩
    rw [last, hd]
    rw [hd] at hrest
    exact ih hrest (Nat.lt_of_succ_lt_succ hf)

section

variable [DecidableEq α]

/-- A node that is set behind the last one. -/
theorem Chain.snoc (hc : Chain next h (l ++ [b])) (hnd : (l ++ [b]).Nodup) (ha : a ∉ l ++ [b]) :
    Chain (Function.update (Function.update next a none) b (some a)) h (l ++ [b] ++ [a]) := by
  have hab : a ≠ b := fun e => ha (e ▸ mem_append_right l mem_cons_self)
  induction l generalizing h with
  | nil =>
    refine ⟨hc.1, ?_⟩
    rw [Function.update_self]
    refine ⟨rfl, ?_⟩
    rw [Function.update_of_ne hab, Function.update_self]
    rfl
  | cons c l ih =>
    have hcb : c ≠ b := by grind
    have hca : c ≠ a := by grind
    refine ⟨hc.1, ?_⟩
    rw [Function.update_of_ne hcb, Function.update_of_ne hca]
    exact ih hc.2 (nodup_cons.mp hnd).2 fun hm => ha (mem_cons_of_mem c hm)

end

end chain
