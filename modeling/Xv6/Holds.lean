-- What a process holds in the middle of a system call: references to entries of the inode
-- cache, locks of them and transactions. Each function of fs.c, sysfile.c and exec.c gives
-- back what it took.
import Mathlib.Algebra.BigOperators.Group.Finset.Basic
import Mathlib.Algebra.Order.BigOperators.Group.Finset
import Mathlib.Data.Multiset.AddSub
import Xv6.Ops

open Multiset prog WP

namespace xv6.ops

open dir sysfile image
open sysread (OpenFile)
open dir.Inodes hiding panic

/-! ## Holding -/

structure Hold where
  refs : Multiset Nat
  locks : Multiset Nat
  /-- `begin_op` calls without an `end_op` -/
  begun : Nat

def pre : Op → Hold → Prop
  | .idup k, g | .stat k, g | .ilock k, g => k ∈ g.refs
  | .iunlock k, g | .readi k _ _, g | .writei k _ _ _, g | .update k _, g | .iputFree k,
      g => k ∈ g.locks
  -- a locked entry keeps a reference
  | .iputTest k, g => k ∈ g.refs ∧ (k ∈ g.locks → k ∈ g.refs.erase k)
  | .iputDone k, g => k ∈ g.locks ∧ k ∈ g.refs ∧ k ∉ g.refs.erase k
  | .end_op, g => 0 < g.begun
  | .iget .., _ | .ialloc .., _ | .devread _, _ | .devwrite _, _ | .begin_op, _ | .panic _, _
  | .memory, _ => True

def gives : (o : Op) → Hold → Res o → Prop
  | .ilock k, g, _ => k ∉ g.locks
  | .iputTest k, g, r => r = true → k ∉ g.locks ∧ k ∉ g.refs.erase k
  | _, _, _ => True

def eff : (o : Op) → Hold → Res o → Hold
  | .iget .., g, k | .ialloc .., g, k => { g with refs := k ::ₘ g.refs }
  | .idup k, g, _ => { g with refs := k ::ₘ g.refs }
  | .ilock k, g, _ => { g with locks := k ::ₘ g.locks }
  | .iunlock k, g, _ => { g with locks := g.locks.erase k }
  | .iputTest k, g, free =>
    if free then { g with locks := k ::ₘ g.locks } else { g with refs := g.refs.erase k }
  | .iputDone k, g, _ => { g with refs := g.refs.erase k, locks := g.locks.erase k }
  | .begin_op, g, _ => { g with begun := g.begun + 1 }
  | .end_op, g, _ => { g with begun := g.begun - 1 }
  | .iputFree _, g, _ | .readi .., g, _ | .writei .., g, _ | .stat _, g, _ | .devread _, g, _
  | .devwrite _, g, _ | .update .., g, _ | .panic _, g, _ | .memory, g, _ => g

def rules : Rules Res Hold := ⟨pre, gives, eff⟩

/-- A process holds exactly these references, locks and transactions. -/
structure Has (R L : Multiset Nat) (n : Nat) (g : Hold) : Prop where
  refs : g.refs = R
  locks : g.locks = L
  begun : g.begun = n
  sub : ∀ k ∈ L, k ∈ R

section

variable {R L : Multiset Nat} {n k : Nat} {g : Hold}

theorem Has.mem_refs (h : Has R L n g) (hk : k ∈ R) : k ∈ g.refs := h.refs ▸ hk

theorem Has.mem_locks (h : Has R L n g) (hk : k ∈ L) : k ∈ g.locks := h.locks ▸ hk

/-- No locks need no references. -/
theorem no_locks : ∀ k ∈ (0 : Multiset Nat), k ∈ R := fun k hk => absurd hk (notMem_zero k)

/-! ## The functions for inodes -/

theorem wp_panic {α : Type} {msg : String} {Q : α → Hold → Prop} :
    wp rules (Inodes.panic msg : OpM α) g Q :=
  ⟨trivial, fun e => nomatch e⟩

theorem iget_law {dev i : Nat} (h : Has R L n g) :
    wp rules (iget dev i : OpM Nat) g fun k g' => Has (k ::ₘ R) L n g' :=
  ⟨trivial, fun _ _ => ⟨congrArg _ h.refs, h.locks, h.begun,
  fun d hd => mem_cons_of_mem (h.sub d hd)⟩⟩

theorem idup_law (h : Has R L n g) (hk : k ∈ R) : wp rules (idup k : OpM Nat) g fun k' g' =>
    k' = k ∧ Has (k ::ₘ R) L n g' :=
  ⟨h.mem_refs hk, fun _ _ => ⟨rfl, congrArg _ h.refs, h.locks, h.begun,
    fun d hd => mem_cons_of_mem (h.sub d hd)⟩⟩

theorem ilock_law (h : Has R L n g) (hk : k ∈ R) :
    wp rules (ilock k : OpM Unit) g fun _ g' => Has R (k ::ₘ L) n g' := by
  refine ⟨h.mem_refs hk, fun _ _ => ⟨h.refs, congrArg _ h.locks, h.begun, fun d hd => ?_⟩⟩
  rcases mem_cons.mp hd with rfl | hd
  · exact hk
  · exact h.sub d hd

theorem iunlock_law (h : Has R (k ::ₘ L) n g) :
    wp rules (iunlock k : OpM Unit) g fun _ g' => Has R L n g' := by
  refine ⟨h.mem_locks (mem_cons_self k L), fun _ _ => ⟨h.refs, ?_, h.begun,
    fun d hd => h.sub d (mem_cons_of_mem hd)⟩⟩
  change g.locks.erase k = L
  rw [h.locks, erase_cons_head]

theorem iput_law (h : Has (k ::ₘ R) L n g) (hL : ∀ d ∈ L, d ∈ R) :
    wp rules (Inodes.iput k : OpM Unit) g fun _ g' => Has R L n g' := by
  have herase : g.refs.erase k = R := by rw [h.refs, erase_cons_head]
  have hmem : k ∈ g.refs := h.mem_refs (mem_cons_self k R)
  refine ⟨⟨hmem, fun hk => ?_⟩, fun free hfree => ?_⟩
  · rw [herase]
    exact hL k (h.locks ▸ hk)
  · cases free with
    | false => exact ⟨herase, h.locks, h.begun, hL⟩
    | true =>
      refine ⟨mem_cons_self k _, fun _ _ => ⟨⟨mem_cons_self k _, hmem, (hfree rfl).2⟩,
        fun _ _ => ?_⟩⟩
      exact ⟨herase, (erase_cons_head k _).trans h.locks, h.begun, hL⟩

theorem iunlockput_law (h : Has (k ::ₘ R) (k ::ₘ L) n g) (hL : ∀ d ∈ L, d ∈ R) :
    wp rules (iunlockput k : OpM Unit) g fun _ g' => Has R L n g' :=
  wp_seq (iunlock_law h) fun _ _ h => iput_law h hL

theorem ialloc_law {dev : Nat} {type : UInt16} (h : Has R L n g) :
    wp rules (ialloc dev type : OpM Nat) g fun k g' => Has (k ::ₘ R) L n g' :=
  ⟨trivial, fun _ _ => ⟨congrArg _ h.refs, h.locks, h.begun,
  fun d hd => mem_cons_of_mem (h.sub d hd)⟩⟩

theorem stat_law (h : Has R L n g) (hk : k ∈ R) :
    wp rules (stat k : OpM Stat) g fun _ g' => Has R L n g' :=
  ⟨h.mem_refs hk, fun _ _ => h⟩

theorem update_law {f : Fields → Fields} (h : Has R L n g) (hk : k ∈ L) :
    wp rules (update k f : OpM Unit) g fun _ g' => Has R L n g' :=
  ⟨h.mem_locks hk, fun _ _ => h⟩

theorem begin_op_law (h : Has R L n g) :
    wp rules (begin_op : OpM Unit) g fun _ g' => Has R L (n + 1) g' :=
  ⟨trivial, fun _ _ => { h with begun := congrArg (· + 1) h.begun }⟩

theorem end_op_law (h : Has R L (n + 1) g) :
    wp rules (end_op : OpM Unit) g fun _ g' => Has R L n g' :=
  ⟨lt_of_lt_of_eq (Nat.succ_pos n) h.begun.symm,
  fun _ _ => { h with begun := by simp [rules, eff, h.begun] }⟩

/-- A device unlocks the inode and locks it again. -/
theorem relock_law {o : Op} (h : Has R L n g) (hk : k ∈ L) (hpre : ∀ g, pre o g)
    (heff : ∀ g r, eff o g r = g) :
    wp rules (do iunlock k; let r ← perform o; ilock k; pure r : OpM (Res o)) g fun _ g' =>
      Has R L n g' := by
  obtain ⟨L, rfl⟩ := exists_cons_of_mem hk
  apply wp_seq (iunlock_law h)
  intro _ g1 h1
  apply wp_bind.mpr
  refine ⟨hpre g1, fun r _ => ?_⟩
  have h2 : Has R L n (rules.eff o g1 r) := by
    rw [show rules.eff o g1 r = g1 from heff g1 r]
    exact h1
  exact wp_seq (ilock_law h2 (h.sub k hk)) fun _ _ h => h

theorem readi_law {off len : Nat} (h : Has R L n g) (hk : k ∈ L) :
    wp rules (Inodes.readi k off len : OpM (Option (List UInt8))) g fun _ g' => Has R L n g' := by
  refine ⟨h.mem_locks hk, fun r _ => ?_⟩
  cases r with
  | some r => exact h
  | none => exact relock_law h hk (fun _ => trivial) fun _ _ => rfl

theorem writei_law {src : Nat → UInt8} {off len : Nat} (h : Has R L n g) (hk : k ∈ L) :
    wp rules (Inodes.writei k src off len : OpM Int) g fun _ g' => Has R L n g' := by
  refine ⟨h.mem_locks hk, fun r _ => ?_⟩
  cases r with
  | some r => exact h
  | none => exact relock_law h hk (fun _ => trivial) fun _ _ => rfl

/-! ## Directories -/

variable {dp : Nat} {name : Name}

theorem readDirent_law {off : Nat} {msg : String} (h : Has R L n g) (hdp : dp ∈ L) :
    wp rules (readDirent dp off msg : OpM Dirent) g fun _ g' => Has R L n g' := by
  apply wp_seq (readi_law h hdp)
  rintro (_ | bs) g1 h1
  · exact wp_panic
  · exact wp_ite (fun _ => wp_panic) fun _ => h1

/-- What a search of a directory gives: an entry with a reference to it. -/
def Found (R L : Multiset Nat) (n : Nat) : Option (Nat × Nat) → Hold → Prop
  | none, g => Has R L n g
  | some (k, _), g => Has (k ::ₘ R) L n g

theorem lookupFrom_law {turns off : Nat} (h : Has R L n g) (hdp : dp ∈ L) :
    wp rules (lookupFrom dp name turns off : OpM (Option (Nat × Nat))) g (Found R L n) := by
  induction turns generalizing off g with
  | zero => exact h
  | succ turns ih =>
    apply wp_seq (readDirent_law h hdp)
    intro de g1 h1
    split
    · apply wp_seq (stat_law h1 (h.sub dp hdp))
      intro st g2 h2
      exact wp_seq (iget_law h2) fun _ _ h => h
    · exact ih h1

theorem dirlookup_law (h : Has R L n g) (hdp : dp ∈ L) :
    wp rules (dirlookup dp name : OpM (Option (Nat × Nat))) g (Found R L n) :=
  wp_seq (stat_law h (h.sub dp hdp)) fun _ _ h1 => wp_ite (fun _ => wp_panic)
  fun _ => lookupFrom_law h1 hdp

theorem emptyFrom_law {turns off : Nat} (h : Has R L n g) (hdp : dp ∈ L) :
    wp rules (emptyFrom dp turns off : OpM Nat) g fun _ g' => Has R L n g' := by
  induction turns generalizing off g with
  | zero => exact h
  | succ turns ih =>
    apply wp_seq (readDirent_law h hdp)
    exact fun de g1 h1 => wp_ite (fun _ => h1) fun _ => ih h1

theorem dirlink_law {inum : Nat} (h : Has R L n g) (hdp : dp ∈ L) :
    wp rules (dirlink dp name inum : OpM Int) g fun _ g' => Has R L n g' := by
  apply wp_seq (dirlookup_law h hdp)
  rintro (_ | ⟨ip, off⟩) g1 h1
  · apply wp_seq (stat_law h1 (h.sub dp hdp))
    intro st g2 h2
    apply wp_seq (emptyFrom_law h2 hdp)
    intro off g3 h3
    apply wp_seq (writei_law h3 hdp)
    exact fun r g4 h4 => wp_ite (fun _ => wp_panic) fun _ => h4
  · exact wp_seq (iput_law h1 h.sub) fun _ _ h => h

end

end xv6.ops
