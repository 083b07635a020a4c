-- The laws of path names and of the system calls of sysfile.c over what a process holds: each call
-- ends with the references that the tables of processes and open files account for, no lock and no
-- transaction.
import Xv6.Holds

open Multiset prog WP

namespace xv6.ops

open dir sysfile image
open sysread (OpenFile)
open dir.Inodes hiding panic

section

variable {R L : Multiset Nat} {n k : Nat} {g : Hold}

/-! ## Path names -/

/-- What a path leads to: an entry, with a reference to it. -/
def Path (R : Multiset Nat) (n : Nat) : Option (Nat × Name) → Hold → Prop
  | none, g => Has R 0 n g
  | some (k, _), g => Has (k ::ₘ R) 0 n g

theorem walk_law {parent : Bool} {ip : Nat} {path : List Name} (h : Has (ip ::ₘ R) 0 n g) :
    wp rules (walk parent ip path : OpM (Option (Nat × Name))) g (Path R n) := by
  induction path generalizing ip g with
  | nil =>
    rw [walk]
    split
    · exact wp_seq (iput_law h no_locks) fun _ _ h => h
    · exact h
  | cons name path ih =>
    apply wp_seq (ilock_law h (mem_cons_self ip R))
    intro _ g1 h1
    apply wp_seq (stat_law h1 (mem_cons_self ip R))
    intro st g2 h2
    split
    · exact wp_seq (iunlockput_law h2 no_locks) fun _ _ h => h
    · split
      · exact wp_seq (iunlock_law h2) fun _ _ h => h
      · apply wp_seq (dirlookup_law h2 (mem_cons_self ip 0))
        rintro (_ | ⟨next, off⟩) g3 h3
        · exact wp_seq (iunlockput_law h3 no_locks) fun _ _ h => h
        · have h3' : Has (ip ::ₘ next ::ₘ R) (ip ::ₘ 0) n g3 := cons_swap next ip R ▸ h3
          exact wp_seq (iunlockput_law h3' no_locks) fun _ _ h4 => ih h4

variable {path : Name} {proc : Proc}

theorem namex_law {cwd : Nat} {parent : Bool} (h : Has R 0 n g) (hcwd : cwd ∈ R) :
    wp rules (namex cwd path parent : OpM (Option (Nat × Name))) g (Path R n) := by
  unfold namex
  split
  · exact wp_seq (iget_law h) fun ip g1 h1 => walk_law h1
  · apply wp_seq (idup_law h hcwd)
    rintro _ g1 ⟨rfl, h1⟩
    exact walk_law h1

/-- What a path leads to, without its last name. -/
def Inode (R : Multiset Nat) (n : Nat) : Option Nat → Hold → Prop
  | none, g => Has R 0 n g
  | some k, g => Has (k ::ₘ R) 0 n g

theorem namei_law {cwd : Nat} (h : Has R 0 n g) (hcwd : cwd ∈ R) :
    wp rules (namei cwd path : OpM (Option Nat)) g (Inode R n) := by
  apply wp_seq (namex_law h hcwd)
  rintro (_ | ⟨k, name⟩) g1 h1
  · exact h1
  · exact h1

theorem nameiparent_law {cwd : Nat} (h : Has R 0 n g) (hcwd : cwd ∈ R) :
    wp rules (nameiparent cwd path : OpM (Option (Nat × Name))) g (Path R n) :=
  namex_law h hcwd

/-! ## Links -/

/-- An unlock and put of the only lock, and the end of the transaction. -/
theorem leave_law {α : Type} {a : α} (h : Has (k ::ₘ R) (k ::ₘ 0) (n + 1) g) :
    wp rules (do iunlockput k; end_op; pure a : OpM α) g fun r g' => r = a ∧ Has R 0 n g' := by
  apply wp_seq (iunlockput_law h no_locks)
  intro _ g1 h1
  exact wp_seq (end_op_law h1) fun _ _ h2 => ⟨rfl, h2⟩

/-- The end of `sys_link`, with a reference to the inode that gets the link. -/
theorem link_end_law {ip : Nat} (done : Bool) (h : Has (ip ::ₘ R) 0 (n + 1) g) :
    wp rules (if done then do
        Inodes.iput ip
        end_op
        pure 0
      else do
        ilock ip
        update ip fun x => { x with nlink := x.nlink - 1 }
        iunlockput ip
        end_op
        pure (-1) : OpM Int) g fun _ g' => Has R 0 n g' := by
  split
  · apply wp_seq (iput_law h no_locks)
    intro _ g1 h1
    exact wp_seq (end_op_law h1) fun _ _ h => h
  · apply wp_seq (ilock_law h (mem_cons_self ip R))
    intro _ g1 h1
    apply wp_seq (update_law h1 (mem_cons_self ip 0))
    intro _ g2 h2
    exact wp_mono (leave_law h2) fun _ _ h => h.2

theorem sys_link_law {old new : Name} (h : Has R 0 n g) (hcwd : proc.cwd ∈ R) :
    wp rules (sys_link proc old new : OpM Int) g fun _ g' => Has R 0 n g' := by
  apply wp_seq (begin_op_law h)
  intro _ g0 h0
  apply wp_seq (namei_law h0 hcwd)
  rintro (_ | ip) g1 h1
  · exact wp_seq (end_op_law h1) fun _ _ h => h
  apply wp_seq (ilock_law h1 (mem_cons_self ip R))
  intro _ g2 h2
  apply wp_seq (stat_law h2 (mem_cons_self ip R))
  intro st g3 h3
  split
  · exact wp_mono (leave_law h3) fun _ _ h => h.2
  apply wp_seq (update_law h3 (mem_cons_self ip 0))
  intro _ g4 h4
  apply wp_seq (iunlock_law h4)
  intro _ g5 h5
  have hend : ∀ done g', Has (ip ::ₘ R) 0 (n + 1) g' → wp rules _ g' _ :=
    fun done g' h' => link_end_law done h'
  apply wp_seq (nameiparent_law h5 (mem_cons_of_mem hcwd))
  rintro (_ | ⟨dp, name⟩) g6 h6
  · exact hend false g6 h6
  have hip : ip ∈ dp ::ₘ ip ::ₘ R := mem_cons_of_mem (mem_cons_self ip R)
  apply wp_seq (ilock_law h6 (mem_cons_self dp _))
  intro _ g7 h7
  apply wp_seq (stat_law h7 (mem_cons_self dp _))
  intro st1 g8 h8
  apply wp_seq (stat_law h8 hip)
  intro st2 g9 h9
  split
  · exact wp_seq (iunlockput_law h9 no_locks) fun _ g' h' => hend false g' h'
  apply wp_seq (stat_law h9 hip)
  intro st3 g10 h10
  apply wp_seq (dirlink_law h10 (mem_cons_self dp 0))
  intro r g11 h11
  split
  · exact wp_seq (iunlockput_law h11 no_locks) fun _ g' h' => hend false g' h'
  · exact wp_seq (iunlockput_law h11 no_locks) fun _ g' h' => hend true g' h'

theorem emptyDirFrom_law {dp turns off : Nat} (h : Has R L n g) (hdp : dp ∈ L) :
    wp rules (emptyDirFrom dp turns off : OpM Bool) g fun _ g' => Has R L n g' := by
  induction turns generalizing off g with
  | zero => exact h
  | succ turns ih =>
    apply wp_seq (readDirent_law h hdp)
    exact fun de g1 h1 => wp_ite (fun _ => h1) fun _ => ih h1

theorem isdirempty_law {dp : Nat} (h : Has R L n g) (hdp : dp ∈ L) :
    wp rules (isdirempty dp : OpM Bool) g fun _ g' => Has R L n g' :=
  wp_seq (stat_law h (h.sub dp hdp)) fun _ _ h1 => emptyDirFrom_law h1 hdp

/-- Two locks, with the references under them, in the other order. -/
theorem Has.swap {a b : Nat} (h : Has (a ::ₘ b ::ₘ R) (a ::ₘ b ::ₘ L) n g) :
    Has (b ::ₘ a ::ₘ R) (b ::ₘ a ::ₘ L) n g := by
  rw [cons_swap b a R, cons_swap b a L]
  exact h

theorem sub_cons {d : Nat} : ∀ x ∈ d ::ₘ (0 : Multiset Nat), x ∈ d ::ₘ R := fun _ hx =>
  mem_of_le (cons_le_cons d (zero_le R)) hx

/-- The end of `sys_unlink`, with the directory `dp` and the inode `ip` locked. -/
theorem unlink_end_law {dp ip : Nat} (off : Nat) (d : Stat) (full : Bool)
    (h : Has (ip ::ₘ dp ::ₘ R) (ip ::ₘ dp ::ₘ 0) (n + 1) g) :
    wp rules (if full then do
        iunlockput ip
        iunlockput dp
        end_op
        pure (-1)
      else do
        if (← Inodes.writei dp (fun _ => 0) off 16) ≠ 16 then Inodes.panic "unlink: writei"
        else
          if d.type = T_DIR then update dp fun x => { x with nlink := x.nlink - 1 }
          iunlockput dp
          update ip fun x => { x with nlink := x.nlink - 1 }
          iunlockput ip
          end_op
          pure 0 : OpM Int) g fun _ g' => Has R 0 n g' := by
  have hdp : dp ∈ ip ::ₘ dp ::ₘ (0 : Multiset Nat) := mem_cons_of_mem (mem_cons_self dp 0)
  have hend : ∀ g', Has (dp ::ₘ ip ::ₘ R) (dp ::ₘ ip ::ₘ 0) (n + 1) g' → wp rules (do
      iunlockput dp
      update ip fun x => { x with nlink := x.nlink - 1 }
      iunlockput ip
      end_op
      pure 0 : OpM Int) g' fun _ g' => Has R 0 n g' := by
    intro g1 h1
    apply wp_seq (iunlockput_law h1 sub_cons)
    intro _ g2 h2
    apply wp_seq (update_law h2 (mem_cons_self ip 0))
    intro _ g3 h3
    exact wp_mono (leave_law h3) fun _ _ h => h.2
  split
  · apply wp_seq (iunlockput_law h sub_cons)
    intro _ g1 h1
    exact wp_mono (leave_law h1) fun _ _ h => h.2
  · apply wp_seq (writei_law h hdp)
    intro r g1 h1
    split
    · exact wp_panic
    · split
      · exact wp_seq (update_law h1 hdp) fun _ g2 h2 => hend g2 h2.swap
      · exact hend g1 h1.swap

theorem sys_unlink_law (h : Has R 0 n g) (hcwd : proc.cwd ∈ R) :
    wp rules (sys_unlink proc path : OpM Int) g fun _ g' => Has R 0 n g' := by
  apply wp_seq (begin_op_law h)
  intro _ g0 h0
  apply wp_seq (nameiparent_law h0 hcwd)
  rintro (_ | ⟨dp, name⟩) g1 h1
  · exact wp_seq (end_op_law h1) fun _ _ h => h
  apply wp_seq (ilock_law h1 (mem_cons_self dp R))
  intro _ g2 h2
  split
  · exact wp_mono (leave_law h2) fun _ _ h => h.2
  apply wp_seq (dirlookup_law h2 (mem_cons_self dp 0))
  rintro (_ | ⟨ip, off⟩) g3 h3
  · exact wp_mono (leave_law h3) fun _ _ h => h.2
  apply wp_seq (ilock_law h3 (mem_cons_self ip _))
  intro _ g4 h4
  apply wp_seq (stat_law h4 (mem_cons_self ip _))
  intro d g5 h5
  split
  · exact wp_panic
  have hend : ∀ full g', Has (ip ::ₘ dp ::ₘ R) (ip ::ₘ dp ::ₘ 0) (n + 1) g' → wp rules _ g' _ :=
    fun full g' h' => unlink_end_law off d full h'
  apply wp_ite
  · intro _
    apply wp_seq (isdirempty_law h5 (mem_cons_self ip _))
    exact fun empty g6 h6 => hend (!empty) g6 h6
  · exact fun _ => hend false g5 h5

/-! ## Making inodes -/

/-- What `create` gives: a locked entry. -/
def Made (R : Multiset Nat) (n : Nat) : Option Nat → Hold → Prop
  | none, g => Has R 0 n g
  | some ip, g => Has (ip ::ₘ R) (ip ::ₘ 0) n g

/-- `create` of a name that is there already. -/
theorem create_found_law {dp ip : Nat} {type : UInt16} (h : Has (ip ::ₘ dp ::ₘ R) (dp ::ₘ 0) n g) :
    wp rules (do
      iunlockput dp
      ilock ip
      if type = T_FILE ∧ (← stat ip).type = T_FILE then pure (some ip)
      else
        iunlockput ip
        pure none : OpM (Option Nat)) g (Made R n) := by
  rw [cons_swap] at h
  apply wp_seq (iunlockput_law h no_locks)
  intro _ g1 h1
  apply wp_seq (ilock_law h1 (mem_cons_self ip R))
  intro _ g2 h2
  apply wp_seq (stat_law h2 (mem_cons_self ip R))
  intro st g3 h3
  split
  · exact h3
  · exact wp_seq (iunlockput_law h3 no_locks) fun _ _ h => h

/-- The end of `create`, which links the new inode `ip` into the directory `dp`. -/
theorem create_end_law {dp ip : Nat} {name : Name}
    (h : Has (ip ::ₘ dp ::ₘ R) (ip ::ₘ dp ::ₘ 0) n g) :
    wp rules (do
      if (← dirlink dp name (← stat ip).inum) < 0 then Inodes.panic "create: dirlink"
      iunlockput dp
      pure (some ip) : OpM (Option Nat)) g (Made R n) := by
  apply wp_seq (stat_law h (mem_cons_self ip _))
  intro st g1 h1
  apply wp_seq (dirlink_law h1 (mem_cons_of_mem (mem_cons_self dp 0)))
  intro r g2 h2
  split
  · exact wp_bind.mpr wp_panic
  · exact wp_seq (iunlockput_law h2.swap sub_cons) fun _ _ h => h

theorem create_law {type major minor : UInt16} (h : Has R 0 n g) (hcwd : proc.cwd ∈ R) :
    wp rules (create proc path type major minor : OpM (Option Nat)) g (Made R n) := by
  apply wp_seq (nameiparent_law h hcwd)
  rintro (_ | ⟨dp, name⟩) g1 h1
  · exact h1
  apply wp_seq (ilock_law h1 (mem_cons_self dp R))
  intro _ g2 h2
  apply wp_seq (dirlookup_law h2 (mem_cons_self dp 0))
  rintro (_ | ⟨ip, off⟩) g3 h3
  swap
  · exact create_found_law h3
  apply wp_seq (stat_law h3 (mem_cons_self dp R))
  intro st g4 h4
  apply wp_seq (ialloc_law h4)
  intro ip g5 h5
  apply wp_seq (ilock_law h5 (mem_cons_self ip _))
  intro _ g6 h6
  have hip : ip ∈ ip ::ₘ dp ::ₘ (0 : Multiset Nat) := mem_cons_self ip _
  have hdp : dp ∈ ip ::ₘ dp ::ₘ (0 : Multiset Nat) := mem_cons_of_mem (mem_cons_self dp 0)
  apply wp_seq (update_law h6 hip)
  intro _ g7 h7
  split
  · apply wp_seq (update_law h7 hdp)
    intro _ g8 h8
    apply wp_seq (stat_law h8 (mem_cons_self ip _))
    intro st1 g9 h9
    apply wp_seq (dirlink_law h9 hip)
    intro r g10 h10
    split
    · exact wp_bind.mpr wp_panic
    apply wp_seq (stat_law h10 (mem_cons_of_mem (mem_cons_self dp R)))
    intro st2 g11 h11
    apply wp_seq (dirlink_law h11 hip)
    intro r g12 h12
    split
    · exact wp_bind.mpr wp_panic
    · exact create_end_law h12
  · exact create_end_law h7

/-- A function that is given a path, if there is one. -/
theorem withPath_law {path : Option Name} {f : Name → OpM (Option Nat)}
    {Q : Option Nat → Hold → Prop} (hnone : Q none g) (hf : ∀ p, wp rules (f p) g Q) :
    wp rules (withPath path f) g Q := by
  cases path with
  | none => exact hnone
  | some p => exact hf p

/-- The end of `sys_mkdir` and `sys_mknod`. -/
theorem made_law (ip : Option Nat) : Made R (n + 1) ip g →
    wp rules (match ip with
      | none => do
        end_op
        pure (-1)
      | some ip => do
        iunlockput ip
        end_op
        pure 0 : OpM Int) g fun _ g' => Has R 0 n g' := by
  intro h
  cases ip with
  | none => exact wp_seq (end_op_law h) fun _ _ h => h
  | some ip => exact wp_mono (leave_law h) fun _ _ h => h.2

theorem sys_mkdir_law {path : Option Name} (h : Has R 0 n g) (hcwd : proc.cwd ∈ R) :
    wp rules (sys_mkdir proc path : OpM Int) g fun _ g' => Has R 0 n g' := by
  apply wp_seq (begin_op_law h)
  intro _ g1 h1
  exact wp_seq (withPath_law (Q := Made R (n + 1)) h1 fun p => create_law h1 hcwd)
    fun ip _ h2 => made_law ip h2

theorem sys_mknod_law {path : Option Name} {major minor : UInt16} (h : Has R 0 n g)
    (hcwd : proc.cwd ∈ R) :
    wp rules (sys_mknod proc path major minor : OpM Int) g fun _ g' => Has R 0 n g' := by
  apply wp_seq (begin_op_law h)
  intro _ g1 h1
  exact wp_seq (withPath_law (Q := Made R (n + 1)) h1 fun p => create_law h1 hcwd)
    fun ip _ h2 => made_law ip h2

end

end xv6.ops
