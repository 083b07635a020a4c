-- Pipelines of sh.c are wired without stray descriptors: what a process of runcmd holds from its
-- fork to its exit, and what all processes of a command execute.
import Mathlib.Algebra.Order.Group.Multiset
import Xv6.Places
import Xv6.ShRun

open List runs

namespace xv6.sh

/-! ## Wires -/

/-- The command at `π` in the tree `t`, with the files that the redirections and pipes around it put
on its descriptors: the nearest one decides. -/
inductive Node (t : Cmd (List UInt8)) : Path → Cmd (List UInt8) → Wires → Prop where
  | root : Node t [] t stdWires
  | redir {π cmd file mode fd w} : Node t π (.REDIR cmd file mode fd) w →
      Node t (π ++ [.cmd]) cmd (w.set fd (.file file mode π))
  | pipeLeft {π left right w} : Node t π (.PIPE left right) w →
      Node t (π ++ [.left]) left (w.set 1 (.wr π))
  | pipeRight {π left right w} : Node t π (.PIPE left right) w →
      Node t (π ++ [.right]) right (w.set 0 (.rd π))
  | listLeft {π left right w} : Node t π (.LIST left right) w → Node t (π ++ [.left]) left w
  | listRight {π left right w} : Node t π (.LIST left right) w → Node t (π ++ [.right]) right w
  | back {π cmd w} : Node t π (.BACK cmd) w → Node t (π ++ [.cmd]) cmd w

/-- The redirections are for the descriptors 0, 1 and 2. -/
def Cmd.Standard {ω : Type} : Cmd ω → Prop
  | .EXEC _ => True
  | .REDIR cmd _ _ fd => fd ≤ 2 ∧ cmd.Standard
  | .PIPE left right => left.Standard ∧ right.Standard
  | .LIST left right => left.Standard ∧ right.Standard
  | .BACK cmd => cmd.Standard

/-- A process forked for the command at `root` may keep this file: of a pipe, the write end is for
the left side, and the read end for the right side. -/
def Obj.Allowed (root : Path) : Obj → Prop
  | .wr π => π ++ [.left] <+: root
  | .rd π => π ++ [.right] <+: root
  | _ => True

/-- The process has still to close an end of the pipe at `π`. -/
def pending (π : Path) (ops : List Op) : Prop := .closeRead π ∈ ops ∨ .closeWrite π ∈ ops

/-- The process holds only files that it may keep, and ends of pipes that it will close. -/
def Tidy (root : Path) (fds : Fds) (ops : List Op) : Prop :=
  ∀ f, some f ∈ fds → f.Allowed root ∨ ∃ π, (f = .rd π ∨ f = .wr π) ∧ pending π ops

/-- The descriptors of the process that called `pipe` for the command at `π`. -/
def Wires.piped (w : Wires) (π : Path) : Local :=
  { fds := some w.stdin :: some w.stdout :: some w.stderr :: some (.rd π) :: some (.wr π) ::
      List.replicate (NOFILE - 5) none
    p0 := 3
    p1 := 4 }

def Wires.Allowed (w : Wires) (root : Path) : Prop :=
  w.stdin.Allowed root ∧ w.stdout.Allowed root ∧ w.stderr.Allowed root

section Safe

variable (t : Cmd (List UInt8))

/-- What a child is forked with. -/
def Child.Ready (l : Local) : Child → Prop
  | .run cmd π => ∃ w, Node t π cmd w ∧ l.fds = w.fds ∧ w.Allowed π
  | .left cmd π => ∃ w right, Node t π (.PIPE cmd right) w ∧ l = w.piped π ∧ w.Allowed π
  | .right cmd π => ∃ w left, Node t π (.PIPE left cmd) w ∧ l = w.piped π ∧ w.Allowed π

/-- What is to hold when a process makes the call. -/
def Op.Ready (l : Local) : Op → Prop
  | .exec argv π => ∃ w, Node t π (.EXEC argv) w ∧ l.fds = w.fds
  | .fork child => child.Ready t l
  | _ => True

/-- The process is tidy and its calls are ready, from here to its exit. -/
def Safe (root : Path) : Local → List Op → Prop
  | _, [] => False
  | l, .exit :: ops => Tidy root l.fds (.exit :: ops) ∧ ops = []
  | l, op :: ops => Tidy root l.fds (op :: ops) ∧ op.Ready t l ∧ Safe root (l.call op) ops

end Safe

section Runcmd

variable {t cmd : Cmd (List UInt8)} {w : Wires} {π root : Path}

theorem Obj.Allowed.mono {f : Obj} {root root' : Path} (h : f.Allowed root) (hp : root <+: root') :
    f.Allowed root' := by
  cases f with
  | std _ => trivial
  | file _ _ _ => trivial
  | rd _ => exact h.trans hp
  | wr _ => exact h.trans hp

theorem Wires.Allowed.mono {root root' : Path} (h : w.Allowed root) (hp : root <+: root') :
    w.Allowed root' := ⟨h.1.mono hp, h.2.1.mono hp, h.2.2.mono hp⟩

theorem Wires.Allowed.set (h : w.Allowed root) {f : Obj} (hf : f.Allowed root) (fd : Nat) :
    (w.set fd f).Allowed root := by
  unfold Wires.set
  split
  · exact ⟨hf, h.2⟩
  · exact ⟨h.1, hf, h.2.2⟩
  · exact ⟨h.1, h.2.1, hf⟩

theorem mem_replicate_none {f : Obj} {k : Nat} : some f ∉ List.replicate k (none : Option Obj) := by
  simp

/-- The file of each descriptor is one that the process may keep. -/
def Kept (root : Path) (fds : Fds) : Prop := ∀ f, some f ∈ fds → f.Allowed root

theorem Kept.tidy {fds : Fds} (h : Kept root fds) (ops : List Op) : Tidy root fds ops :=
  fun f hf => Or.inl (h f hf)

theorem Kept.close {fds : Fds} (h : Kept root fds) (fd : Nat) : Kept root (fds.set fd none) := by
  intro f hf
  rcases mem_or_eq_of_mem_set hf with hf | hf
  · exact h f hf
  · cases hf

theorem Wires.Allowed.kept (h : w.Allowed root) : Kept root w.fds := by
  intro f hf
  simp only [Wires.fds, mem_cons, Option.some.injEq, mem_replicate_none, or_false] at hf
  rcases hf with rfl | rfl | rfl
  · exact h.1
  · exact h.2.1
  · exact h.2.2

/-- A process with ends of the pipe at `π` that it will close. -/
theorem tidy_of_pending (π : Path) {fds : Fds} {ops : List Op}
    (h : ∀ f, some f ∈ fds → f.Allowed root ∨ f = .rd π ∨ f = .wr π) (hp : pending π ops) :
    Tidy root fds ops := fun f hf => (h f hf).imp id fun hf => ⟨π, hf, hp⟩

theorem Wires.Allowed.piped (h : w.Allowed root) (f : Obj) (hf : some f ∈ (w.piped π).fds) :
    f.Allowed root ∨ f = .rd π ∨ f = .wr π := by
  simp only [Wires.piped, mem_cons, Option.some.injEq, mem_replicate_none, or_false] at hf
  rcases hf with rfl | rfl | rfl | rfl | rfl
  · exact Or.inl h.1
  · exact Or.inl h.2.1
  · exact Or.inl h.2.2
  · exact Or.inr (Or.inl rfl)
  · exact Or.inr (Or.inr rfl)

theorem Safe.tidy {l : Local} {ops : List Op} (h : Safe t root l ops) : Tidy root l.fds ops := by
  cases ops with
  | nil => exact h.elim
  | cons op ops => cases op <;> exact h.1

/-- A call that is not the last one. -/
theorem Safe.call {l : Local} {op : Op} {ops : List Op} (h : Safe t root l (op :: ops))
    (hop : op ≠ .exit) : op.Ready t l ∧ Safe t root (l.call op) ops := by
  cases op <;> first | exact h.2 | exact absurd rfl hop

theorem Node.standard (h : Node t π cmd w) (ht : t.Standard) : cmd.Standard := by
  induction h with
  | root => exact ht
  | redir _ ih => exact ih.2
  | pipeLeft _ ih => exact ih.1
  | pipeRight _ ih => exact ih.2
  | listLeft _ ih => exact ih.1
  | listRight _ ih => exact ih.2
  | back _ ih => exact ih

/-- `open` takes the descriptor that was closed before it. -/
theorem fdalloc_closed (w : Wires) (f : Obj) {fd : Nat} (h : fd ≤ 2) :
    (fdalloc (w.fds.set fd none) f).1 = (w.set fd f).fds := by
  match fd, h with
  | 0, _ => rfl
  | 1, _ => rfl
  | 2, _ => rfl

theorem runcmd_safe (ht : t.Standard) (cmd : Cmd (List UInt8)) :
    ∀ (w : Wires) (π root : Path) (l : Local), Node t π cmd w → w.Allowed root → root <+: π →
      l.fds = w.fds → Safe t root l (runcmd cmd π) := by
  induction cmd with
  | EXEC argv =>
    intro w π root l hnode hw _ hl
    have htidy := hl ▸ hw.kept
    unfold runcmd
    split
    · exact ⟨htidy.tidy _, rfl⟩
    · exact ⟨htidy.tidy _, ⟨w, hnode, hl⟩, ⟨htidy.tidy _, rfl⟩⟩
  | REDIR cmd file mode fd ih =>
    intro w π root l hnode hw hroot hl
    have htidy := hl ▸ hw.kept
    refine ⟨htidy.tidy _, trivial, ⟨(htidy.close fd).tidy _, trivial, ?_⟩⟩
    refine ih _ _ _ _ hnode.redir (hw.set (f := .file file mode π) trivial fd)
      (hroot.trans (prefix_append _ _)) ?_
    simp only [Local.call, hl]
    exact fdalloc_closed w _ (hnode.standard ht).1
  | LIST left right _ ih =>
    intro w π root l hnode hw hroot hl
    have htidy := hl ▸ hw.kept
    have hleft : root <+: π ++ [.left] := hroot.trans (prefix_append _ _)
    refine ⟨htidy.tidy _, ⟨w, hnode.listLeft, hl, hw.mono hleft⟩, ⟨htidy.tidy _, trivial, ?_⟩⟩
    exact ih _ _ _ _ hnode.listRight hw (hroot.trans (prefix_append _ _)) hl
  | PIPE left right _ _ =>
    intro w π root l hnode hw hroot hl
    have hpipe : l.call (.pipe π) = w.piped π := by
      simp only [Local.call, hl]
      rfl
    have hpiped := hw.piped (π := π)
    refine ⟨(hl ▸ hw.kept).tidy _, trivial, ?_⟩
    rw [hpipe]
    -- the two children, then the two ends are closed
    refine ⟨tidy_of_pending π hpiped (by simp [pending]), ⟨w, right, hnode, rfl, hw.mono hroot⟩, ?_⟩
    refine ⟨tidy_of_pending π hpiped (by simp [pending]), ⟨w, left, hnode, rfl, hw.mono hroot⟩, ?_⟩
    refine ⟨tidy_of_pending π hpiped (by simp [pending]), trivial, ?_⟩
    refine ⟨tidy_of_pending π (fun f hf => hpiped f ?_) (by simp [pending]), trivial, ?_⟩
    · exact (mem_or_eq_of_mem_set hf).resolve_right (by simp)
    · have hclosed : Kept root w.fds := hw.kept
      exact ⟨hclosed.tidy _, trivial, ⟨hclosed.tidy _, trivial, ⟨hclosed.tidy _, rfl⟩⟩⟩
  | BACK cmd _ =>
    intro w π root l hnode hw hroot hl
    have htidy := hl ▸ hw.kept
    have hcmd : root <+: π ++ [.cmd] := hroot.trans (prefix_append _ _)
    exact ⟨htidy.tidy _, ⟨w, hnode.back, hl, hw.mono hcmd⟩, ⟨htidy.tidy _, rfl⟩⟩

/-- The left child makes the write end its standard output, and the right child the read end its
standard input. -/
theorem child_safe (ht : t.Standard) {child : Child} {l : Local} (h : child.Ready t l) :
    Safe t child.root l child.ops := by
  cases child with
  | run cmd π =>
    obtain ⟨w, hnode, hl, hw⟩ := h
    exact runcmd_safe ht cmd w π π l hnode hw (prefix_refl π) hl
  | left cmd π =>
    obtain ⟨w, right, hnode, rfl, hw⟩ := h
    have hw : w.Allowed (π ++ [.left]) := hw.mono (prefix_append _ _)
    have hend : (Obj.wr π).Allowed (π ++ [.left]) := prefix_refl _
    have hset : (w.set 1 (.wr π)).Allowed (π ++ [.left]) := hw.set hend 1
    refine ⟨tidy_of_pending π hw.piped (by simp [pending]), trivial, ?_⟩
    refine ⟨tidy_of_pending π (fun f hf => hw.piped f ?_) (by simp [pending]), trivial, ?_⟩
    · exact (mem_or_eq_of_mem_set hf).resolve_right (by simp)
    refine ⟨tidy_of_pending π hset.piped (by simp [pending]), trivial, ?_⟩
    refine ⟨tidy_of_pending π (fun f hf => hset.piped f ?_) (by simp [pending]), trivial, ?_⟩
    · exact (mem_or_eq_of_mem_set hf).resolve_right (by simp)
    exact runcmd_safe ht cmd _ _ _ _ hnode.pipeLeft hset (prefix_refl _) rfl
  | right cmd π =>
    obtain ⟨w, left, hnode, rfl, hw⟩ := h
    have hw : w.Allowed (π ++ [.right]) := hw.mono (prefix_append _ _)
    have hend : (Obj.rd π).Allowed (π ++ [.right]) := prefix_refl _
    have hset : (w.set 0 (.rd π)).Allowed (π ++ [.right]) := hw.set hend 0
    refine ⟨tidy_of_pending π hw.piped (by simp [pending]), trivial, ?_⟩
    refine ⟨tidy_of_pending π (fun f hf => hw.piped f ?_) (by simp [pending]), trivial, ?_⟩
    · exact (mem_or_eq_of_mem_set hf).resolve_right (by simp)
    refine ⟨tidy_of_pending π hset.piped (by simp [pending]), trivial, ?_⟩
    refine ⟨tidy_of_pending π (fun f hf => hset.piped f ?_) (by simp [pending]), trivial, ?_⟩
    · exact (mem_or_eq_of_mem_set hf).resolve_right (by simp)
    exact runcmd_safe ht cmd _ _ _ _ hnode.pipeRight hset (prefix_refl _) rfl

end Runcmd

/-! ## Every run -/

/-- The commands with a word that `cmd` is to execute. -/
def Cmd.leaves : Cmd (List UInt8) → Path → List Path
  | .EXEC argv, π => if argv = [] then [] else [π]
  | .REDIR cmd _ _ _, π => cmd.leaves (π ++ [.cmd])
  | .PIPE left right, π => left.leaves (π ++ [.left]) ++ right.leaves (π ++ [.right])
  | .LIST left right, π => left.leaves (π ++ [.left]) ++ right.leaves (π ++ [.right])
  | .BACK cmd, π => cmd.leaves (π ++ [.cmd])

def Child.leaves : Child → List Path
  | .run cmd π => cmd.leaves π
  | .left cmd π => cmd.leaves (π ++ [.left])
  | .right cmd π => cmd.leaves (π ++ [.right])

/-- What a call leads to. -/
def Op.todo : Op → List Path
  | .exec _ π => [π]
  | .fork child => child.leaves
  | _ => []

theorem todo_runcmd (cmd : Cmd (List UInt8)) (π : Path) :
    (runcmd cmd π).flatMap Op.todo = cmd.leaves π := by
  induction cmd generalizing π with
  | EXEC argv =>
    unfold runcmd Cmd.leaves
    split <;> rfl
  | REDIR cmd file mode fd ih => exact ih _
  | LIST left right _ ih => exact congrArg (left.leaves _ ++ ·) (ih _)
  | PIPE left right _ _ | BACK cmd _ => simp [runcmd, Op.todo, Child.leaves, Cmd.leaves]

theorem todo_child (child : Child) : child.ops.flatMap Op.todo = child.leaves := by
  cases child with
  | run cmd π => exact todo_runcmd cmd π
  | left cmd π => exact todo_runcmd cmd _
  | right cmd π => exact todo_runcmd cmd _

/-- The calls that a command makes in all its processes. -/
def Cmd.cost : Cmd (List UInt8) → Nat
  | .EXEC _ => 2
  | .REDIR cmd _ _ _ => 2 + cmd.cost
  | .PIPE left right => 16 + left.cost + right.cost
  | .LIST left right => 2 + left.cost + right.cost
  | .BACK cmd => 2 + cmd.cost

def Child.cost : Child → Nat
  | .run cmd _ => cmd.cost
  | .left cmd _ => 4 + cmd.cost
  | .right cmd _ => 4 + cmd.cost

def Op.cost : Op → Nat
  | .fork child => 1 + child.cost
  | _ => 1

def costs (ops : List Op) : Nat := (ops.map Op.cost).sum

theorem costs_runcmd (cmd : Cmd (List UInt8)) (π : Path) : costs (runcmd cmd π) ≤ cmd.cost := by
  induction cmd generalizing π with
  | EXEC argv =>
    unfold runcmd
    split <;> simp [costs, Op.cost, Cmd.cost]
  | REDIR cmd file mode fd ih =>
    have := ih (π ++ [.cmd])
    simp only [costs, runcmd, map_cons, sum_cons, Op.cost, Cmd.cost] at *
    omega
  | LIST left right _ ih =>
    have := ih (π ++ [.right])
    simp only [costs, runcmd, map_cons, sum_cons, Op.cost, Child.cost, Cmd.cost] at *
    omega
  | PIPE left right _ _ | BACK cmd _ =>
    simp only [costs, runcmd, map_cons, sum_cons, Op.cost, Child.cost, Cmd.cost, map_nil, sum_nil]
    omega

theorem costs_child (child : Child) : costs child.ops ≤ child.cost := by
  cases child with
  | run cmd π => exact costs_runcmd cmd π
  | left cmd π =>
    have := costs_runcmd cmd (π ++ [.left])
    simp only [costs, Child.ops, map_cons, sum_cons, Op.cost, Child.cost] at *
    omega
  | right cmd π =>
    have := costs_runcmd cmd (π ++ [.right])
    simp only [costs, Child.ops, map_cons, sum_cons, Op.cost, Child.cost] at *
    omega

/-- What these calls lead to. -/
def todos (ops : List Op) : Multiset Path := (ops.flatMap Op.todo : List Path)

theorem todos_cons (op : Op) (ops : List Op) :
    todos (op :: ops) = (op.todo : Multiset Path) + todos ops := by
  simp only [todos, flatMap_cons, Multiset.coe_add]

theorem costs_cons (op : Op) (ops : List Op) : costs (op :: ops) = op.cost + costs ops := by
  simp only [costs, map_cons, sum_cons]

structure Inv (t : Cmd (List UInt8)) (s : Sys) : Prop where
  running : ∀ i, (s.procs i).state = .RUNNING →
    i < s.n ∧ Safe t (s.procs i).root (s.procs i).loc (s.procs i).ops
  ended : ∀ i, (s.procs i).state ≠ .RUNNING → (s.procs i).ops = [] ∧ (s.procs i).loc.fds = noFds
  parent : ∀ i j, (s.procs i).parent = some j → j < i
  /-- what was executed, and what the processes will execute -/
  all : (s.execs : Multiset Path) +
    ∑ i ∈ Finset.range s.n, todos (s.procs i).ops = t.leaves []

section Inv

variable {t : Cmd (List UInt8)} {s s' : Sys} {i : Nat} {op : Op} {ops : List Op}

theorem Inv.start (ht : t.Standard) : Inv t (start t) := by
  have hne : ∀ j, j ≠ 0 → (sh.start t).procs j = unused := fun j hj => by simp [sh.start, hj]
  refine ⟨fun j hj => ?_, fun j hj => ?_, fun j k hk => ?_, ?_⟩
  · by_cases h0 : j = 0
    · subst h0
      exact ⟨Nat.zero_lt_one, runcmd_safe ht t stdWires [] [] _ .root ⟨trivial, trivial, trivial⟩
        (prefix_refl _) rfl⟩
    · rw [hne j h0] at hj
      cases hj
  · by_cases h0 : j = 0
    · subst h0
      exact absurd rfl hj
    · rw [hne j h0]
      exact ⟨rfl, rfl⟩
  · by_cases h0 : j = 0
    · subst h0
      cases hk
    · rw [hne j h0] at hk
      cases hk
  · show (([] : List Path) : Multiset Path) + ∑ j ∈ Finset.range 1, _ = _
    rw [Finset.sum_range_one]
    simp [sh.start, todos, todo_runcmd]

/-- The process that made the call goes on, or has ended. -/
theorem Inv.self_step (h : Inv t s) (hd : Did s i op ops s') :
    ((s'.procs i).state = .RUNNING → Safe t (s'.procs i).root (s'.procs i).loc (s'.procs i).ops) ∧
      ((s'.procs i).state ≠ .RUNNING → (s'.procs i).ops = [] ∧ (s'.procs i).loc.fds = noFds) := by
  obtain ⟨-, hsafe⟩ := h.running i hd.running
  have hself := hd.self
  rw [hself.loc, hself.ops, hself.root, ne_eq, hself.running]
  unfold Proc.after
  split
  · exact ⟨fun hr => State.noConfusion hr, fun _ => ⟨rfl, rfl⟩⟩
  · rename_i hexit
    rw [hd.calls] at hsafe
    exact ⟨fun _ => (hsafe.call hexit).2, fun hr => absurd hd.running hr⟩

/-- The calls that a process has left after one of them. -/
theorem Inv.ops_step (h : Inv t s) (hd : Did s i op ops s') : (s'.procs i).ops = ops := by
  obtain ⟨-, hsafe⟩ := h.running i hd.running
  rw [hd.calls] at hsafe
  rw [hd.self.ops]
  unfold Proc.after
  split
  · rename_i hexit
    subst hexit
    exact hsafe.2.symm
  · rfl

/-- A process after the call is the one that made it, the one that it forked, or as it was. -/
theorem Did.which (hd : Did s i op ops s') (j : Nat) :
    j = i ∨ (∃ child, op = .fork child ∧ j = s.n ∧ s'.procs j = (s.procs i).forked i child) ∨
      j ≠ i ∧ Alike (s.procs j) (s'.procs j) := by
  by_cases hj : j = i
  · exact Or.inl hj
  by_cases hfork : ∃ child, op = .fork child ∧ j = s.n
  · grind [hd.fork]
  · grind [hd.other]

theorem Did.n_le (hd : Did s i op ops s') : s.n ≤ s'.n := by
  by_cases hfork : ∃ child, op = .fork child
  · obtain ⟨child, hop⟩ := hfork
    rw [(hd.fork child hop).1]
    exact Nat.le_succ _
  · grind [hd.nofork]

/-- The call takes its part from a sum over the calls that the processes have left. -/
theorem Inv.sum_step {M : Type} [AddCancelCommMonoid M] {G : List Op → M} {part : Op → M}
    (hG : ∀ op ops, G (op :: ops) = part op + G ops) (h : Inv t s) (hd : Did s i op ops s') :
    ∑ j ∈ Finset.range s.n, G (s'.procs j).ops + part op = ∑ j ∈ Finset.range s.n,
    G (s.procs j).ops := by
  obtain ⟨hi, -⟩ := h.running i hd.running
  have hsum := places.sum_of_one (f := fun j => G (s.procs j).ops)
      (g := fun j => G (s'.procs j).ops) hi
    fun j hj hne => by
      rcases hd.which j with rfl | ⟨_, _, rfl, _⟩ | ⟨_, ha⟩
      · exact absurd rfl hne
      · exact absurd hj (Nat.lt_irrefl _)
      · simp only [ha.ops]
  simp only [hd.calls, h.ops_step hd, hG] at hsum
  rw [← add_assoc] at hsum
  exact add_right_cancel hsum

/-- What was executed and what is to be executed stay the same together. -/
theorem Inv.all_step (h : Inv t s) (hd : Did s i op ops s') :
    (s'.execs : Multiset Path) + ∑ j ∈ Finset.range s'.n, todos (s'.procs j).ops =
      (s.execs : Multiset Path) + ∑ j ∈ Finset.range s.n, todos (s.procs j).ops := by
  have hsum := h.sum_step todos_cons hd
  rw [← hsum]
  cases op with
  | fork child =>
    obtain ⟨hn, hchild⟩ := hd.fork child rfl
    have hforked : todos (s'.procs s.n).ops = child.leaves := by
      rw [hchild, ← todo_child child]
      rfl
    rw [hn, Finset.sum_range_succ, hforked, hd.noexec nofun]
    rfl
  | exec argv π =>
    rw [hd.exec argv π rfl, hd.nofork nofun, ← Multiset.coe_add, add_assoc,
      add_comm (([π] : List Path) : Multiset Path)]
    rfl
  | _ =>
    rw [hd.nofork nofun, hd.noexec nofun]
    exact congrArg _ (add_zero _).symm

theorem Inv.did (ht : t.Standard) (h : Inv t s) (hd : Did s i op ops s') : Inv t s' := by
  obtain ⟨hi, hsafe⟩ := h.running i hd.running
  rw [hd.calls] at hsafe
  obtain ⟨hself1, hself2⟩ := h.self_step hd
  have hn := hd.n_le
  refine ⟨fun j hj => ?_, fun j hj => ?_, fun j k hk => ?_, ?_⟩
  · rcases hd.which j with rfl | ⟨child, rfl, rfl, hp⟩ | ⟨hne, ha⟩
    · exact ⟨by omega, hself1 hj⟩
    · rw [hp, (hd.fork child rfl).1]
      exact ⟨Nat.lt_succ_self _, child_safe ht (hsafe.call nofun).1⟩
    · obtain ⟨h1, h2⟩ := h.running j (ha.running.mp hj)
      rw [ha.loc, ha.ops, ha.root]
      exact ⟨by omega, h2⟩
  · rcases hd.which j with rfl | ⟨child, rfl, rfl, hp⟩ | ⟨hne, ha⟩
    · exact hself2 hj
    · rw [hp] at hj
      exact absurd hd.running hj
    · rw [ha.loc, ha.ops]
      exact h.ended j fun hr => hj (ha.running.mpr hr)
  · rcases hd.parent j k hk with hk | ⟨rfl, rfl, -⟩
    · exact h.parent j k hk
    · exact hi
  · exact (h.all_step hd).trans h.all

/-- The calls that all processes have left. -/
def Sys.toGo (s : Sys) : Nat := ∑ j ∈ Finset.range s.n, costs (s.procs j).ops

theorem Inv.toGo_step (h : Inv t s) (hd : Did s i op ops s') : s'.toGo < s.toGo := by
  have hsum := h.sum_step costs_cons hd
  unfold Sys.toGo
  rw [← hsum]
  cases op with
  | fork child =>
    obtain ⟨hn, hchild⟩ := hd.fork child rfl
    have hcosts : costs (s'.procs s.n).ops ≤ child.cost := by
      rw [hchild]
      exact costs_child child
    rw [hn, Finset.sum_range_succ, Op.cost]
    omega
  | _ =>
    rw [hd.nofork nofun]
    exact Nat.lt_succ_self _

/-- The last process that runs can make its call: its children have ended. -/
theorem Inv.can_step (h : Inv t s) (hrun : (s.procs i).state = .RUNNING)
    (hlast : ∀ j, i < j → (s.procs j).state ≠ .RUNNING) : step s i ≠ none := by
  obtain ⟨-, hsafe⟩ := h.running i hrun
  unfold step
  cases hops : (s.procs i).ops with
  | nil =>
    rw [hops] at hsafe
    exact hsafe.elim
  | cons op ops =>
    simp only [hrun, hops]
    cases op with
    | wait =>
      have hno : s.child i .RUNNING = none := by
        by_contra hne
        obtain ⟨j, hj⟩ := Option.ne_none_iff_exists'.mp hne
        obtain ⟨hp, hr⟩ := child_spec hj
        exact hlast j (h.parent j i hp) hr
      simp only [hno]
      cases s.child i .ZOMBIE <;> simp
    | _ => simp

/-- When no process can make a call, all have ended. -/
theorem Inv.ended_of_stuck (h : Inv t s) (hstuck : ∀ i, step s i = none) (i : Nat) :
    (s.procs i).state ≠ .RUNNING := by
  -- from the last process down
  have hdown : ∀ k i, s.n ≤ i + k → (s.procs i).state ≠ .RUNNING := by
    intro k
    induction k with
    | zero =>
      intro i hi hr
      have := (h.running i hr).1
      omega
    | succ k ih =>
      intro i hi hr
      exact h.can_step hr (fun j hj => ih j (by omega)) (hstuck i)
  exact hdown s.n i (Nat.le_add_left _ _)

theorem Inv.execs_of_stuck (h : Inv t s) (hstuck : ∀ i, step s i = none) :
    s.execs.Perm (t.leaves []) := by
  have hall := h.all
  rw [Finset.sum_eq_zero fun i _ => by rw [(h.ended i (h.ended_of_stuck hstuck i)).1]; rfl,
    add_zero] at hall
  exact Multiset.coe_eq_coe.mp hall

end Inv

theorem Inv.of_step {t : Cmd (List UInt8)} (ht : t.Standard) (s : Sys) (i : Nat) (s' : Sys)
    (h : Inv t s) (hs : step s i = some s') : Inv t s' ∧ s'.toGo < s.toGo := by
  have hrun : (s.procs i).state = .RUNNING := by grind [step]
  obtain ⟨op, ops, hd⟩ := did_of_step (h.running i hrun).1 hs
  exact ⟨h.did ht hd, h.toGo_step hd⟩

/-- Pipelines are wired without stray descriptors. In every run of a command, a process that calls
`exec` has exactly the descriptors 0, 1 and 2 open, with the files of the nearest redirections and
pipes around the command; a process that has closed its copies of the ends of a pipe holds the write
end only on the left side of the pipe, and the read end only on the right side; and every run ends,
with each command that has a word executed once. -/
theorem pipelines_are_wired {t : Cmd (List UInt8)} (ht : t.Standard) {as : List Nat} {s : Sys}
    (hrun : run step (start t) as = some s) :
    (∀ i argv π ops, (s.procs i).ops = .exec argv π :: ops →
        ∃ w, Node t π (.EXEC argv) w ∧ (s.procs i).loc.fds = w.fds) ∧
      (∀ π i, ¬ pending π (s.procs i).ops →
        (some (.wr π) ∈ (s.procs i).loc.fds → π ++ [.left] <+: (s.procs i).root) ∧
          (some (.rd π) ∈ (s.procs i).loc.fds → π ++ [.right] <+: (s.procs i).root)) ∧
      as.length ≤ t.cost ∧
      ((∀ i, step s i = none) → s.execs.Perm (t.leaves [])) := by
  have hinv : Inv t s := inv_of_run (fun s i s' h hs => (h.of_step ht s i s' hs).1)
    (Inv.start ht) hrun
  refine ⟨fun i argv π ops hops => ?_, fun π i hno => ?_, ?_, hinv.execs_of_stuck⟩
  · have hr : (s.procs i).state = .RUNNING := by
      grind [hinv.ended]
    have hsafe := (hinv.running i hr).2
    rw [hops] at hsafe
    exact (hsafe.call nofun).1
  · by_cases hr : (s.procs i).state = .RUNNING
    · have htidy := (hinv.running i hr).2.tidy
      refine ⟨fun hf => ?_, fun hf => ?_⟩
      · rcases htidy _ hf with ha | ⟨π', he, hp⟩
        · exact ha
        · grind
      · rcases htidy _ hf with ha | ⟨π', he, hp⟩
        · exact ha
        · grind
    · rw [(hinv.ended i hr).2]
      exact ⟨fun hf => absurd hf mem_replicate_none, fun hf => absurd hf mem_replicate_none⟩
  · have hlen := length_le_of_run (fun s i s' h hs => Inv.of_step ht s i s' h hs)
      (Inv.start ht) hrun
    have hstart : (start t).toGo ≤ t.cost := by
      unfold Sys.toGo
      show ∑ j ∈ Finset.range 1, _ ≤ _
      rw [Finset.sum_range_one]
      exact costs_runcmd t []
    omega

/-- The words `a` and `b`. -/
def aPipeB : Cmd (List UInt8) := .PIPE (.EXEC [[97]]) (.EXEC [[98]])

/-- In `a | b`, the process of `a` calls `exec` with the write end as its standard output. -/
theorem a_writes_to_the_pipe : ∃ s, run step (start aPipeB) [0, 0, 0, 0, 0, 1, 1, 1, 1] = some s ∧
      ∃ w, Node aPipeB [.left] (.EXEC [[97]]) w ∧ (s.procs 1).loc.fds = w.fds := by
  have hsome : (run step (start aPipeB) [0, 0, 0, 0, 0, 1, 1, 1, 1]).map
      (fun s => (s.procs 1).ops) = some [.exec [[97]] [.left], .exit] := by decide +kernel
  obtain ⟨s, hs, hops⟩ := Option.map_eq_some_iff.mp hsome
  exact ⟨s, hs, (pipelines_are_wired (t := aPipeB) ⟨trivial, trivial⟩ hs).1 1 _ _ _ hops⟩

/-- When the shell has closed its copies of the pipe of `a | b`, the process of `a` can still hold
the read end; and a command without a word never reaches `exec`. -/
theorem a_holds_the_read_end :
    (∃ s, run step (start aPipeB) [0, 0, 0, 0, 0] = some s ∧ ¬ pending [] (s.procs 0).ops ∧
      (s.procs 1).root = [.left] ∧ some (.rd []) ∈ (s.procs 1).loc.fds) ∧
    ∃ s, run step (start (.EXEC [])) [0] = some s ∧ (s.procs 0).state = .ZOMBIE ∧ s.execs = [] := by
  constructor
  · have hsome : (run step (start aPipeB) [0, 0, 0, 0, 0]).map (fun s =>
        ((s.procs 0).ops, (s.procs 1).root, decide (some (.rd []) ∈ (s.procs 1).loc.fds))) =
          some ([.wait, .wait, .exit], [.left], true) := by decide +kernel
    obtain ⟨s, hs, hfacts⟩ := Option.map_eq_some_iff.mp hsome
    simp only [Prod.mk.injEq, decide_eq_true_eq] at hfacts
    obtain ⟨hops, hroot, hheld⟩ := hfacts
    exact ⟨s, hs, by simp [pending, hops], hroot, hheld⟩
  · have hsome : (run step (start (.EXEC [])) [0]).map (fun s => ((s.procs 0).state, s.execs)) =
        some (.ZOMBIE, []) := by decide +kernel
    obtain ⟨s, hs, hfacts⟩ := Option.map_eq_some_iff.mp hsome
    simp only [Prod.mk.injEq] at hfacts
    exact ⟨s, hs, hfacts.1, hfacts.2⟩

end xv6.sh
