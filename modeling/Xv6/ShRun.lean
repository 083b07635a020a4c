-- runcmd of sh.c: the processes that it forks for a command, and the descriptors that they open,
-- pass on and close.
import Xv6.Runs
import Xv6.Sh

open runs

namespace xv6.sh

/-! ## Descriptors -/

/-- A step from a command to a command inside it. -/
inductive Dir where
  | cmd
  | left
  | right
  deriving DecidableEq

/-- Where a command is in the whole tree. -/
abbrev Path := List Dir

/-- An open file: one of those that the shell starts with, the file of the redirection at `π`, or an
end of the pipe of the PIPE command at `π`. -/
inductive Obj where
  | std (fd : Nat)
  | file (name : List UInt8) (mode : Nat) (π : Path)
  | rd (π : Path)
  | wr (π : Path)
  deriving DecidableEq

/-- `ofile` of a process. -/
abbrev Fds := List (Option Obj)

/-- Put the file into the lowest free descriptor. -/
def fdalloc (fds : Fds) (f : Obj) : Fds × Nat :=
  let fd := fds.findIdx Option.isNone
  (fds.set fd (some f), fd)

/-- What a process has for itself: its descriptors, and the array `p` of `runcmd`. -/
structure Local where
  fds : Fds
  p0 : Nat
  p1 : Nat
  deriving DecidableEq

/-! ## runcmd -/

/-- What the child of a `fork1` in `runcmd` goes on to do: it runs the command, or it first takes an
end of the pipe of the PIPE command at `π`. -/
inductive Child where
  | run (cmd : Cmd (List UInt8)) (π : Path)
  | left (cmd : Cmd (List UInt8)) (π : Path)
  | right (cmd : Cmd (List UInt8)) (π : Path)
  deriving DecidableEq

/-- A call of `runcmd`. The paths say for which command it is. -/
inductive Op where
  | close (fd : Nat)
  | open (file : List UInt8) (mode : Nat) (π : Path)
  | pipe (π : Path)
  | dupRead (π : Path)
  | dupWrite (π : Path)
  | closeRead (π : Path)
  | closeWrite (π : Path)
  | fork (child : Child)
  | wait
  | exec (argv : List (List UInt8)) (π : Path)
  | exit
  deriving DecidableEq

/-- The calls that a process makes in `runcmd(cmd)`, when they succeed. -/
def runcmd : Cmd (List UInt8) → Path → List Op
  | .EXEC argv, π => if argv = [] then [.exit] else [.exec argv π, .exit]
  | .REDIR cmd file mode fd, π => .close fd :: .open file mode π :: runcmd cmd (π ++ [.cmd])
  | .LIST left right, π => .fork (.run left (π ++ [.left])) :: .wait :: runcmd right (π ++ [.right])
  | .PIPE left right, π =>
    [.pipe π, .fork (.left left π), .fork (.right right π), .closeRead π, .closeWrite π,
      .wait, .wait, .exit]
  | .BACK cmd, π => [.fork (.run cmd (π ++ [.cmd])), .exit]

def Child.ops : Child → List Op
  | .run cmd π => runcmd cmd π
  | .left cmd π =>
    .close 1 :: .dupWrite π :: .closeRead π :: .closeWrite π :: runcmd cmd (π ++ [.left])
  | .right cmd π =>
    .close 0 :: .dupRead π :: .closeRead π :: .closeWrite π :: runcmd cmd (π ++ [.right])

/-- The command that the child runs. -/
def Child.root : Child → Path
  | .run _ π => π
  | .left _ π => π ++ [.left]
  | .right _ π => π ++ [.right]

/-- What a call does to the process itself. -/
def Local.call (l : Local) : Op → Local
  | .close fd => { l with fds := l.fds.set fd none }
  | .open file mode π => { l with fds := (fdalloc l.fds (.file file mode π)).1 }
  | .pipe π =>
    let (fds, fd0) := fdalloc l.fds (.rd π)
    let (fds, fd1) := fdalloc fds (.wr π)
    { fds := fds, p0 := fd0, p1 := fd1 }
  | .dupRead _ =>
    match l.fds[l.p0]?.join with
    | some f => { l with fds := (fdalloc l.fds f).1 }
    | none => l
  | .dupWrite _ =>
    match l.fds[l.p1]?.join with
    | some f => { l with fds := (fdalloc l.fds f).1 }
    | none => l
  | .closeRead _ => { l with fds := l.fds.set l.p0 none }
  | .closeWrite _ => { l with fds := l.fds.set l.p1 none }
  | _ => l

/-! ## The processes -/

inductive State where
  | UNUSED
  | RUNNING
  | ZOMBIE
  deriving DecidableEq

structure Proc where
  loc : Local
  /-- the calls that it has still to make -/
  ops : List Op
  /-- the command that it was forked for -/
  root : Path
  parent : Option Nat
  state : State
  deriving DecidableEq

structure Sys where
  procs : Nat → Proc
  /-- the number of processes so far -/
  n : Nat
  /-- the commands that reached `exec` -/
  execs : List Path

/-- No descriptor is open. -/
def noFds : Fds := List.replicate NOFILE none

def Proc.next (p : Proc) (op : Op) (ops : List Op) : Proc :=
  { p with loc := p.loc.call op, ops := ops }

def Proc.forked (p : Proc) (i : Nat) (child : Child) : Proc :=
  { p with ops := child.ops, root := child.root, parent := some i }

def Proc.dead (p : Proc) : Proc :=
  { p with loc := { p.loc with fds := noFds }, ops := [], state := .ZOMBIE }

def Sys.put (s : Sys) (i : Nat) (p : Proc) : Sys := { s with procs := Function.update s.procs i p }

/-- A child of process `i` in this state. -/
def Sys.child (s : Sys) (i : Nat) (st : State) : Option Nat :=
  (List.range s.n).find? fun j => (s.procs j).parent = some i ∧ (s.procs j).state = st

/-- Process `i` makes its next call. A program that was executed ends at some point. -/
def step (s : Sys) (i : Nat) : Option Sys :=
  let p := s.procs i
  match p.state, p.ops with
  | .RUNNING, op :: ops =>
    let t := s.put i (p.next op ops)
    match op with
    | .fork child =>
      some { t with procs := Function.update t.procs s.n (p.forked i child), n := s.n + 1 }
    | .wait =>
      match s.child i .ZOMBIE, s.child i .RUNNING with
      | some j, _ => some (t.put j { t.procs j with state := .UNUSED })
      | none, none => some t
      -- sleep while a child runs
      | none, some _ => none
    | .exec _ π => some { t with execs := s.execs ++ [π] }
    | .exit =>
      -- the children go to init
      some { s with procs := fun j =>
        let q := if j = i then p.dead else s.procs j
        if q.parent = some i then { q with parent := none } else q }
    | _ => some t
  | _, _ => none

/-- The descriptors 0, 1 and 2. -/
structure Wires where
  stdin : Obj
  stdout : Obj
  stderr : Obj
  deriving DecidableEq

/-- Exactly the descriptors 0, 1 and 2 are open. -/
def Wires.fds (w : Wires) : Fds :=
  some w.stdin :: some w.stdout :: some w.stderr :: List.replicate (NOFILE - 3) none

def Wires.set (w : Wires) (fd : Nat) (f : Obj) : Wires :=
  match fd with
  | 0 => { w with stdin := f }
  | 1 => { w with stdout := f }
  | _ => { w with stderr := f }

def stdWires : Wires := ⟨.std 0, .std 1, .std 2⟩

def unused : Proc :=
  { loc := ⟨noFds, 0, 0⟩, ops := [], root := [], parent := none, state := .UNUSED }

/-- A process with descriptors 0, 1 and 2 runs a command. -/
def start (t : Cmd (List UInt8)) : Sys :=
  { procs := Function.update (fun _ => unused) 0
      { loc := ⟨stdWires.fds, 0, 0⟩, ops := runcmd t [], root := []
        parent := none, state := .RUNNING }
    n := 1
    execs := [] }

/-! ## What a step does -/

/-- The parts of a process that only its own calls change. -/
structure Alike (p q : Proc) : Prop where
  loc : q.loc = p.loc
  ops : q.ops = p.ops
  root : q.root = p.root
  running : q.state = .RUNNING ↔ p.state = .RUNNING

theorem Alike.refl (p : Proc) : Alike p p := ⟨rfl, rfl, rfl, Iff.rfl⟩

/-- What process `i` is after its call. -/
def Proc.after (p : Proc) (op : Op) (ops : List Op) : Proc :=
  if op = .exit then p.dead else p.next op ops

/-- Process `i` made the call `op`. -/
structure Did (s : Sys) (i : Nat) (op : Op) (ops : List Op) (s' : Sys) : Prop where
  running : (s.procs i).state = .RUNNING
  calls : (s.procs i).ops = op :: ops
  self : Alike ((s.procs i).after op ops) (s'.procs i)
  other : ∀ j, j ≠ i → (∀ child, op = .fork child → j ≠ s.n) → Alike (s.procs j) (s'.procs j)
  fork : ∀ child, op = .fork child → s'.n = s.n + 1 ∧ s'.procs s.n = (s.procs i).forked i child
  nofork : (∀ child, op ≠ .fork child) → s'.n = s.n
  exec : ∀ argv π, op = .exec argv π → s'.execs = s.execs ++ [π]
  noexec : (∀ argv π, op ≠ .exec argv π) → s'.execs = s.execs
  parent : ∀ j k, (s'.procs j).parent = some k →
    (s.procs j).parent = some k ∨ j = s.n ∧ k = i ∧ ∃ child, op = .fork child

section Step

variable {s s' : Sys} {i : Nat} {op : Op} {ops : List Op}

@[simp] theorem put_self (s : Sys) (i : Nat) (p : Proc) : (s.put i p).procs i = p :=
  Function.update_self ..

theorem put_ne {j : Nat} (h : j ≠ i) (p : Proc) : (s.put i p).procs j = s.procs j :=
  Function.update_of_ne h ..

/-- A call that neither forks nor exits. -/
theorem Did.of_next (hrun : (s.procs i).state = .RUNNING) (hops : (s.procs i).ops = op :: ops)
    (hexit : op ≠ .exit) (hfork : ∀ child, op ≠ .fork child)
    (hprocs : ∀ j, Alike ((s.put i ((s.procs i).next op ops)).procs j) (s'.procs j) ∧
      (s'.procs j).parent = (s.procs j).parent)
    (hn : s'.n = s.n) (hexec : ∀ argv π, op = .exec argv π → s'.execs = s.execs ++ [π])
    (hnoexec : (∀ argv π, op ≠ .exec argv π) → s'.execs = s.execs) : Did s i op ops s' := by
  refine ⟨hrun, hops, ?_, fun j hj _ => ?_, fun child he => absurd he (hfork child), fun _ => hn,
    hexec, hnoexec, fun j k hk => Or.inl ((hprocs j).2 ▸ hk)⟩
  · have := (hprocs i).1
    rwa [put_self, ← show (s.procs i).after op ops = _ from if_neg hexit] at this
  · grind [put_ne]

theorem put_parent (s : Sys) (i j : Nat) (op : Op) (ops : List Op) :
    ((s.put i ((s.procs i).next op ops)).procs j).parent = (s.procs j).parent := by
  by_cases hj : j = i
  · subst hj
    simp [Sys.put, Proc.next]
  · simp [Sys.put, hj]

theorem child_spec {st : State} {j : Nat} (h : s.child i st = some j) :
    (s.procs j).parent = some i ∧ (s.procs j).state = st := by
  have := List.find?_some h
  simpa using this

theorem did_of_step (hi : i < s.n) (h : step s i = some s') : ∃ op ops, Did s i op ops s' := by
  unfold step at h
  cases hrun : (s.procs i).state with
  | UNUSED => simp [hrun] at h
  | ZOMBIE => simp [hrun] at h
  | RUNNING =>
    cases hops : (s.procs i).ops with
    | nil => simp [hrun, hops] at h
    | cons op ops =>
      refine ⟨op, ops, ?_⟩
      simp only [hrun, hops] at h
      cases op with
      | fork child =>
        cases h
        have hne : i ≠ s.n := Nat.ne_of_lt hi
        refine ⟨hrun, hops, ?_, fun j hj hjn => ?_, fun c he => ?_, fun he => absurd rfl (he child),
          nofun, fun _ => rfl, fun j k hk => ?_⟩
        · simpa [Sys.put, hne, Proc.after] using Alike.refl _
        · simpa [Sys.put, hj, hjn child rfl] using Alike.refl _
        · grind
        · grind [Proc.forked, Option.some.injEq, put_parent]
      | wait =>
        cases hz : s.child i .ZOMBIE with
        | some j =>
          simp only [hz, Option.some.injEq] at h
          subst h
          obtain ⟨-, hstate⟩ := child_spec hz
          have hji : j ≠ i := by grind
          refine Did.of_next hrun hops (by simp) (by simp) (fun k => ?_) rfl nofun fun _ => rfl
          by_cases hk : k = j
          · subst hk
            simp [Sys.put, hji]
            exact ⟨rfl, rfl, rfl, by simp [hstate]⟩
          · refine ⟨by simpa [Sys.put, hk] using Alike.refl _, ?_⟩
            rw [← put_parent s i k .wait ops]
            simp [Sys.put, hk]
        | none =>
          cases hr : s.child i .RUNNING with
          | some j => simp [hz, hr] at h
          | none =>
            simp only [hz, hr, Option.some.injEq] at h
            subst h
            exact Did.of_next hrun hops (by simp) (by simp)
              (fun k => ⟨Alike.refl _, put_parent s i k _ ops⟩) rfl nofun
              fun _ => rfl
      | exec argv π =>
        cases h
        refine Did.of_next hrun hops (by simp) (by simp)
          (fun k => ⟨Alike.refl _, put_parent s i k _ ops⟩) rfl (fun argv' π' he => ?_)
          fun he => absurd rfl (he argv π)
        cases he
        rfl
      | exit =>
        cases h
        have halike : ∀ q : Proc, Alike q (if q.parent = some i then { q with parent := none }
            else q) := by
          intro q
          split
          · exact ⟨rfl, rfl, rfl, Iff.rfl⟩
          · exact Alike.refl q
        refine ⟨hrun, hops, ?_, fun j hj _ => ?_, nofun, fun _ => rfl, nofun, fun _ => rfl,
          fun j k hk => ?_⟩
        · grind [Proc.after]
        · grind
        · by_cases hj : j = i
          · subst hj
            simp only [if_true] at hk
            split at hk
            · cases hk
            · exact Or.inl hk
          · grind
      | _ =>
        cases h
        exact Did.of_next hrun hops (by simp) (by simp)
          (fun k => ⟨Alike.refl _, put_parent s i k _ ops⟩) rfl nofun
          fun _ => rfl

end Step

end xv6.sh
