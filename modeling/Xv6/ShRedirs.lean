-- The redirections of a command of sh.c. The parser puts a later redirection around an
-- earlier one, and runcmd begins with the outermost: the files are opened from right to left,
-- and the first one stays.
import Mathlib.Data.List.Induction
import Xv6.ShParse
import Xv6.ShRun

open List WP

namespace xv6.sh

/-! ## The redirections of a command -/

/-- The descriptor that is redirected. -/
def RedirOp.fd : RedirOp → Nat
  | .input => 0
  | _ => 1

def RedirOp.mode : RedirOp → Nat
  | .input => O_RDONLY
  | _ => O_WRONLY ||| O_CREATE

/-- What `open` is called with. -/
def Redir.args {ω : Type} (r : Redir ω) : ω × Nat := (r.file, r.op.mode)

/-- The simple or parenthesised command `cmd`, written with the redirections `rs`. -/
inductive Command {ω : Type} : List (Tok ω) → List (Redir ω) → Cmd ω → Prop where
  | block {ts cmd} (rs : List (Redir ω)) : Derives .line ts cmd →
      Command (.sym .lparen :: (ts ++ .sym .rparen :: rs.flatMap Redir.toks)) rs cmd
  | simple (rs : List (Redir ω)) (args : List (Arg ω)) : args.length < MAXARGS →
      Command (rs.flatMap Redir.toks ++ args.flatMap Arg.toks) (rs ++ args.flatMap Arg.redirs)
        (.EXEC (args.map Arg.word))

theorem Command.derives {ω : Type} {ts : List (Tok ω)} {rs : List (Redir ω)} {cmd : Cmd ω}
    (h : Command ts rs cmd) : Derives .cmd ts (rs.foldl Redir.wrap cmd) := by
  cases h with
  | block _ h => exact .block rs h
  | simple rs args h => exact .simple rs args h

theorem wrap_eq {ω : Type} (cmd : Cmd ω) (r : Redir ω) :
    r.wrap cmd = .REDIR cmd r.file r.op.mode r.op.fd := by
  obtain ⟨op, file⟩ := r
  cases op <;> rfl

/-- The mode says which descriptor it is. -/
theorem RedirOp.fd_eq_iff (op op' : RedirOp) : op.fd = op'.fd ↔ op.mode = op'.mode := by
  cases op <;> cases op' <;> decide

/-! ## What runcmd does with them -/

def Op.opened : Op → Option (Word × Nat)
  | .open file mode _ => some (file, mode)
  | _ => none

/-- Descriptors 0 and 1 are open. -/
def Local.Wired (l : Local) : Prop := ∃ f0 f1 fds, l.fds = some f0 :: some f1 :: fds

/-- The descriptor is attached to this file, or to what it was if there is none. -/
def Attached (l l' : Local) (fd : Nat) : Option (Word × Nat) → Prop
  | none => l'.fds[fd]? = l.fds[fd]?
  | some (file, mode) => ∃ π, l'.fds[fd]? = some (some (.file file mode π))

/-- The first redirection of a descriptor. -/
def first (fd : Nat) (rs : List (Redir Word)) : Option (Redir Word) := rs.find? (·.op.fd = fd)

/-- The last redirection of a descriptor. -/
def last (fd : Nat) (rs : List (Redir Word)) : Option (Redir Word) := first fd rs.reverse

/-- A redirection: `close` and `open`. -/
def Local.redir (l : Local) (r : Redir Word) (π : Path) : Local :=
  (l.call (.close r.op.fd)).call (.open r.file r.op.mode π)

section Calls

variable {l : Local} {fd : Nat}

theorem redir_fds (h : l.Wired) (r : Redir Word) (π : Path) :
    (l.redir r π).fds = l.fds.set r.op.fd (some (.file r.file r.op.mode π)) := by
  obtain ⟨f0, f1, fds, h⟩ := h
  obtain ⟨op, file⟩ := r
  cases op <;> simp [Local.redir, Local.call, fdalloc, h, RedirOp.fd, findIdx_cons]

theorem Local.Wired.redir (h : l.Wired) (r : Redir Word) (π : Path) : (l.redir r π).Wired := by
  have hset := redir_fds h r π
  obtain ⟨f0, f1, fds, h⟩ := h
  rw [h] at hset
  obtain ⟨op, file⟩ := r
  cases op with
  | input => exact ⟨_, f1, fds, hset⟩
  | output | append => exact ⟨f0, _, fds, hset⟩

/-- The redirections inside come later. -/
theorem Attached.redir (h : l.Wired) {r : Redir Word} {π : Path} {rs : List (Redir Word)}
    {l' : Local} (hin : Attached (l.redir r π) l' fd ((first fd rs).map Redir.args)) :
    Attached l l' fd ((first fd (rs ++ [r])).map Redir.args) := by
  rw [first, List.find?_append, ← first]
  cases hfirst : first fd rs with
  | some r' =>
    rw [hfirst] at hin
    exact hin
  | none =>
    simp only [hfirst, Option.map_none, Attached, redir_fds h] at hin
    by_cases hfd : r.op.fd = fd
    · obtain ⟨f0, f1, fds, h⟩ := h
      have hlen : fd < l.fds.length := by
        rw [← hfd, h]
        cases r.op <;> simp [RedirOp.fd]
      have hr : [r].find? (·.op.fd = fd) = some r := by simp [hfd]
      rw [Option.none_or, hr]
      refine ⟨π, ?_⟩
      rw [hin, hfd, List.getElem?_set_self hlen]
    · rw [List.getElem?_set_ne hfd] at hin
      have hr : [r].find? (·.op.fd = fd) = none := by simp [hfd]
      rw [Option.none_or, hr]
      exact hin

/-- The calls of the redirections of a command. -/
theorem calls_of_redirs (rs : List (Redir Word)) (cmd : Cmd Word) :
    ∀ (l : Local) (π : Path), l.Wired →
      ∃ ops π', runcmd (rs.foldl Redir.wrap cmd) π = ops ++ runcmd cmd π' ∧
      ops.filterMap Op.opened = (rs.map Redir.args).reverse ∧
      ∀ fd, Attached l (ops.foldl Local.call l) fd ((first fd rs).map Redir.args) := by
  -- the last redirection is the outermost
  induction rs using List.reverseRecOn with
  | nil => exact fun l π _ => ⟨[], π, rfl, rfl, fun _ => rfl⟩
  | append_singleton rs r ih =>
    intro l π h
    obtain ⟨ops, π', hcalls, hopened, hfds⟩ := ih (l.redir r π) (π ++ [.cmd]) (h.redir r π)
    refine ⟨.close r.op.fd :: .open r.file r.op.mode π :: ops, π', ?_, ?_,
      fun fd => (hfds fd).redir h⟩
    · rw [foldl_append, foldl_cons, foldl_nil, wrap_eq, runcmd, hcalls]
      rfl
    · rw [map_append, reverse_append, ← hopened]
      rfl

theorem length_runcmd (cmd : Cmd Word) (π π' : Path) :
    (runcmd cmd π).length = (runcmd cmd π').length := by
  induction cmd generalizing π π' with
  | EXEC argv =>
    simp only [runcmd]
    split <;> rfl
  | REDIR cmd file mode fd ih => simp [runcmd, ih (π ++ [.cmd]) (π' ++ [.cmd])]
  | LIST left right _ ih => simp [runcmd, ih (π ++ [.right]) (π' ++ [.right])]
  | PIPE | BACK => rfl

end Calls

/-! ## The law -/

/-- Before the process runs `cmd`, it opens the files in the order written, and the descriptors 0
and 1 are attached to the last ones. -/
def LeftToRight (rs : List (Redir Word)) (cmd t : Cmd Word) (π : Path) (l : Local) : Prop :=
  ∃ ops π', runcmd t π = ops ++ runcmd cmd π' ∧ ops.filterMap Op.opened = rs.map Redir.args ∧
    ∀ fd < 2, Attached l (ops.foldl Local.call l) fd ((last fd rs).map Redir.args)

/-- The first redirection of a descriptor, from what `open` is called with. -/
theorem args_first {op : RedirOp} (rs : List (Redir Word)) :
    (first op.fd rs).map Redir.args = (rs.map Redir.args).find? (·.2 = op.mode) := by
  rw [List.find?_map]
  simp only [first, RedirOp.fd_eq_iff]
  rfl

theorem LeftToRight.reverse_eq {rs : List (Redir Word)} {cmd : Cmd Word} {π : Path} {l : Local}
    (h : LeftToRight rs cmd (rs.foldl Redir.wrap cmd) π l) (hl : l.Wired) :
    (rs.map Redir.args).reverse = rs.map Redir.args := by
  obtain ⟨ops, π', hcalls, hopened, -⟩ := calls_of_redirs rs cmd l π hl
  obtain ⟨ops', π'', hcalls', hopened', -⟩ := h
  have hops := (append_inj' (hcalls.symm.trans hcalls') (length_runcmd ..)).1
  rw [← hopened, hops, hopened']

/-- Redirections take effect from left to right exactly if, as calls of `open`, they are the same
from right to left. -/
theorem redirections_are_left_to_right_iff {ts rest : List (Tok Word)} {rs : List (Redir Word)}
    {cmd : Cmd Word} {n : Nat} {l : Local} (h : Command ts rs cmd) (hrest : Ends .cmd rest)
    (hn : 4 * (ts.length + rest.length) + 2 ≤ n) (hl : l.Wired) (π : Path) :
    ∃ t, parseexec (tokenLexer Word) n (ts ++ rest) = .ok t rest ∧
      (LeftToRight rs cmd t π l ↔ (rs.map Redir.args).reverse = rs.map Redir.args) := by
  obtain ⟨_, _, hparse, rfl, rfl⟩ := exists_of_spec (complete h.derives n rest hrest hn)
  refine ⟨rs.foldl Redir.wrap cmd, hparse, ?_⟩
  refine ⟨fun hltr => hltr.reverse_eq hl, fun hrev => ?_⟩
  obtain ⟨ops, π', hcalls, hopened, hfds⟩ := calls_of_redirs rs cmd l π hl
  refine ⟨ops, π', hcalls, hopened.trans hrev, fun fd hfd => ?_⟩
  obtain ⟨op, rfl⟩ : ∃ op : RedirOp, fd = op.fd := by
    obtain rfl | rfl : fd = 0 ∨ fd = 1 := by omega
    · exact ⟨.input, rfl⟩
    · exact ⟨.output, rfl⟩
  have hlast : (last op.fd rs).map Redir.args = (first op.fd rs).map Redir.args := by
    rw [last, args_first, args_first, List.map_reverse, hrev]
  rw [hlast]
  exact hfds op.fd

/-- The process that the shell forks for a line. -/
def shell : Local := ⟨stdWires.fds, 0, 0⟩

theorem shell_wired : shell.Wired := ⟨_, _, _, rfl⟩

/-- `c < a > b < a`, with the letters as words. -/
theorem a_and_b_and_a : ∃ t, parseexec (tokenLexer Word) 40
        [.word [99], .sym .lt, .word [97], .sym .gt, .word [98], .sym .lt, .word [97]] = .ok t [] ∧
      LeftToRight [⟨.input, [97]⟩, ⟨.output, [98]⟩, ⟨.input, [97]⟩] (.EXEC [[99]]) t [] shell := by
  obtain ⟨t, hparse, hiff⟩ := redirections_are_left_to_right_iff (n := 40)
    (.simple [] [⟨[99], [⟨.input, [97]⟩, ⟨.output, [98]⟩, ⟨.input, [97]⟩]⟩] (by decide))
    (Or.inl rfl) (by decide) shell_wired []
  exact ⟨t, hparse, hiff.mpr rfl⟩

/-- The tree of `c < a < b`. -/
def aThenB : Cmd Word := .REDIR (.REDIR (.EXEC [[99]]) [97] O_RDONLY 0) [98] O_RDONLY 0

/-- `c < a < b` opens `b` first, and reads from `a`. -/
theorem a_and_b :
    parseexec (tokenLexer Word) 30 [.word [99], .sym .lt, .word [97], .sym .lt, .word [98]] =
      .ok aThenB [] ∧
    runcmd aThenB [] = [.close 0, .open [98] O_RDONLY [], .close 0, .open [97] O_RDONLY [.cmd],
      .exec [[99]] [.cmd, .cmd], .exit] ∧
    ((runcmd aThenB []).foldl Local.call shell).fds[0]? = some (some (.file [97] O_RDONLY [.cmd])) ∧
    ¬ LeftToRight [⟨.input, [97]⟩, ⟨.input, [98]⟩] (.EXEC [[99]]) aThenB [] shell := by
  refine ⟨rfl, rfl, rfl, fun h => ?_⟩
  have hrev := LeftToRight.reverse_eq h shell_wired
  exact absurd hrev (by decide)

end xv6.sh
