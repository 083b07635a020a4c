-- The parser of sh.c: gettoken and peek over a string, and the recursive descent over them. The
-- descent is written over any source of tokens, so that one can also run it on a list of tokens.
import Mathlib.Data.List.TakeWhile
import Xv6.Params
import Xv6.Refine

open WP refine

namespace xv6.sh

abbrev MAXARGS : Nat := 10

/-- A character of `symbols`. -/
inductive Sym where
  | lt
  | pipe
  | gt
  | amp
  | semi
  | lparen
  | rparen
  deriving DecidableEq

/-- What `gettoken` returns: a symbol, `+` for `>>`, or `a` with the word from `q` to `eq`. -/
inductive Tok (ω : Type) where
  | sym (c : Sym)
  | append
  | word (w : ω)
  deriving DecidableEq

/-- A parsed command. -/
inductive Cmd (ω : Type) where
  | EXEC (argv : List ω)
  | REDIR (cmd : Cmd ω) (file : ω) (mode fd : Nat)
  | PIPE (left right : Cmd ω)
  | LIST (left right : Cmd ω)
  | BACK (cmd : Cmd ω)
  deriving DecidableEq

inductive Stop where
  | panic (msg : String)
  /-- the turns of the model are used up -/
  | fuel
  deriving DecidableEq

/-- A source of tokens: a cursor with `gettoken` and `peek`. -/
structure Lexer (σ ω : Type) where
  gettoken : σ → Option (Tok ω) × σ
  peek : List Sym → σ → Bool × σ

abbrev ParseM (σ : Type) := EStateM Stop σ

/-! ## The descent -/

/-- `cmd->argv[argc] = q` for the EXEC command inside the redirections. -/
def Cmd.addArg {ω : Type} (q : ω) : Cmd ω → Cmd ω
  | .EXEC argv => .EXEC (argv ++ [q])
  | .REDIR cmd file mode fd => .REDIR (cmd.addArg q) file mode fd
  | cmd => cmd

section Parser

variable {σ ω : Type} (lx : Lexer σ ω)

def gettoken : ParseM σ (Option (Tok ω)) := fun s => .ok (lx.gettoken s).1 (lx.gettoken s).2

def peek (toks : List Sym) : ParseM σ Bool := fun s => .ok (lx.peek toks s).1 (lx.peek toks s).2

/-- The loop makes at most `n` turns. -/
def parseredirs : Nat → Cmd ω → ParseM σ (Cmd ω)
  | 0, _ => throw .fuel
  | n + 1, cmd => do
    if ← peek lx [.lt, .gt] then
      let tok ← gettoken lx
      match ← gettoken lx with
      | some (.word file) =>
        match tok with
        | some (.sym .lt) => parseredirs n (.REDIR cmd file O_RDONLY 0)
        | some (.sym .gt) => parseredirs n (.REDIR cmd file (O_WRONLY ||| O_CREATE) 1)
        | some .append => parseredirs n (.REDIR cmd file (O_WRONLY ||| O_CREATE) 1)
        | _ => parseredirs n cmd
      | _ => throw (.panic "missing file for redirection")
    else pure cmd

/-- The loop of `parseexec`, with `argc` words so far. -/
def parseargs : Nat → Nat → Cmd ω → ParseM σ (Cmd ω)
  | 0, _, _ => throw .fuel
  | n + 1, argc, ret => do
    if ← peek lx [.pipe, .rparen, .amp, .semi] then pure ret
    else
      match ← gettoken lx with
      | none => pure ret
      | some (.word q) =>
        if argc + 1 ≥ MAXARGS then throw (.panic "too many args")
        else
          let ret ← parseredirs lx n (ret.addArg q)
          parseargs n (argc + 1) ret
      | some _ => throw (.panic "syntax")

/-- The loop of `parseline`. -/
def parsebacks : Nat → Cmd ω → ParseM σ (Cmd ω)
  | 0, _ => throw .fuel
  | n + 1, cmd => do
    if ← peek lx [.amp] then
      let _ ← gettoken lx
      parsebacks n (.BACK cmd)
    else pure cmd

mutual

def parseline : Nat → ParseM σ (Cmd ω)
  | 0 => throw .fuel
  | n + 1 => do
    let cmd ← parsepipe n
    let cmd ← parsebacks lx n cmd
    if ← peek lx [.semi] then
      let _ ← gettoken lx
      let right ← parseline n
      pure (.LIST cmd right)
    else pure cmd

def parsepipe : Nat → ParseM σ (Cmd ω)
  | 0 => throw .fuel
  | n + 1 => do
    let cmd ← parseexec n
    if ← peek lx [.pipe] then
      let _ ← gettoken lx
      let right ← parsepipe n
      pure (.PIPE cmd right)
    else pure cmd

def parseexec : Nat → ParseM σ (Cmd ω)
  | 0 => throw .fuel
  | n + 1 => do
    if ← peek lx [.lparen] then parseblock n
    else
      let ret ← parseredirs lx n (.EXEC [])
      parseargs lx n 0 ret

def parseblock : Nat → ParseM σ (Cmd ω)
  | 0 => throw .fuel
  | n + 1 => do
    if ¬ (← peek lx [.lparen]) then throw (.panic "parseblock")
    else
      let _ ← gettoken lx
      let cmd ← parseline n
      if ¬ (← peek lx [.rparen]) then throw (.panic "syntax - missing )")
      else
        let _ ← gettoken lx
        parseredirs lx n cmd

end

end Parser

/-! ## Strings -/

/-- The byte of an ASCII character. -/
def chr (c : Char) : UInt8 := UInt8.ofNat c.toNat

def whitespace : List UInt8 := [chr ' ', chr '\t', chr '\r', chr '\n', 11]

def isSpace (x : UInt8) : Bool := whitespace.contains x

/-- The symbol that a character is. -/
def symbol (x : UInt8) : Option Sym :=
  if x = chr '<' then some .lt
  else if x = chr '|' then some .pipe
  else if x = chr '>' then some .gt
  else if x = chr '&' then some .amp
  else if x = chr ';' then some .semi
  else if x = chr '(' then some .lparen
  else if x = chr ')' then some .rparen
  else none

/-- A character of a word: neither whitespace nor a symbol. -/
def isWord (x : UInt8) : Bool := !isSpace x && (symbol x).isNone

/-- A pointer into the string `s`: what is left of it from there on. -/
structure Cursor (s : List UInt8) where
  left : List UInt8
  suffix : left <:+ s

/-- The two pointers `q` and `eq` to the ends of a word. -/
structure Span (s : List UInt8) where
  word : List UInt8
  /-- what is left after the word -/
  eq : List UInt8
  suffix : word ++ eq <:+ s
  chars : ∀ x ∈ word, isWord x = true
  stop : ∀ x, eq.head? = some x → isWord x = false

section Scanner

variable {s : List UInt8}

/-- `while(s < es && strchr(whitespace, *s)) s++`. -/
def Cursor.skip (c : Cursor s) : Cursor s :=
  ⟨c.left.dropWhile isSpace, (List.dropWhile_suffix isSpace).trans c.suffix⟩

def Cursor.drop (c : Cursor s) (n : Nat) : Cursor s :=
  ⟨c.left.drop n, (List.drop_suffix n c.left).trans c.suffix⟩

/-- The loop over the characters of a word, from its first one on. -/
def Cursor.span (c : Cursor s) : Span s where
  word := c.left.takeWhile isWord
  eq := c.left.dropWhile isWord
  suffix := by
    rw [List.takeWhile_append_dropWhile]
    exact c.suffix
  chars := fun _ h => List.mem_takeWhile_imp h
  stop := by
    intro x hx
    have h := List.head?_dropWhile_not isWord c.left
    rw [hx] at h
    simpa using h

def Span.after (w : Span s) : Cursor s := ⟨w.eq, (List.suffix_append w.word w.eq).trans w.suffix⟩

def Cursor.gettoken (c : Cursor s) : Option (Tok (Span s)) × Cursor s :=
  let c := c.skip
  match c.left with
  | [] => (none, c)
  | x :: xs =>
    match symbol x with
    | some .gt =>
      if xs.head?.bind symbol = some .gt then (some .append, (c.drop 2).skip)
      else (some (.sym .gt), (c.drop 1).skip)
    | some k => (some (.sym k), (c.drop 1).skip)
    | none => (some (.word c.span), c.span.after.skip)

/-- `*s && strchr(toks, *s)` after the whitespace. -/
def Cursor.peek (toks : List Sym) (c : Cursor s) : Bool × Cursor s :=
  let c := c.skip
  match c.left.head?.bind symbol with
  | some k => (decide (k ∈ toks), c)
  | none => (false, c)

def stringLexer (s : List UInt8) : Lexer (Cursor s) (Span s) := ⟨Cursor.gettoken, Cursor.peek⟩

end Scanner

/-! ## parsecmd -/

/-- The command with other words. -/
def Cmd.map {ω ω' : Type} (f : ω → ω') : Cmd ω → Cmd ω'
  | .EXEC argv => .EXEC (argv.map f)
  | .REDIR cmd file mode fd => .REDIR (cmd.map f) (f file) mode fd
  | .PIPE left right => .PIPE (left.map f) (right.map f)
  | .LIST left right => .LIST (left.map f) (right.map f)
  | .BACK cmd => .BACK (cmd.map f)

/-- `*eq = 0` in the buffer that holds `s`. -/
def cut {s : List UInt8} (buf : List UInt8) (w : Span s) : List UInt8 :=
  buf.set (s.length - w.eq.length) 0

/-- NUL-terminate all the counted strings. -/
def nulterminate {s : List UInt8} : Cmd (Span s) → List UInt8 → List UInt8
  | .EXEC argv, buf => argv.foldl cut buf
  | .REDIR cmd file _ _, buf => cut (nulterminate cmd buf) file
  | .PIPE left right, buf => nulterminate right (nulterminate left buf)
  | .LIST left right, buf => nulterminate right (nulterminate left buf)
  | .BACK cmd, buf => nulterminate cmd buf

/-- The string that the pointer `q` of a word points to in the buffer. -/
def cstring {s : List UInt8} (buf : List UInt8) (w : Span s) : List UInt8 :=
  (buf.drop (s.length - (w.word ++ w.eq).length)).takeWhile (· ≠ 0)

/-- Parse the string `s`, with at most `n` calls inside each other. The words of the result are the
strings in the buffer when `nulterminate` has cut them. -/
def parsecmd (n : Nat) (s : List UInt8) : Except Stop (Cmd (List UInt8)) :=
  match parseline (stringLexer s) n ⟨s, List.suffix_rfl⟩ with
  | .error e _ => .error e
  | .ok cmd c =>
    -- leftovers
    if (c.peek []).2.left ≠ [] then .error (.panic "syntax")
    else .ok (cmd.map (cstring (nulterminate cmd (s ++ [0]))))

end xv6.sh
