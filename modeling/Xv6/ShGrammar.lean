-- The grammar of sh.c over tokens, and what the descent does on a list of tokens: it accepts
-- exactly the sentences of the grammar, with the tree of the derivation.
import Xv6.Sh

open List WP refine

namespace xv6.sh

variable {ω : Type}

/-! ## The grammar -/

/-- The operator of a redirection. -/
inductive RedirOp where
  | input
  | output
  | append

/-- `redir ::= ('<' | '>' | '>>') word`. -/
structure Redir (ω : Type) where
  op : RedirOp
  file : ω

def RedirOp.tok : RedirOp → Tok ω
  | .input => .sym .lt
  | .output => .sym .gt
  | .append => .append

def Redir.toks (r : Redir ω) : List (Tok ω) := [r.op.tok, .word r.file]

/-- The command with a redirection around it. -/
def Redir.wrap (cmd : Cmd ω) (r : Redir ω) : Cmd ω :=
  match r.op with
  | .input => .REDIR cmd r.file O_RDONLY 0
  | _ => .REDIR cmd r.file (O_WRONLY ||| O_CREATE) 1

/-- A word of a simple command, and the redirections after it. -/
structure Arg (ω : Type) where
  word : ω
  redirs : List (Redir ω)

def Arg.toks (a : Arg ω) : List (Tok ω) := .word a.word :: a.redirs.flatMap Redir.toks

inductive Nonterminal where
  | line
  | pipe
  | cmd

/-- The command with `k` times `&` after it. -/
def Cmd.backs (cmd : Cmd ω) : Nat → Cmd ω
  | 0 => cmd
  | k + 1 => (Cmd.BACK cmd).backs k

/-- The sentences of each nonterminal, with their trees. -/
inductive Derives : Nonterminal → List (Tok ω) → Cmd ω → Prop where
  /-- `line ::= pipe '&'*` -/
  | line {ts t} (k : Nat) : Derives .pipe ts t →
      Derives .line (ts ++ List.replicate k (.sym .amp)) (t.backs k)
  /-- `line ::= pipe '&'* ';' line` -/
  | list {ts us t u} (k : Nat) : Derives .pipe ts t → Derives .line us u →
      Derives .line (ts ++ (List.replicate k (.sym .amp) ++ .sym .semi :: us))
        (.LIST (t.backs k) u)
  /-- `pipe ::= cmd` -/
  | single {ts t} : Derives .cmd ts t → Derives .pipe ts t
  /-- `pipe ::= cmd '|' pipe` -/
  | pipe {ts us t u} : Derives .cmd ts t → Derives .pipe us u →
      Derives .pipe (ts ++ .sym .pipe :: us) (.PIPE t u)
  /-- `cmd ::= '(' line ')' redir*` -/
  | block {ts t} (rs : List (Redir ω)) : Derives .line ts t →
      Derives .cmd (.sym .lparen :: (ts ++ .sym .rparen :: rs.flatMap Redir.toks))
        (rs.foldl Redir.wrap t)
  /-- `cmd ::= redir* (word redir*)*`, with fewer than MAXARGS words -/
  | simple (rs : List (Redir ω)) (args : List (Arg ω)) : args.length < MAXARGS →
      Derives .cmd (rs.flatMap Redir.toks ++ args.flatMap Arg.toks)
        ((rs ++ args.flatMap Arg.redirs).foldl Redir.wrap (.EXEC (args.map Arg.word)))

/-! ## Lists of tokens -/

/-- The symbol that a token begins with. -/
def Tok.first : Tok ω → Option Sym
  | .sym c => some c
  | .append => some .gt
  | .word _ => none

/-- The first token is one of these symbols. -/
def starts (toks : List Sym) (ts : List (Tok ω)) : Bool :=
  match ts.head?.bind Tok.first with
  | some k => decide (k ∈ toks)
  | none => false

def tokenLexer (ω : Type) : Lexer (List (Tok ω)) ω where
  gettoken ts := (ts.head?, ts.tail)
  peek toks ts := (starts toks ts, ts)

section Specs

variable {Q : Cmd ω → List (Tok ω) → Prop} {E : Stop → List (Tok ω) → Prop}
  {ts us : List (Tok ω)} {t : Cmd ω}

theorem spec_gettoken {Q : Option (Tok ω) → List (Tok ω) → Prop} :
    spec (gettoken (tokenLexer ω)) ts Q E ↔ Q ts.head? ts.tail := by
  unfold spec
  rfl

theorem spec_peek {toks : List Sym} {Q : Bool → List (Tok ω) → Prop} :
    spec (peek (tokenLexer ω) toks) ts Q E ↔ Q (starts toks ts) ts := by
  unfold spec
  rfl

@[simp] theorem starts_nil (toks : List Sym) : starts toks ([] : List (Tok ω)) = false := rfl

@[simp] theorem starts_sym (toks : List Sym) (c : Sym) (ts : List (Tok ω)) :
    starts toks (.sym c :: ts) = decide (c ∈ toks) := rfl

@[simp] theorem starts_append (toks : List Sym) (ts : List (Tok ω)) :
    starts toks (.append :: ts) = decide (Sym.gt ∈ toks) := rfl

@[simp] theorem starts_word (toks : List Sym) (w : ω) (ts : List (Tok ω)) :
    starts toks (.word w :: ts) = false := rfl

/-- A list that starts with a symbol other than `>` has that symbol. -/
theorem starts_singleton {c : Sym} (hc : c ≠ .gt) (h : starts [c] ts = true) :
    ∃ us, ts = .sym c :: us := by
  cases ts with
  | nil => cases h
  | cons x us =>
    cases x with
    | sym d =>
      have : d = c := by simpa using h
      exact ⟨us, by rw [this]⟩
    | append => exact absurd (by simpa using h : Sym.gt = c).symm hc
    | word w => cases h

/-! ## The loops -/

/-- What `parseredirs` reads. -/
theorem parseredirs_sound (n : Nat) : ∀ (ts : List (Tok ω)) (cmd : Cmd ω), ts.length < n →
      spec (parseredirs (tokenLexer ω) n cmd) ts
        (fun t us => ∃ rs : List (Redir ω), ts = rs.flatMap Redir.toks ++ us ∧
          t = rs.foldl Redir.wrap cmd) (fun e _ => e ≠ .fuel) := by
  induction n with
  | zero => exact fun _ _ h => absurd h (Nat.not_lt_zero _)
  | succ n ih =>
    intro ts cmd hn
    -- one redirection, and those after it
    have hstep : ∀ (op : RedirOp) (file : ω) (us : List (Tok ω)), ts = op.tok :: .word file :: us →
        spec (parseredirs (tokenLexer ω) n (Redir.wrap cmd ⟨op, file⟩)) us
          (fun t us => ∃ rs : List (Redir ω), ts = rs.flatMap Redir.toks ++ us ∧
            t = rs.foldl Redir.wrap cmd) (fun e _ => e ≠ .fuel) := by
      rintro op file us rfl
      refine spec_mono (ih us _ (by simp only [length_cons] at hn; omega)) ?_ fun _ _ h => h
      rintro t vs ⟨rs, rfl, rfl⟩
      exact ⟨⟨op, file⟩ :: rs, rfl, rfl⟩
    rw [parseredirs, spec_bind, spec_peek, spec_ite]
    refine ⟨fun hs => ?_, fun _ => (spec_pure _).mpr ⟨[], rfl, rfl⟩⟩
    rw [spec_bind, spec_gettoken, spec_bind, spec_gettoken]
    cases ts with
    | nil => cases hs
    | cons x us =>
      simp only [List.head?_cons, tail_cons]
      cases us with
      | nil => exact (spec_throw _).mpr (by decide)
      | cons y us =>
        cases y with
        | sym _ | append => exact (spec_throw _).mpr (by decide)
        | word file =>
          simp only [List.head?_cons, tail_cons]
          cases x with
          | append => exact hstep .append file us rfl
          | word w => cases hs
          | sym c =>
            cases c with
            | lt => exact hstep .input file us rfl
            | gt => exact hstep .output file us rfl
            | _ => cases hs

theorem wrap_addArg (cmd : Cmd ω) (r : Redir ω) (q : ω) :
    (r.wrap cmd).addArg q = r.wrap (cmd.addArg q) := by
  cases r with
  | mk op file => cases op <;> rfl

theorem foldl_wrap_addArg (rs : List (Redir ω)) (cmd : Cmd ω) (q : ω) :
    (rs.foldl Redir.wrap cmd).addArg q = rs.foldl Redir.wrap (cmd.addArg q) := by
  induction rs generalizing cmd with
  | nil => rfl
  | cons r rs ih => rw [foldl_cons, ih, wrap_addArg, foldl_cons]

/-- What the loop of `parseexec` reads, after the words `ws` and the redirections `rs`. -/
theorem parseargs_sound (n : Nat) :
      ∀ (ts : List (Tok ω)) (ws : List ω) (rs : List (Redir ω)), ts.length < n →
      ws.length < MAXARGS →
      spec (parseargs (tokenLexer ω) n ws.length (rs.foldl Redir.wrap (.EXEC ws))) ts
        (fun t us => ∃ args : List (Arg ω), ts = args.flatMap Arg.toks ++ us ∧
          ws.length + args.length < MAXARGS ∧
          t = (rs ++ args.flatMap Arg.redirs).foldl Redir.wrap (.EXEC (ws ++ args.map Arg.word)))
        (fun e _ => e ≠ .fuel) := by
  induction n with
  | zero => exact fun _ _ _ h => absurd h (Nat.not_lt_zero _)
  | succ n ih =>
    intro ts ws rs hn hws
    have hend : ∃ args : List (Arg ω), ts = args.flatMap Arg.toks ++ ts ∧
        ws.length + args.length < MAXARGS ∧ rs.foldl Redir.wrap (.EXEC ws) =
          (rs ++ args.flatMap Arg.redirs).foldl Redir.wrap (.EXEC (ws ++ args.map Arg.word)) :=
      ⟨[], rfl, hws, by simp⟩
    rw [parseargs, spec_bind, spec_peek, spec_ite]
    refine ⟨fun _ => (spec_pure _).mpr hend, fun _ => ?_⟩
    rw [spec_bind, spec_gettoken]
    cases ts with
    | nil => exact (spec_pure _).mpr hend
    | cons x us =>
      simp only [List.head?_cons, tail_cons]
      cases x with
      | sym c | append => exact (spec_throw _).mpr (by decide)
      | word w =>
        have hus : us.length < n := by simpa using hn
        simp only [spec_ite, spec_throw]
        refine ⟨fun _ => by decide, fun hargc => ?_⟩
        rw [spec_bind, foldl_wrap_addArg]
        refine spec_mono (parseredirs_sound n us _ hus) ?_ fun _ _ h => h
        rintro t vs ⟨rs', rfl, rfl⟩
        have hlen : vs.length < n := by
          rw [length_append] at hus
          omega
        have hnext := ih vs (ws ++ [w]) (rs ++ rs') hlen (by simpa using hargc)
        rw [length_append, length_singleton, foldl_append] at hnext
        refine spec_mono hnext ?_ fun _ _ h => h
        rintro t us ⟨args, rfl, hcount, rfl⟩
        refine ⟨⟨w, rs'⟩ :: args, ?_, by simpa [Nat.add_assoc, Nat.add_comm 1] using hcount, ?_⟩
        · simp [Arg.toks]
        · simp

/-- What the loop of `parseline` reads. -/
theorem parsebacks_sound (n : Nat) : ∀ (ts : List (Tok ω)) (cmd : Cmd ω), ts.length < n →
      spec (parsebacks (tokenLexer ω) n cmd) ts
        (fun t us => ∃ k, ts = List.replicate k (.sym .amp) ++ us ∧ t = cmd.backs k)
        (fun e _ => e ≠ .fuel) := by
  induction n with
  | zero => exact fun _ _ h => absurd h (Nat.not_lt_zero _)
  | succ n ih =>
    intro ts cmd hn
    rw [parsebacks, spec_bind, spec_peek, spec_ite]
    refine ⟨fun hs => ?_, fun _ => (spec_pure _).mpr ⟨0, rfl, rfl⟩⟩
    obtain ⟨us, rfl⟩ := starts_singleton (by decide) hs
    rw [spec_bind, spec_gettoken]
    refine spec_mono (ih us _ (by simpa using hn)) ?_ fun _ _ h => h
    rintro t vs ⟨k, rfl, rfl⟩
    exact ⟨k + 1, rfl, rfl⟩

/-! ## Soundness -/

/-- The call reads a sentence of `a` from the list and returns its tree, or it panics. -/
def Parses (x : ParseM (List (Tok ω)) (Cmd ω)) (a : Nonterminal) (ts : List (Tok ω)) : Prop :=
  spec x ts (fun t us => ∃ pre, ts = pre ++ us ∧ Derives a pre t) (fun e _ => e ≠ .fuel)

/-- Four calls deep there is a token fewer. -/
structure Sound (ω : Type) (n : Nat) : Prop where
  line : ∀ ts : List (Tok ω), 4 * ts.length + 4 ≤ n → Parses (parseline (tokenLexer ω) n) .line ts
  pipe : ∀ ts : List (Tok ω), 4 * ts.length + 3 ≤ n → Parses (parsepipe (tokenLexer ω) n) .pipe ts
  exec : ∀ ts : List (Tok ω), 4 * ts.length + 2 ≤ n → Parses (parseexec (tokenLexer ω) n) .cmd ts
  block : ∀ ts : List (Tok ω), 4 * ts.length + 1 ≤ n → starts [.lparen] ts = true →
    Parses (parseblock (tokenLexer ω) n) .cmd ts

section Sound

variable {n : Nat}

theorem Sound.parseline (h : Sound ω n) (ts : List (Tok ω)) (hn : 4 * ts.length + 4 ≤ n + 1) :
    Parses (parseline (tokenLexer ω) (n + 1)) .line ts := by
  unfold Parses
  rw [sh.parseline, spec_bind]
  refine spec_mono (h.pipe ts (by omega)) ?_ fun _ _ he => he
  rintro t us ⟨pre, rfl, ht⟩
  rw [length_append] at hn
  rw [spec_bind]
  refine spec_mono (parsebacks_sound n us t (by omega)) ?_ fun _ _ he => he
  rintro t' vs ⟨k, rfl, rfl⟩
  rw [length_append] at hn
  rw [spec_bind, spec_peek, spec_ite]
  refine ⟨fun hs => ?_, fun _ => (spec_pure _).mpr ⟨_, ?_, ht.line k⟩⟩
  · obtain ⟨us, rfl⟩ := starts_singleton (by decide) hs
    rw [length_cons] at hn
    rw [spec_bind, spec_gettoken, spec_bind]
    refine spec_mono (h.line us (by omega)) ?_ fun _ _ he => he
    rintro u vs ⟨pre', rfl, hu⟩
    exact (spec_pure _).mpr ⟨_, by simp, ht.list k hu⟩
  · simp

theorem Sound.parsepipe (h : Sound ω n) (ts : List (Tok ω)) (hn : 4 * ts.length + 3 ≤ n + 1) :
    Parses (parsepipe (tokenLexer ω) (n + 1)) .pipe ts := by
  unfold Parses
  rw [sh.parsepipe, spec_bind]
  refine spec_mono (h.exec ts (by omega)) ?_ fun _ _ he => he
  rintro t us ⟨pre, rfl, ht⟩
  rw [length_append] at hn
  rw [spec_bind, spec_peek, spec_ite]
  refine ⟨fun hs => ?_, fun _ => (spec_pure _).mpr ⟨pre, rfl, ht.single⟩⟩
  obtain ⟨us, rfl⟩ := starts_singleton (by decide) hs
  rw [length_cons] at hn
  rw [spec_bind, spec_gettoken, spec_bind]
  refine spec_mono (h.pipe us (by omega)) ?_ fun _ _ he => he
  rintro u vs ⟨pre', rfl, hu⟩
  exact (spec_pure _).mpr ⟨_, by simp, ht.pipe hu⟩

theorem Sound.parseexec (h : Sound ω n) (ts : List (Tok ω)) (hn : 4 * ts.length + 2 ≤ n + 1) :
    Parses (parseexec (tokenLexer ω) (n + 1)) .cmd ts := by
  unfold Parses
  rw [sh.parseexec, spec_bind, spec_peek, spec_ite]
  refine ⟨fun hs => h.block ts (by omega) hs, fun _ => ?_⟩
  rw [spec_bind]
  refine spec_mono (parseredirs_sound n ts _ (by omega)) ?_ fun _ _ he => he
  rintro t us ⟨rs, rfl, rfl⟩
  rw [length_append] at hn
  refine spec_mono (parseargs_sound n us [] rs (by omega) (Nat.zero_lt_succ _)) ?_ fun _ _ he => he
  rintro t vs ⟨args, rfl, hcount, rfl⟩
  exact ⟨_, by rw [append_assoc], .simple rs args (by simpa using hcount)⟩

theorem Sound.parseblock (h : Sound ω n) (ts : List (Tok ω)) (hn : 4 * ts.length + 1 ≤ n + 1)
    (hs : starts [.lparen] ts = true) : Parses (parseblock (tokenLexer ω) (n + 1)) .cmd ts := by
  obtain ⟨us, rfl⟩ := starts_singleton (by decide) hs
  rw [length_cons] at hn
  unfold Parses
  rw [sh.parseblock, spec_bind, spec_peek, if_neg (not_not.mpr hs), spec_bind,
    spec_gettoken, spec_bind]
  refine spec_mono (h.line us (by omega)) ?_ fun _ _ he => he
  rintro t vs ⟨pre, rfl, ht⟩
  rw [spec_bind, spec_peek, spec_ite]
  refine ⟨fun _ => (spec_throw _).mpr (by decide), fun hr => ?_⟩
  obtain ⟨us, rfl⟩ := starts_singleton (by decide) (not_not.mp hr)
  rw [length_append, length_cons] at hn
  rw [spec_bind, spec_gettoken]
  refine spec_mono (parseredirs_sound n us t (by omega)) ?_ fun _ _ he => he
  rintro u vs ⟨rs, rfl, rfl⟩
  exact ⟨_, by simp, ht.block rs⟩

theorem sound (ω : Type) (n : Nat) : Sound ω n := by
  induction n with
  | zero => exact ⟨fun _ h => by omega, fun _ h => by omega, fun _ h => by omega,
      fun _ h => by omega⟩
  | succ n ih => exact ⟨ih.parseline, ih.parsepipe, ih.parseexec, ih.parseblock⟩

end Sound

/-! ## Completeness -/

/-- The symbols that can come after a sentence. -/
def Nonterminal.follow : Nonterminal → List Sym
  | .line => [.rparen]
  | .pipe => [.amp, .semi, .rparen]
  | .cmd => [.pipe, .rparen, .amp, .semi]

/-- The list goes on with something that can come after a sentence of `a`. -/
def Ends (a : Nonterminal) (rest : List (Tok ω)) : Prop := rest = [] ∨ starts a.follow rest = true

theorem Ends.not_starts {a : Nonterminal} {rest : List (Tok ω)} (h : Ends a rest)
    {toks : List Sym} (hd : ∀ k ∈ toks, k ∉ a.follow) : starts toks rest = false := by
  rcases h with rfl | h
  · rfl
  · unfold starts at *
    cases hk : rest.head?.bind Tok.first with
    | none => rfl
    | some k =>
      grind

/-- The call reads these tokens, and no more, and returns this tree. -/
def Consumes (x : ParseM (List (Tok ω)) (Cmd ω)) (ts rest : List (Tok ω)) (t : Cmd ω) : Prop :=
  spec x (ts ++ rest) (fun t' us => t' = t ∧ us = rest) (fun _ _ => False)

theorem length_redirs (rs : List (Redir ω)) : rs.length ≤ (rs.flatMap Redir.toks).length := by
  simp [length_flatMap, Redir.toks]
  omega

theorem parseredirs_complete (rs : List (Redir ω)) :
    ∀ (n : Nat) (cmd : Cmd ω) (rest : List (Tok ω)), starts [.lt, .gt] rest = false →
      rs.length < n → Consumes (parseredirs (tokenLexer ω) n cmd) (rs.flatMap Redir.toks) rest
      (rs.foldl Redir.wrap cmd) := by
  induction rs with
  | nil =>
    intro n cmd rest hrest hn
    obtain ⟨n, rfl⟩ : ∃ m, n = m + 1 := ⟨n - 1, by omega⟩
    unfold Consumes
    rw [flatMap_nil, nil_append, parseredirs, spec_bind, spec_peek, hrest]
    exact (spec_pure _).mpr ⟨rfl, rfl⟩
  | cons r rs ih =>
    intro n cmd rest hrest hn
    obtain ⟨n, rfl⟩ : ∃ m, n = m + 1 := ⟨n - 1, by omega⟩
    have hnext := ih n (r.wrap cmd) rest hrest (by simpa using hn)
    obtain ⟨op, file⟩ := r
    unfold Consumes
    rw [parseredirs, spec_bind, spec_peek, spec_ite]
    have hs : starts [.lt, .gt] ((⟨op, file⟩ :: rs).flatMap Redir.toks ++ rest) = true := by
      cases op <;> rfl
    refine ⟨fun _ => ?_, fun hno => absurd hs hno⟩
    rw [spec_bind, spec_gettoken, spec_bind, spec_gettoken]
    cases op <;> exact hnext

theorem parseargs_complete (args : List (Arg ω)) :
    ∀ (n argc : Nat) (cmd : Cmd ω) (rest : List (Tok ω)), Ends .cmd rest →
      argc + args.length < MAXARGS → (args.flatMap Arg.toks).length < n →
      Consumes (parseargs (tokenLexer ω) n argc cmd) (args.flatMap Arg.toks) rest
        (args.foldl (fun c a => a.redirs.foldl Redir.wrap (c.addArg a.word)) cmd) := by
  induction args with
  | nil =>
    intro n argc cmd rest hrest _ hn
    obtain ⟨n, rfl⟩ : ∃ m, n = m + 1 := ⟨n - 1, by omega⟩
    unfold Consumes
    rw [flatMap_nil, nil_append, parseargs, spec_bind, spec_peek, spec_ite]
    refine ⟨fun _ => (spec_pure _).mpr ⟨rfl, rfl⟩, fun hno => ?_⟩
    rcases hrest with rfl | hs
    · rw [spec_bind, spec_gettoken]
      exact (spec_pure _).mpr ⟨rfl, rfl⟩
    · exact absurd hs hno
  | cons a args ih =>
    intro n argc cmd rest hrest hcount hn
    obtain ⟨n, rfl⟩ : ∃ m, n = m + 1 := ⟨n - 1, by omega⟩
    rw [flatMap_cons] at hn ⊢
    simp only [length_append, Arg.toks, length_cons] at hn hcount
    have hredirs := length_redirs a.redirs
    have hgo : starts [.lt, .gt] (args.flatMap Arg.toks ++ rest) = false := by
      cases args with
      | nil => exact hrest.not_starts (by decide)
      | cons b args => rfl
    unfold Consumes
    rw [parseargs, spec_bind, spec_peek, spec_ite]
    refine ⟨fun hc => Bool.noConfusion hc, fun _ => ?_⟩
    rw [spec_bind, spec_gettoken]
    simp only [Arg.toks, cons_append, List.head?_cons, tail_cons, spec_ite]
    refine ⟨fun hbig => by omega, fun _ => ?_⟩
    rw [spec_bind, append_assoc]
    refine spec_mono (parseredirs_complete a.redirs n (cmd.addArg a.word) _ hgo (by omega)) ?_
      fun _ _ h => h
    rintro t us ⟨rfl, rfl⟩
    exact ih n (argc + 1) _ rest hrest (by omega) (by omega)

/-- The tree of a simple command, built word by word. -/
theorem foldl_args (args : List (Arg ω)) (ws : List ω) (rs : List (Redir ω)) :
    args.foldl (fun c a => a.redirs.foldl Redir.wrap (c.addArg a.word))
      (rs.foldl Redir.wrap (.EXEC ws)) =
      (rs ++ args.flatMap Arg.redirs).foldl Redir.wrap (.EXEC (ws ++ args.map Arg.word)) := by
  induction args generalizing ws rs with
  | nil => simp
  | cons a args ih =>
    rw [foldl_cons, foldl_wrap_addArg, ← foldl_append]
    refine (ih (ws ++ [a.word]) (rs ++ a.redirs)).trans ?_
    simp

theorem parsebacks_complete (k : Nat) :
    ∀ (n : Nat) (cmd : Cmd ω) (rest : List (Tok ω)), starts [.amp] rest = false → k < n →
      Consumes (parsebacks (tokenLexer ω) n cmd) (List.replicate k (.sym .amp)) rest
      (cmd.backs k) := by
  induction k with
  | zero =>
    intro n cmd rest hrest hn
    obtain ⟨n, rfl⟩ : ∃ m, n = m + 1 := ⟨n - 1, by omega⟩
    unfold Consumes
    rw [replicate_zero, nil_append, parsebacks, spec_bind, spec_peek, hrest]
    exact (spec_pure _).mpr ⟨rfl, rfl⟩
  | succ k ih =>
    intro n cmd rest hrest hn
    obtain ⟨n, rfl⟩ : ∃ m, n = m + 1 := ⟨n - 1, by omega⟩
    unfold Consumes
    rw [replicate_succ, cons_append, parsebacks, spec_bind, spec_peek, spec_ite]
    refine ⟨fun _ => ?_, fun hno => absurd rfl hno⟩
    rw [spec_bind, spec_gettoken]
    exact ih n (.BACK cmd) rest hrest (by omega)

/-- The function for a nonterminal. -/
def Nonterminal.parse : Nonterminal → Nat → ParseM (List (Tok ω)) (Cmd ω)
  | .line => parseline (tokenLexer ω)
  | .pipe => parsepipe (tokenLexer ω)
  | .cmd => parseexec (tokenLexer ω)

/-- The calls inside each other that a function makes before the first token is gone. -/
def Nonterminal.depth : Nonterminal → Nat
  | .line => 4
  | .pipe => 3
  | .cmd => 2

theorem Ends.starts {a : Nonterminal} {c : Sym} (hc : c ∈ a.follow) (us : List (Tok ω)) :
    Ends a (.sym c :: us) := Or.inr (by simpa using hc)

/-- After a line comes what can come after its last pipe. -/
theorem Ends.pipe_of_line {rest : List (Tok ω)} (h : Ends .line rest) : Ends .pipe rest := by
  rcases h with rfl | h
  · exact Or.inl rfl
  · obtain ⟨us, rfl⟩ := starts_singleton (by decide) h
    exact Ends.starts (by decide) us

theorem Ends.cmd_of_pipe {rest : List (Tok ω)} (h : Ends .pipe rest) : Ends .cmd rest := by
  refine h.imp id fun hs => ?_
  unfold sh.starts at *
  cases hk : rest.head?.bind Tok.first with
  | none =>
    rw [hk] at hs
    cases hs
  | some k =>
    rw [hk] at hs
    simp only [Nonterminal.follow, decide_eq_true_eq, mem_cons, not_mem_nil] at hs ⊢
    tauto

section Productions

variable {n k : Nat} {u : Cmd ω} {rest : List (Tok ω)}

theorem Consumes.single (h : Consumes (parseexec (tokenLexer ω) n) ts rest t)
    (hrest : Ends .pipe rest) : Consumes (parsepipe (tokenLexer ω) (n + 1)) ts rest t := by
  unfold Consumes
  rw [parsepipe, spec_bind]
  refine spec_mono h ?_ fun _ _ he => he
  rintro _ _ ⟨rfl, rfl⟩
  rw [spec_bind, spec_peek, hrest.not_starts (by decide)]
  exact (spec_pure _).mpr ⟨rfl, rfl⟩

theorem Consumes.pipe (h1 : Consumes (parseexec (tokenLexer ω) n) ts (.sym .pipe :: (us ++ rest)) t)
    (h2 : Consumes (parsepipe (tokenLexer ω) n) us rest u) :
    Consumes (parsepipe (tokenLexer ω) (n + 1)) (ts ++ .sym .pipe :: us) rest (.PIPE t u) := by
  unfold Consumes
  rw [append_assoc, cons_append, parsepipe, spec_bind]
  refine spec_mono h1 ?_ fun _ _ he => he
  rintro _ _ ⟨rfl, rfl⟩
  rw [spec_bind, spec_peek, starts_sym]
  simp only [mem_singleton, decide_true, if_true]
  rw [spec_bind, spec_gettoken, spec_bind]
  refine spec_mono h2 ?_ fun _ _ he => he
  rintro _ _ ⟨rfl, rfl⟩
  exact (spec_pure _).mpr ⟨rfl, rfl⟩

theorem Consumes.line (h : Consumes (parsepipe (tokenLexer ω) n) ts
    (List.replicate k (.sym .amp) ++ rest) t) (hk : k < n) (hrest : Ends .line rest) :
    Consumes (parseline (tokenLexer ω) (n + 1)) (ts ++ List.replicate k (.sym .amp)) rest
    (t.backs k) := by
  unfold Consumes
  rw [append_assoc, parseline, spec_bind]
  refine spec_mono h ?_ fun _ _ he => he
  rintro _ _ ⟨rfl, rfl⟩
  rw [spec_bind]
  refine spec_mono (parsebacks_complete k n _ rest (hrest.not_starts (by decide)) hk) ?_
    fun _ _ he => he
  rintro _ _ ⟨rfl, rfl⟩
  rw [spec_bind, spec_peek, hrest.not_starts (by decide)]
  exact (spec_pure _).mpr ⟨rfl, rfl⟩

theorem Consumes.list (h1 : Consumes (parsepipe (tokenLexer ω) n) ts
      (List.replicate k (.sym .amp) ++ .sym .semi :: (us ++ rest)) t)
    (hk : k < n) (h2 : Consumes (parseline (tokenLexer ω) n) us rest u) :
    Consumes (parseline (tokenLexer ω) (n + 1))
      (ts ++ (List.replicate k (.sym .amp) ++ .sym .semi :: us)) rest (.LIST (t.backs k) u) := by
  unfold Consumes
  rw [append_assoc, append_assoc, cons_append, parseline, spec_bind]
  refine spec_mono h1 ?_ fun _ _ he => he
  rintro _ _ ⟨rfl, rfl⟩
  rw [spec_bind]
  refine spec_mono (parsebacks_complete k n _ (.sym .semi :: (us ++ rest)) rfl hk) ?_
    fun _ _ he => he
  rintro _ _ ⟨rfl, rfl⟩
  rw [spec_bind, spec_peek, starts_sym]
  simp only [mem_singleton, decide_true, if_true]
  rw [spec_bind, spec_gettoken, spec_bind]
  refine spec_mono h2 ?_ fun _ _ he => he
  rintro _ _ ⟨rfl, rfl⟩
  exact (spec_pure _).mpr ⟨rfl, rfl⟩

theorem Consumes.block {rs : List (Redir ω)} (h : Consumes (parseline (tokenLexer ω) n) ts
      (.sym .rparen :: (rs.flatMap Redir.toks ++ rest)) t)
    (hrs : rs.length < n) (hrest : Ends .cmd rest) : Consumes (parseexec (tokenLexer ω) (n + 2))
      (.sym .lparen :: (ts ++ .sym .rparen :: rs.flatMap Redir.toks)) rest
      (rs.foldl Redir.wrap t) := by
  unfold Consumes
  rw [cons_append, append_assoc, cons_append, parseexec, spec_bind, spec_peek, starts_sym]
  simp only [mem_singleton, decide_true, if_true]
  rw [parseblock, spec_bind, spec_peek, starts_sym]
  simp only [mem_singleton, decide_true, not_true_eq_false, if_false]
  rw [spec_bind, spec_gettoken, spec_bind]
  refine spec_mono h ?_ fun _ _ he => he
  rintro _ _ ⟨rfl, rfl⟩
  rw [spec_bind, spec_peek, starts_sym]
  simp only [mem_singleton, decide_true, not_true_eq_false, if_false]
  rw [spec_bind, spec_gettoken]
  exact parseredirs_complete rs n _ rest (hrest.not_starts (by decide)) hrs

theorem Consumes.simple {rs : List (Redir ω)} {args : List (Arg ω)} (hcount : args.length < MAXARGS)
    (hn : (rs.flatMap Redir.toks).length + (args.flatMap Arg.toks).length < n)
    (hrest : Ends .cmd rest) : Consumes (parseexec (tokenLexer ω) (n + 1))
      (rs.flatMap Redir.toks ++ args.flatMap Arg.toks) rest
      ((rs ++ args.flatMap Arg.redirs).foldl Redir.wrap (.EXEC (args.map Arg.word))) := by
  have hargs : ∀ toks : List Sym, (∀ k ∈ toks, k ∉ Nonterminal.cmd.follow) →
      starts toks (args.flatMap Arg.toks ++ rest) = false := by
    intro toks htoks
    cases args with
    | nil => exact hrest.not_starts htoks
    | cons a args => rfl
  have hparen : starts [.lparen] (rs.flatMap Redir.toks ++ (args.flatMap Arg.toks ++ rest)) =
      false := by
    cases rs with
    | nil => exact hargs _ (by decide)
    | cons r rs =>
      obtain ⟨op, file⟩ := r
      cases op <;> rfl
  have hrs := length_redirs rs
  unfold Consumes
  rw [append_assoc, parseexec, spec_bind, spec_peek, hparen]
  simp only [Bool.false_eq_true, if_false]
  rw [spec_bind]
  refine spec_mono (parseredirs_complete rs n _ _ (hargs _ (by decide)) (by omega)) ?_
    fun _ _ he => he
  rintro _ _ ⟨rfl, rfl⟩
  have h := parseargs_complete args n 0 (rs.foldl Redir.wrap (.EXEC [])) rest hrest (by omega)
    (by omega)
  rwa [foldl_args] at h

end Productions

theorem complete {a : Nonterminal} {ts : List (Tok ω)} {t : Cmd ω} (h : Derives a ts t) :
    ∀ (n : Nat) (rest : List (Tok ω)), Ends a rest →
      4 * (ts.length + rest.length) + a.depth ≤ n → Consumes (a.parse n) ts rest t := by
  -- in each case the calls inside get one turn fewer, and the tokens before them are gone
  induction h with
  | line k _ ih =>
    intro n rest hrest hn
    simp only [Nonterminal.depth, length_append, length_replicate] at hn ih
    obtain ⟨n, rfl⟩ : ∃ m, n = m + 1 := ⟨n - 1, by omega⟩
    refine Consumes.line (ih n _ ?_ ?_) (by omega) hrest
    · cases k with
      | zero => exact hrest.pipe_of_line
      | succ k => exact Ends.starts (by decide) _
    · grind
  | list k _ _ ih1 ih2 =>
    intro n rest hrest hn
    simp only [Nonterminal.depth, length_append, length_replicate, length_cons] at hn ih1 ih2
    obtain ⟨n, rfl⟩ : ∃ m, n = m + 1 := ⟨n - 1, by omega⟩
    refine Consumes.list (ih1 n _ ?_ ?_) (by omega) (ih2 n rest hrest (by omega))
    · cases k with
      | zero | succ k => exact Ends.starts (by decide) _
    · grind
  | single _ ih =>
    intro n rest hrest hn
    simp only [Nonterminal.depth] at hn ih
    obtain ⟨n, rfl⟩ : ∃ m, n = m + 1 := ⟨n - 1, by omega⟩
    exact Consumes.single (ih n rest hrest.cmd_of_pipe (by omega)) hrest
  | pipe _ _ ih1 ih2 =>
    intro n rest hrest hn
    simp only [Nonterminal.depth, length_append, length_cons] at hn ih1 ih2
    obtain ⟨n, rfl⟩ : ∃ m, n = m + 1 := ⟨n - 1, by omega⟩
    refine Consumes.pipe (ih1 n _ (Ends.starts (by decide) _) ?_) (ih2 n rest hrest (by omega))
    simp only [length_append, length_cons]
    omega
  | block rs _ ih =>
    intro n rest hrest hn
    simp only [Nonterminal.depth, length_append, length_cons] at hn ih
    obtain ⟨n, rfl⟩ : ∃ m, n = m + 2 := ⟨n - 2, by omega⟩
    have hrs := length_redirs rs
    refine Consumes.block (ih n _ (Ends.starts (by decide) _) ?_) (by omega) hrest
    simp only [length_append, length_cons]
    omega
  | simple rs args hcount =>
    intro n rest hrest hn
    simp only [Nonterminal.depth, length_append] at hn
    obtain ⟨n, rfl⟩ : ∃ m, n = m + 1 := ⟨n - 1, by omega⟩
    exact Consumes.simple hcount (by omega) hrest

/-! ## The whole list -/

/-- A list of tokens is read to its end exactly if it is a line of the grammar, and the tree is the
one of the derivation. -/
theorem parseline_iff {n : Nat} (hn : 4 * ts.length + 4 ≤ n) :
    parseline (tokenLexer ω) n ts = .ok t [] ↔ Derives .line ts t := by
  constructor
  · intro hrun
    obtain ⟨pre, hpre, h⟩ := of_spec ((sound ω n).line ts hn) hrun
    rwa [hpre, append_nil]
  · intro h
    have hspec := complete h n [] (Or.inl rfl) (by simpa [Nonterminal.depth] using hn)
    obtain ⟨t', us, hrun, rfl, rfl⟩ := exists_of_spec hspec
    rwa [append_nil] at hrun

end Specs

end xv6.sh
