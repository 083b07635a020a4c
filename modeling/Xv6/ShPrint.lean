-- The printed form of a command of sh.c, and the law of its parser: it accepts exactly its grammar.
import Xv6.ShWords

open List WP refine

namespace xv6.sh

/-! ## The printed form -/

section Print

variable {ω : Type}

/-- How loosely a command binds: a simple command, a pipe, a background command, or a list. -/
def Cmd.level : Cmd ω → Nat
  | .EXEC _ => 0
  | .REDIR .. => 0
  | .PIPE .. => 1
  | .BACK _ => 2
  | .LIST .. => 3

def parens (needed : Bool) (ts : List (Tok ω)) : List (Tok ω) :=
  if needed then .sym .lparen :: (ts ++ [.sym .rparen]) else ts

/-- The tokens of a command, with the parentheses that the grammar asks for. -/
def Cmd.toks : Cmd ω → List (Tok ω)
  | .EXEC argv => argv.map .word
  | .REDIR cmd file _ fd =>
    parens (0 < cmd.level) cmd.toks ++ [if fd = 0 then .sym .lt else .sym .gt, .word file]
  | .PIPE left right =>
    parens (0 < left.level) left.toks ++ .sym .pipe :: parens (1 < right.level) right.toks
  | .LIST left right => parens (2 < left.level) left.toks ++ .sym .semi :: right.toks
  | .BACK cmd => parens (2 < cmd.level) cmd.toks ++ [.sym .amp]

/-- A tree that the parser can return: few words, and the modes of `<` and `>`. -/
def Cmd.Formed : Cmd ω → Prop
  | .EXEC argv => argv.length < MAXARGS
  | .REDIR cmd _ mode fd =>
    cmd.Formed ∧ (mode = O_RDONLY ∧ fd = 0 ∨ mode = O_WRONLY ||| O_CREATE ∧ fd = 1)
  | .PIPE left right => left.Formed ∧ right.Formed
  | .LIST left right => left.Formed ∧ right.Formed
  | .BACK cmd => cmd.Formed

/-- The tokens derive the tree at a level of binding. -/
def At : Nat → List (Tok ω) → Cmd ω → Prop
  | 0, ts, t => Derives .cmd ts t
  | 1, ts, t => Derives .pipe ts t
  | 2, ts, t => ∃ k us u, ts = us ++ List.replicate k (.sym .amp) ∧ t = Cmd.backs u k ∧
      Derives .pipe us u
  | _, ts, t => Derives .line ts t

variable {ts us : List (Tok ω)} {t u : Cmd ω}

theorem At.succ {n : Nat} (h : At n ts t) : At (n + 1) ts t := by
  match n, h with
  | 0, h => exact Derives.single h
  | 1, h => exact ⟨0, ts, t, by simp, rfl, h⟩
  | 2, ⟨k, us, u, hts, ht, h⟩ =>
    rw [hts, ht]
    exact h.line k
  | _ + 3, h => exact h

theorem At.mono {m n : Nat} (h : At m ts t) (hle : m ≤ n) : At n ts t := by
  induction hle with
  | refl => exact h
  | step _ ih => exact ih.succ

theorem Cmd.level_le (t : Cmd ω) : t.level ≤ 3 := by
  cases t <;> simp [Cmd.level]

theorem At.parens (h : At t.level ts t) (n : Nat) : At n (parens (n < t.level) ts) t := by
  by_cases hlt : n < t.level
  · have hline : Derives .line ts t := h.mono t.level_le
    have hblock : At 0 (.sym .lparen :: (ts ++ [.sym .rparen])) t := hline.block []
    simp only [sh.parens, hlt, decide_true, if_true]
    exact hblock.mono (Nat.zero_le n)
  · simp only [sh.parens, hlt, decide_false, Bool.false_eq_true, if_false]
    exact h.mono (by omega)

theorem Cmd.backs_succ (t : Cmd ω) (k : Nat) : t.backs (k + 1) = .BACK (t.backs k) := by
  induction k generalizing t with
  | zero => rfl
  | succ k ih => exact ih (.BACK t)

/-- A redirection after a command goes around its tree. -/
theorem Derives.redir (h : Derives .cmd ts t) (r : Redir ω) :
    Derives .cmd (ts ++ r.toks) (r.wrap t) := by
  cases h with
  | block rs h =>
    have := h.block (rs ++ [r])
    simpa using this
  | simple rs args hcount =>
    rcases eq_nil_or_concat args with rfl | ⟨init, a, rfl⟩
    · have := Derives.simple (rs ++ [r]) [] hcount
      simpa using this
    · have := Derives.simple rs (init ++ [⟨a.word, a.redirs ++ [r]⟩]) (by simpa using hcount)
      simpa [Arg.toks] using this

theorem Cmd.toks_derives (h : t.Formed) : At t.level t.toks t := by
  induction t with
  | EXEC argv =>
    have hargs : (argv.map fun w => (⟨w, []⟩ : Arg ω)).flatMap Arg.redirs = [] := by
      simp [flatMap_eq_nil_iff]
    have hwords : (argv.map fun w => (⟨w, []⟩ : Arg ω)).map Arg.word = argv := by
      simp [Function.comp_def]
    have hderives := Derives.simple [] (argv.map fun w => (⟨w, []⟩ : Arg ω))
      (by simpa [Cmd.Formed] using h)
    rw [hargs, hwords] at hderives
    simpa [At, Cmd.level, Cmd.toks, flatMap_map, Arg.toks, ← map_eq_flatMap] using hderives
  | REDIR cmd file mode fd ih =>
    have hcmd : Derives .cmd _ cmd := (ih h.1).parens 0
    rcases h.2 with ⟨rfl, rfl⟩ | ⟨rfl, rfl⟩
    · exact hcmd.redir ⟨.input, file⟩
    · exact hcmd.redir ⟨.output, file⟩
  | PIPE left right ih1 ih2 =>
    exact Derives.pipe ((ih1 h.1).parens 0) ((ih2 h.2).parens 1)
  | LIST left right ih1 ih2 =>
    obtain ⟨k, us, u, hts, ht, hd⟩ := (ih1 h.1).parens 2
    have hlist := hd.list k ((ih2 h.2).mono right.level_le : Derives .line _ right)
    rw [← ht, ← append_assoc, ← hts] at hlist
    exact hlist
  | BACK cmd ih =>
    obtain ⟨k, us, u, hts, ht, hd⟩ := (ih h).parens 2
    refine ⟨k + 1, us, u, ?_, ?_, hd⟩
    · rw [Cmd.toks, hts, append_assoc, replicate_succ']
    · rw [Cmd.backs_succ, ht]

theorem formed_foldl_wrap (rs : List (Redir ω)) (h : t.Formed) :
    (rs.foldl Redir.wrap t).Formed := by
  induction rs generalizing t with
  | nil => exact h
  | cons r rs ih =>
    refine ih ?_
    obtain ⟨op, file⟩ := r
    cases op
    · exact ⟨h, Or.inl ⟨rfl, rfl⟩⟩
    · exact ⟨h, Or.inr ⟨rfl, rfl⟩⟩
    · exact ⟨h, Or.inr ⟨rfl, rfl⟩⟩

theorem formed_backs (h : t.Formed) (k : Nat) : (t.backs k).Formed := by
  induction k with
  | zero => exact h
  | succ k ih =>
    rw [Cmd.backs_succ]
    exact ih

theorem Derives.formed {a : Nonterminal} (h : Derives a ts t) : t.Formed := by
  induction h with
  | line k _ ih => exact formed_backs ih k
  | list k _ _ ih1 ih2 => exact ⟨formed_backs ih1 k, ih2⟩
  | single _ ih => exact ih
  | pipe _ _ ih1 ih2 => exact ⟨ih1, ih2⟩
  | block rs _ ih => exact formed_foldl_wrap rs ih
  | simple rs args hcount => exact formed_foldl_wrap _ (by simpa [Cmd.Formed] using hcount)

theorem mem_parens {b : Bool} {w : ω} (h : .word w ∈ parens b ts) : .word w ∈ ts := by
  unfold parens at h
  split at h
  · simpa using h
  · exact h

/-- The words of the printed form are words of the tree. -/
theorem Cmd.words_of_toks (t : Cmd ω) {w : ω} (h : .word w ∈ t.toks) : w ∈ t.words := by
  induction t with
  | EXEC argv =>
    obtain ⟨v, hv, he⟩ := mem_map.mp h
    cases he
    exact hv
  | REDIR cmd file mode fd ih =>
    rcases mem_append.mp h with h | h
    · exact mem_cons_of_mem _ (ih (mem_parens h))
    · obtain rfl : w = file := by
        split at h <;> simpa using h
      exact mem_cons_self
  | PIPE left right ih1 ih2 =>
    rcases mem_append.mp h with h | h
    · exact mem_append_left _ (ih1 (mem_parens h))
    · exact mem_append_right _ (ih2 (mem_parens (by simpa using h)))
  | LIST left right ih1 ih2 =>
    rcases mem_append.mp h with h | h
    · exact mem_append_left _ (ih1 (mem_parens h))
    · exact mem_append_right _ (ih2 (by simpa using h))
  | BACK cmd ih =>
    rcases mem_append.mp h with h | h
    · exact ih (mem_parens h)
    · simp at h

end Print

/-! ## Text -/

def Sym.char : Sym → UInt8
  | .lt => chr '<'
  | .pipe => chr '|'
  | .gt => chr '>'
  | .amp => chr '&'
  | .semi => chr ';'
  | .lparen => chr '('
  | .rparen => chr ')'

def Tok.text : Tok Word → List UInt8
  | .sym c => [c.char]
  | .append => [chr '>', chr '>']
  | .word w => w

/-- Each token with a space after it. -/
def render (ts : List (Tok Word)) : List UInt8 := ts.flatMap fun t => t.text ++ [chr ' ']

def Cmd.print (t : Cmd Word) : List UInt8 := render t.toks

/-- A word that is one on its own. -/
structure GoodWord (w : Word) : Prop where
  nonempty : w ≠ []
  chars : ∀ x ∈ w, isWord x = true ∧ x ≠ 0

theorem symbol_char (c : Sym) : symbol c.char = some c := by
  cases c <;> decide

theorem tokens_space (r : List UInt8) : tokens (chr ' ' :: r) = tokens r := by
  unfold tokens
  rw [lex, step_space (by decide)]
  rfl

/-- A token with a space after it is one token. -/
theorem tokens_text (t : Tok Word) (ht : ∀ w, t = .word w → GoodWord w) (r : List UInt8) :
    tokens (t.text ++ chr ' ' :: r) = t :: tokens r := by
  rw [← tokens_space r]
  cases t with
  | sym c =>
    by_cases hgt : c = .gt
    · subst hgt
      exact (tokens_gt (symbol_char .gt) _).trans (lex_gt_stop _ (by simp; decide))
    · exact tokens_sym (symbol_char c) hgt _
  | append => exact (tokens_gt (by decide) _).trans (lex_gt_gt (by decide) _)
  | word w =>
    have hw := ht w rfl
    obtain ⟨x, xs, rfl⟩ := exists_cons_of_ne_nil hw.nonempty
    have hall : ∀ y ∈ x :: xs, isWord y = true := fun y hy => (hw.chars y hy).1
    refine (lex_idle_word x (xs ++ chr ' ' :: r) (hall x (by simp))).trans ?_
    rw [← cons_append, takeWhile_append_of_pos hall, dropWhile_append_of_pos hall,
      takeWhile_cons_of_neg (by decide), dropWhile_cons_of_neg (by decide),
      append_nil]

theorem tokens_render (ts : List (Tok Word)) (h : ∀ w, .word w ∈ ts → GoodWord w) :
    tokens (render ts) = ts := by
  induction ts with
  | nil => rfl
  | cons t ts ih =>
    unfold render at *
    rw [flatMap_cons, append_assoc, singleton_append,
      tokens_text t fun w hw => h w (by simp [hw]), ih fun w hw => h w (by simp [hw])]

/-- A word that has begun is good so far. -/
def Pending.Good (p : Pending) : Prop := ∀ w, .word w ∈ p.flush → GoodWord w

theorem good_onWord {p : Pending} (hp : p.Good) {x : UInt8} (hx : isWord x = true ∧ x ≠ 0) :
    (∀ w, .word w ∈ (p.onWord x).1 → GoodWord w) ∧ (p.onWord x).2.Good := by
  have hone : (Pending.word [x]).Good := by
    intro w hw
    obtain rfl : w = [x] := by simpa [Pending.flush] using hw
    exact ⟨by simp, by simpa using hx⟩
  cases p with
  | idle => exact ⟨hp, hone⟩
  | gt => exact ⟨hp, hone⟩
  | word v =>
    refine ⟨fun w hw => (not_mem_nil hw).elim, fun w hw => ?_⟩
    obtain rfl : w = v ++ [x] := by simpa [Pending.onWord, Pending.flush] using hw
    have hv := hp v (by simp [Pending.flush])
    refine ⟨by simp, fun y hy => ?_⟩
    rcases mem_append.mp hy with hy | hy
    · exact hv.chars y hy
    · grind

theorem good_step {p : Pending} (hp : p.Good) {x : UInt8} (hx : x ≠ 0) :
    (∀ w, .word w ∈ (p.step x).1 → GoodWord w) ∧ (p.step x).2.Good := by
  have hidle : Pending.idle.Good := fun w hw => by cases hw
  by_cases hs : isSpace x
  · rw [step_space hs]
    exact ⟨hp, hidle⟩
  · cases hk : symbol x with
    | none =>
      have hw := isWord_iff.mpr ⟨by simpa using hs, hk⟩
      rw [step_word hw]
      exact good_onWord hp ⟨hw, hx⟩
    | some k =>
      by_cases hgt : k = .gt
      · subst hgt
        rw [step_gt hk]
        have hgood : Pending.gt.Good := fun w hw => by simp [Pending.flush] at hw
        cases p with
        | idle => exact ⟨hp, hgood⟩
        | gt => exact ⟨fun w hw => by simp [Pending.onGt] at hw, hidle⟩
        | word v => exact ⟨hp, hgood⟩
      · rw [step_sym hk hgt]
        refine ⟨fun w hw => hp w ?_, hidle⟩
        simpa using hw

theorem good_lex {xs : List UInt8} (h0 : 0 ∉ xs) :
    ∀ p : Pending, p.Good → ∀ w, .word w ∈ lex p xs → GoodWord w := by
  induction xs with
  | nil => exact fun p hp => hp
  | cons x xs ih =>
    intro p hp w hw
    have hx : x ≠ 0 := fun e => h0 (by simp [e])
    obtain ⟨h1, h2⟩ := good_step hp hx
    rw [lex] at hw
    rcases mem_append.mp hw with hw | hw
    · exact h1 w hw
    · grind

/-- The words of a string without NUL are good. -/
theorem good_tokens {s : List UInt8} (h0 : 0 ∉ s) (w : Word) (hw : .word w ∈ tokens s) :
    GoodWord w := good_lex h0 .idle (fun w hw => by cases hw) w hw

theorem zero_not_mem_render (ts : List (Tok Word)) (h : ∀ w, .word w ∈ ts → GoodWord w) :
    0 ∉ render ts := by
  intro h0
  obtain ⟨t, ht, h0⟩ := mem_flatMap.mp h0
  rcases mem_append.mp h0 with h0 | h0
  · cases t with
    | sym c =>
      revert h0
      cases c <;> decide
    | append =>
      revert h0
      decide
    | word w => exact ((h w ht).chars 0 h0).2 rfl
  · revert h0
    decide

/-! ## The parser accepts its grammar -/

/-- For every string without NUL, the parser ends; it succeeds exactly if the tokens of the string
are a line of the grammar, with the one tree that they derive; and the printed form of the tree is
parsed to the same tree. -/
theorem parser_accepts_exactly_its_grammar (s : List UInt8) (h0 : 0 ∉ s) (n : Nat)
    (hn : 4 * s.length + 4 ≤ n) : parsecmd n s ≠ .error .fuel ∧
      (∀ t, parsecmd n s = .ok t ↔ Derives .line (tokens s) t) ∧
      (∀ t u, Derives .line (tokens s) t → Derives .line (tokens s) u → t = u) ∧
      ∀ t, parsecmd n s = .ok t → ∀ m, 4 * t.print.length + 4 ≤ m → parsecmd m t.print = .ok t := by
  have hiff := parsecmd_iff h0 hn
  refine ⟨parsecmd_ends h0 hn, hiff, fun t u ht hu => ?_, fun t ht m hm => ?_⟩
  · grind
  · have hd := (hiff t).mp ht
    have hgood : ∀ w, .word w ∈ t.toks → GoodWord w := fun w hw =>
      good_tokens h0 w (hd.mem_words.mp (t.words_of_toks hw))
    have hzero : 0 ∉ t.print := zero_not_mem_render _ hgood
    rw [parsecmd_iff hzero hm, Cmd.print, tokens_render _ hgood]
    exact (Cmd.toks_derives hd.formed).mono t.level_le

/-- `(a;b)|c` is parsed, and its printed form is parsed to the same tree. -/
theorem a_pipeline_is_parsed : ∃ t, parsecmd 32 [40, 97, 59, 98, 41, 124, 99] = .ok t ∧
    parsecmd 68 t.print = .ok t ∧
    t = .PIPE (.LIST (.EXEC [[97]]) (.EXEC [[98]])) (.EXEC [[99]]) := by
  have hrun : parsecmd 32 [40, 97, 59, 98, 41, 124, 99] =
      .ok (.PIPE (.LIST (.EXEC [[97]]) (.EXEC [[98]])) (.EXEC [[99]])) := by decide +kernel
  have hlaw := parser_accepts_exactly_its_grammar [40, 97, 59, 98, 41, 124, 99] (by decide) 32
    (by decide)
  exact ⟨_, hrun, hlaw.2.2.2 _ hrun 68 (by decide), rfl⟩

end xv6.sh
