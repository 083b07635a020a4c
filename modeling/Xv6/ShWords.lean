-- The words of a command line. The tree that the parser makes has pointers into the line, and
-- nulterminate writes NULs into the same buffer. The law: the tree has each word of the line once,
-- and a NUL after each of them, and no character of a word is written over.
import Mathlib.Data.List.DropRight
import Xv6.ShParse

open List refine

namespace xv6.sh

/-! ## The words of a string -/

section Words

variable {s : List UInt8}

/-- A word of the string from its first character to its last one. -/
structure Span.Whole (w : Span s) : Prop where
  nonempty : w.word ≠ []
  start : ∀ x, x :: (w.word ++ w.eq) <:+ s → isWord x = false

/-- What is left of the string does not begin inside a word. -/
def Edge (s l : List UInt8) : Prop :=
  ∀ x y r, l = y :: r → isWord y = true → x :: l <:+ s → isWord x = false

variable {l r : List UInt8} {x : UInt8} {w : Span s}

theorem not_word_of_space (h : isSpace x = true) : isWord x = false := by
  rw [isWord, h]
  rfl

theorem not_word_of_symbol {k : Sym} (h : symbol x = some k) : isWord x = false := by
  rw [isWord, h]
  simp

theorem edge_self (s : List UInt8) : Edge s s := by
  intro x _ _ _ _ h
  have hlen := h.length_le
  rw [length_cons] at hlen
  omega

theorem edge_tail (hx : isWord x = false) (h : x :: r <:+ s) : Edge s r := by
  intro x' y _ _ _ h'
  have heq : x' :: r = x :: r :=
    (suffix_of_suffix_length_le h' h (by simp)).eq_of_length (by simp)
  rwa [(cons.inj heq).1]

theorem Edge.skip (hl : l <:+ s) (h : Edge s l) : Edge s (l.dropWhile isSpace) := by
  induction l with
  | nil => exact h
  | cons x r ih =>
    by_cases hx : isSpace x = true
    · rw [dropWhile_cons_of_pos hx]
      exact ih ((suffix_cons x r).trans hl) (edge_tail (not_word_of_space hx) hl)
    · rwa [dropWhile_cons_of_neg hx]

theorem Span.edge (w : Span s) : Edge s w.eq := by
  intro _ y r hr hy
  have hstop := w.stop y (by rw [hr]; rfl)
  rw [hy] at hstop
  cases hstop

/-- No word begins at a character that belongs to none. -/
theorem Span.Whole.suffix_cons (h : w.Whole) (hx : isWord x = false) :
    w.word ++ w.eq <:+ x :: r ↔ w.word ++ w.eq <:+ r := by
  refine ⟨fun hw => ?_, fun hw => hw.trans (List.suffix_cons x r)⟩
  refine (suffix_cons_iff.mp hw).resolve_left fun heq => ?_
  cases hword : w.word with
  | nil => exact h.nonempty hword
  | cons y l =>
    rw [hword, cons_append] at heq
    have hy := w.chars y (by simp [hword])
    rw [(cons.inj heq).1, hx] at hy
    cases hy

theorem Span.Whole.suffix_skip (h : w.Whole) :
    w.word ++ w.eq <:+ l.dropWhile isSpace ↔ w.word ++ w.eq <:+ l := by
  induction l with
  | nil => exact Iff.rfl
  | cons x r ih =>
    by_cases hx : isSpace x = true
    · rw [dropWhile_cons_of_pos hx, ih, h.suffix_cons (not_word_of_space hx)]
    · rw [dropWhile_cons_of_neg hx]

theorem Span.ext {v w : Span s} (h1 : v.word = w.word) (h2 : v.eq = w.eq) : v = w := by
  cases v
  cases w
  cases h1
  cases h2
  rfl

/-- The two ends of a word are where its characters end. -/
theorem Span.eq_takeWhile (w : Span s) : w.word = (w.word ++ w.eq).takeWhile isWord ∧
    w.eq = (w.word ++ w.eq).dropWhile isWord := by
  have hnil : w.eq.takeWhile isWord = [] ∧ w.eq.dropWhile isWord = w.eq := by
    cases heq : w.eq with
    | nil => exact ⟨rfl, rfl⟩
    | cons x r =>
      have hx := w.stop x (by rw [heq]; rfl)
      exact ⟨takeWhile_cons_of_neg (by simp [hx]), dropWhile_cons_of_neg (by simp [hx])⟩
  rw [takeWhile_append_of_pos w.chars, dropWhile_append_of_pos w.chars, hnil.1, hnil.2, append_nil]
  exact ⟨rfl, rfl⟩

/-- The words from the first character of a word on are this word and those after it. -/
theorem Span.Whole.suffix_span (h : w.Whole) (v : Span s) :
    w.word ++ w.eq <:+ v.word ++ v.eq ↔ w = v ∨ w.word ++ w.eq <:+ v.eq := by
  constructor
  · rintro ⟨q, hq⟩
    rcases eq_nil_or_concat q with rfl | ⟨q, z, rfl⟩
    · rw [nil_append] at hq
      refine Or.inl (Span.ext ?_ ?_)
      · rw [w.eq_takeWhile.1, hq, ← v.eq_takeWhile.1]
      · rw [w.eq_takeWhile.2, hq, ← v.eq_takeWhile.2]
    · -- the character before the word is not one of `v`
      rw [concat_append] at hq
      have hz : isWord z = false := h.start z ((hq ▸ suffix_append q _).trans v.suffix)
      right
      rcases append_eq_append_iff.mp hq with ⟨a, hv, ha⟩ | ⟨a, _, ha⟩
      · cases a with
        | nil =>
          rw [nil_append] at ha
          exact ha ▸ List.suffix_cons z _
        | cons y a =>
          rw [cons_append] at ha
          have hy := v.chars z (by rw [hv, (cons.inj ha).1]; simp)
          rw [hz] at hy
          cases hy
      · exact ha ▸ (List.suffix_cons z _).trans (suffix_append a _)
  · rintro (rfl | hw)
    · exact suffix_rfl
    · exact hw.trans (suffix_append v.word v.eq)

end Words

/-! ## The tokens of a string -/

section Tokens

variable {s : List UInt8}

/-- What `gettoken` does after the whitespace. -/
inductive Cursor.Next (c : Cursor s) : Option (Tok (Span s)) → Cursor s → Prop where
  | done (h : c.left = []) : Next c none c
  | sym (x : UInt8) (xs : List UInt8) (k : Sym) (h : c.left = x :: xs) (hx : symbol x = some k) :
      Next c (some (.sym k)) (c.drop 1).skip
  | append (x y : UInt8) (xs : List UInt8) (h : c.left = x :: y :: xs) (hx : symbol x = some .gt)
      (hy : symbol y = some .gt) : Next c (some .append) (c.drop 2).skip
  | word (x : UInt8) (xs : List UInt8) (h : c.left = x :: xs) (hx : isWord x = true) :
      Next c (some (.word c.span)) c.span.after.skip

theorem Cursor.next (c : Cursor s) : c.skip.Next c.gettoken.1 c.gettoken.2 := by
  unfold Cursor.gettoken
  dsimp only
  split
  · rename_i h
    exact .done h
  · rename_i x xs h
    split
    · rename_i hx
      split
      · rename_i hy
        cases xs with
        | nil => cases hy
        | cons y xs => exact .append x y xs h hx hy
      · exact .sym x xs .gt h hx
    · rename_i k hk hx
      exact .sym x xs k h hx
    · rename_i hx
      exact .word x xs h (isWord_iff.mpr ⟨c.skip_head h, hx⟩)

theorem Cursor.length_skip (c : Cursor s) : c.skip.left.length ≤ c.left.length :=
  (dropWhile_suffix isSpace).length_le

theorem Cursor.Next.length_lt {c c' : Cursor s} {t : Tok (Span s)} (h : c.Next (some t) c') :
    c'.left.length < c.left.length := by
  cases h with
  | sym x xs k hl hx =>
    have := (c.drop 1).length_skip
    simp only [Cursor.drop, hl, drop_one, tail_cons, length_cons] at this ⊢
    omega
  | append x y xs hl hx hy =>
    have := (c.drop 2).length_skip
    simp only [Cursor.drop, hl, drop_succ_cons, drop_zero, length_cons] at this ⊢
    omega
  | word x xs hl hx =>
    have := c.span.after.length_skip
    have htake : (c.left.takeWhile isWord).length ≠ 0 := by simp [hl, hx]
    have hsum := congrArg length (takeWhile_append_dropWhile (p := isWord) (l := c.left))
    rw [length_append] at hsum
    simp only [Span.after, Cursor.span] at this ⊢
    omega

/-- The tokens that `gettoken` finds, one after the other. -/
def Cursor.toks (c : Cursor s) : List (Tok (Span s)) :=
  match h : c.gettoken.1 with
  | none => []
  | some t =>
    have : c.gettoken.2.left.length < c.left.length := (h ▸ c.next).length_lt.trans_le c.length_skip
    t :: c.gettoken.2.toks
termination_by c.left.length

theorem Cursor.toks_of_none {c : Cursor s} (h : c.gettoken.1 = none) : c.toks = [] := by
  rw [Cursor.toks]
  split
  · rfl
  · rename_i t ht
    rw [h] at ht
    cases ht

theorem Cursor.toks_of_some {c : Cursor s} {t : Tok (Span s)} (h : c.gettoken.1 = some t) :
    c.toks = t :: c.gettoken.2.toks := by
  rw [Cursor.toks]
  split
  · rename_i hn
    rw [h] at hn
    cases hn
  · rename_i u hu
    rw [h] at hu
    rw [Option.some.inj hu]

/-- Without their places these are the tokens of the string. -/
theorem Cursor.map_toks (c : Cursor s) : c.toks.map (Tok.map Span.word) = tokens c.left := by
  rcases c.gettoken_tokens with ⟨hnone, hnil, -⟩ | ⟨t, hsome, hcons⟩
  · rw [toks_of_none hnone, hnil, map_nil]
  · have : c.gettoken.2.left.length < c.left.length :=
      (hsome ▸ c.next).length_lt.trans_le c.length_skip
    rw [toks_of_some hsome, map_cons, hcons, c.gettoken.2.map_toks]
termination_by c.left.length

theorem Cursor.toks_skip (c : Cursor s) : c.skip.toks = c.toks := by
  have hskip : c.skip.skip = c.skip := by
    unfold Cursor.skip
    congr 1
    exact dropWhile_idempotent isSpace c.left
  have hget : c.skip.gettoken = c.gettoken := by
    unfold Cursor.gettoken
    rw [hskip]
  cases h : c.gettoken.1 with
  | none => rw [toks_of_none h, toks_of_none (by rw [hget, h])]
  | some t => rw [toks_of_some h, toks_of_some (t := t) (by rw [hget, h]), hget]

/-- The word of a token that is one. -/
def Tok.word? {ω : Type} : Tok ω → Option ω
  | .word w => some w
  | _ => none

theorem Cursor.Next.left_nil {c c' : Cursor s} (h : c.Next none c') : c.left = [] := by
  cases h with
  | done h => exact h

theorem Cursor.Next.word_eq {c c' : Cursor s} {t : Tok (Span s)} {v : Span s}
    (h : c.Next (some t) c') (hv : t.word? = some v) : v.word ++ v.eq = c.left := by
  cases h with
  | word x xs hl hx =>
    cases hv
    exact takeWhile_append_dropWhile
  | _ => cases hv

/-- The words of the string from the cursor on. -/
def Cursor.words (c : Cursor s) : List (Span s) := c.toks.filterMap Tok.word?

/-- Whitespace is skipped after a character that belongs to no word. -/
theorem Cursor.skip_words {c : Cursor s} {x : UInt8} (hx : isWord x = false)
    (h : x :: c.left <:+ s) : Edge s c.skip.left ∧ ∀ w : Span s, w.Whole →
      (w.word ++ w.eq <:+ c.skip.left ↔ w.word ++ w.eq <:+ x :: c.left) :=
  ⟨(edge_tail hx h).skip c.suffix, fun _ hw => hw.suffix_skip.trans (hw.suffix_cons hx).symm⟩

/-- A token that is a word is the next word of the string, and after a token no word has begun. -/
theorem Cursor.Next.words {c c' : Cursor s} {t : Option (Tok (Span s))} (h : c.Next t c')
    (hedge : Edge s c.left) : Edge s c'.left ∧ ∀ w : Span s, w.Whole ∧ w.word ++ w.eq <:+ c.left ↔
      t.bind Tok.word? = some w ∨ w.Whole ∧ w.word ++ w.eq <:+ c'.left := by
  cases h with
  | done => exact ⟨hedge, fun w => by simp⟩
  | sym x xs k hl hx =>
    have hl' : c.left = x :: (c.drop 1).left := by simp [Cursor.drop, hl]
    obtain ⟨hedge', hiff⟩ := Cursor.skip_words (not_word_of_symbol hx) (hl' ▸ c.suffix)
    refine ⟨hedge', fun w => ?_⟩
    simp only [Option.bind_some, Tok.word?, reduceCtorEq, false_or]
    refine and_congr_right fun hw => ?_
    rw [hiff w hw, hl']
  | append x y xs hl hx hy =>
    have hl' : c.left = x :: y :: (c.drop 2).left := by simp [Cursor.drop, hl]
    obtain ⟨hedge', hiff⟩ := Cursor.skip_words (not_word_of_symbol hy)
      ((List.suffix_cons x _).trans (hl' ▸ c.suffix))
    refine ⟨hedge', fun w => ?_⟩
    simp only [Option.bind_some, Tok.word?, reduceCtorEq, false_or]
    refine and_congr_right fun hw => ?_
    rw [hiff w hw, hl', hw.suffix_cons (not_word_of_symbol hx)]
  | word x xs hl hx =>
    have hsplit : c.span.word ++ c.span.eq = c.left := takeWhile_append_dropWhile
    have hwhole : c.span.Whole := by
      refine ⟨by simp [Cursor.span, hl, hx], fun z hz => ?_⟩
      rw [hsplit] at hz
      exact hedge z x xs hl hx hz
    refine ⟨Edge.skip c.span.after.suffix c.span.edge, fun w => ?_⟩
    simp only [Option.bind_some, Tok.word?, Option.some.injEq]
    constructor
    · rintro ⟨hw, hsuf⟩
      rw [← hsplit] at hsuf
      exact ((hw.suffix_span _).mp hsuf).imp Eq.symm fun h => ⟨hw, hw.suffix_skip.mpr h⟩
    · rintro (rfl | ⟨hw, hsuf⟩)
      · exact ⟨hwhole, hsplit ▸ suffix_rfl⟩
      · exact ⟨hw, (hw.suffix_skip.mp hsuf).trans (hsplit ▸ suffix_append _ _)⟩

/-- From a place that is not inside a word on, `gettoken` finds each word once. -/
theorem Cursor.mem_words (c : Cursor s) (hedge : Edge s c.left) : c.words.Nodup ∧
    ∀ w, w ∈ c.words ↔ w.Whole ∧ w.word ++ w.eq <:+ c.left := by
  obtain ⟨hedge', hiff⟩ := c.next.words (hedge.skip c.suffix)
  have hskip : ∀ w : Span s, w.Whole ∧ w.word ++ w.eq <:+ c.left ↔
      w.Whole ∧ w.word ++ w.eq <:+ c.skip.left :=
    fun w => and_congr_right fun hw => hw.suffix_skip.symm
  unfold Cursor.words
  cases htok : c.gettoken.1 with
  | none =>
    have hnext : c.skip.Next none c.gettoken.2 := htok ▸ c.next
    rw [toks_of_none htok]
    refine ⟨nodup_nil, fun w => iff_of_false not_mem_nil fun hw => ?_⟩
    obtain ⟨hw, hsuf⟩ := (hskip w).mp hw
    rw [hnext.left_nil, suffix_nil, append_eq_nil_iff] at hsuf
    exact hw.nonempty hsuf.1
  | some t =>
    have hnext : c.skip.Next (some t) c.gettoken.2 := htok ▸ c.next
    have hlt := hnext.length_lt
    have hshort := hlt.trans_le c.length_skip
    obtain ⟨hnodup, hmem⟩ := c.gettoken.2.mem_words hedge'
    unfold Cursor.words at hnodup hmem
    rw [toks_of_some htok]
    rw [htok, Option.bind_some] at hiff
    cases hword : t.word? with
    | none =>
      rw [filterMap_cons_none hword]
      refine ⟨hnodup, fun w => ?_⟩
      rw [hskip, hiff, hmem, hword]
      simp
    | some v =>
      rw [filterMap_cons_some hword]
      refine ⟨nodup_cons.mpr ⟨fun hv => ?_, hnodup⟩, fun w => ?_⟩
      · -- a word that is found again would be too long
        have hlen := ((hmem v).mp hv).2.length_le
        rw [hnext.word_eq hword] at hlen
        omega
      · rw [mem_cons, hskip, hiff, hmem, hword, Option.some.injEq, eq_comm]
termination_by c.left.length

end Tokens

/-! ## The words of a tree -/

section Tree

variable {ω : Type}

theorem words_backs (t : Cmd ω) (k : Nat) : (t.backs k).words = t.words := by
  induction k generalizing t with
  | zero => rfl
  | succ k ih => exact ih _

theorem words_amps (k : Nat) : (replicate k (.sym .amp : Tok ω)).filterMap Tok.word? = [] := by
  rw [filterMap_replicate]
  rfl

theorem words_redirs (rs : List (Redir ω)) :
    (rs.flatMap Redir.toks).filterMap Tok.word? = rs.map Redir.file := by
  induction rs with
  | nil => rfl
  | cons r rs ih =>
    rw [flatMap_cons, filterMap_append, ih]
    cases r with
    | mk op file => cases op <;> rfl

theorem words_wrap (rs : List (Redir ω)) (t : Cmd ω) :
    (rs.foldl Redir.wrap t).words.Perm (t.words ++ rs.map Redir.file) := by
  induction rs generalizing t with
  | nil => simp
  | cons r rs ih =>
    have hr : (r.wrap t).words = r.file :: t.words := by
      cases r with
      | mk op file => cases op <;> rfl
    refine (ih (r.wrap t)).trans ?_
    rw [hr, cons_append]
    exact perm_middle.symm

theorem words_args (args : List (Arg ω)) :
    (args.map Arg.word ++ (args.flatMap Arg.redirs).map Redir.file).Perm
    ((args.flatMap Arg.toks).filterMap Tok.word?) := by
  induction args with
  | nil => exact Perm.nil
  | cons a args ih =>
    have ha : a.toks.filterMap Tok.word? = a.word :: a.redirs.map Redir.file := by
      show a.word :: (a.redirs.flatMap Redir.toks).filterMap Tok.word? = _
      rw [words_redirs]
    rw [flatMap_cons, flatMap_cons, filterMap_append, map_cons, map_append, ha]
    exact Perm.cons _ ((perm_append_comm_assoc ..).trans (ih.append_left _))

/-- A tree has the words of the tokens that it is made of. -/
theorem Derives.words {a : Nonterminal} {ts : List (Tok ω)} {t : Cmd ω} (h : Derives a ts t) :
    t.words.Perm (ts.filterMap Tok.word?) := by
  induction h with
  | line k _ ih =>
    rw [words_backs, filterMap_append, words_amps, append_nil]
    exact ih
  | list k _ _ ih1 ih2 =>
    rw [filterMap_append, filterMap_append, words_amps, nil_append,
      filterMap_cons_none rfl, Cmd.words, words_backs]
    exact ih1.append ih2
  | single _ ih => exact ih
  | pipe _ _ ih1 ih2 =>
    rw [filterMap_append, filterMap_cons_none rfl]
    exact ih1.append ih2
  | block rs _ ih =>
    rw [filterMap_cons_none rfl, filterMap_append, filterMap_cons_none rfl, words_redirs]
    exact (words_wrap rs _).trans (ih.append_right _)
  | simple rs args _ =>
    rw [filterMap_append, words_redirs]
    refine (words_wrap _ _).trans ?_
    rw [map_append, Cmd.words]
    exact (perm_append_comm_assoc ..).trans ((words_args args).append_left _)

theorem Derives.mem_words {a : Nonterminal} {ts : List (Tok ω)} {t : Cmd ω} (h : Derives a ts t)
    {w : ω} : w ∈ t.words ↔ .word w ∈ ts := by
  rw [h.words.mem_iff, mem_filterMap]
  constructor
  · rintro ⟨t, ht, hw⟩
    cases t with
    | word v =>
      cases hw
      exact ht
    | _ => cases hw
  · exact fun hw => ⟨_, hw, rfl⟩

end Tree

/-! ## parsecmd -/

section Parse

variable {s : List UInt8}

theorem Tok.map_id {ω : Type} (t : Tok ω) : t.map id = t := by
  cases t <;> rfl

theorem Cmd.map_id {ω : Type} (t : Cmd ω) : t.map id = t := by
  induction t with
  | EXEC argv => simp [Cmd.map]
  | _ => simp_all [Cmd.map]

theorem gettoken_reads_toks : Reads Cursor.toks (Option.map (Tok.map id)) (gettoken (stringLexer s))
    (gettoken (tokenLexer (Span s))) := by
  intro c
  show EStateM.Result.ok (Option.map (Tok.map id) c.gettoken.1) c.gettoken.2.toks =
    EStateM.Result.ok c.toks.head? c.toks.tail
  cases h : c.gettoken.1 with
  | none =>
    have hend : c.gettoken.2.toks = [] := by
      rcases c.gettoken_tokens with ⟨-, -, hnil⟩ | ⟨t, hsome, -⟩
      · rwa [← Cursor.map_toks, map_eq_nil_iff] at hnil
      · rw [h] at hsome
        cases hsome
    rw [Cursor.toks_of_none h, hend]
    rfl
  | some t =>
    rw [Cursor.toks_of_some h, Option.map_some, t.map_id]
    rfl

theorem peek_reads_toks (toks : List Sym) :
    Reads Cursor.toks id (peek (stringLexer s) toks) (peek (tokenLexer (Span s)) toks) := by
  intro c
  have hfirst : c.toks.head?.bind Tok.first = c.skip.left.head?.bind symbol := by
    rw [← c.first_tokens, ← c.map_toks]
    cases c.toks with
    | nil => rfl
    | cons t ts => cases t <;> rfl
  have hpeek : c.peek toks = (starts toks c.toks, c.skip) := by
    unfold Cursor.peek starts
    rw [hfirst]
    cases hk : c.skip.left.head?.bind symbol <;> simp only [hk]
  show EStateM.Result.ok (c.peek toks).1 (c.peek toks).2.toks = _
  rw [hpeek, c.toks_skip]
  rfl

/-- Each word of the string is in one place of the command, where it ends with a NUL in the buffer,
and the buffer has its characters. -/
structure Exact (s : List UInt8) (cmd : Cmd (Span s)) : Prop where
  ended : ∀ w ∈ cmd.words, cstring (nulterminate cmd (s ++ [0])) w = w.word
  once : cmd.words.Nodup
  all : ∀ w, w ∈ cmd.words ↔ w.Whole
  kept : ∀ (i : Nat) x, s[i]? = some x → isWord x = true →
    (nulterminate cmd (s ++ [0]))[i]? = some x

/-- The whole string is read by the time that `parsecmd` returns. -/
theorem parsecmd_reads {n : Nat} {t : Cmd Word} (h : parsecmd n s = .ok t) : ∃ cmd c,
    parseline (stringLexer s) n ⟨s, suffix_rfl⟩ = .ok cmd c ∧ c.toks = [] ∧
      t = cmd.map (cstring (nulterminate cmd (s ++ [0]))) := by
  unfold parsecmd at h
  split at h
  · cases h
  · rename_i cmd c hrun
    split at h
    · cases h
    · rename_i hleft
      refine ⟨cmd, c, hrun, ?_, (Except.ok.inj h).symm⟩
      have hpeek : (c.peek []).2 = c.skip := by grind [Cursor.peek]
      rw [hpeek, not_not, c.skip_eq_nil, ← c.map_toks, map_eq_nil_iff] at hleft
      exact hleft

/-- What `parsecmd` returns for a string is a tree of its words, each in one place and ended. -/
theorem words_are_ended_exactly (h0 : 0 ∉ s) {n : Nat} (hn : 4 * s.length + 4 ≤ n) {t : Cmd Word}
    (h : parsecmd n s = .ok t) : ∃ cmd c,
      parseline (stringLexer s) n ⟨s, suffix_rfl⟩ = .ok cmd c ∧
        t = cmd.map (cstring (nulterminate cmd (s ++ [0]))) ∧ Exact s cmd := by
  obtain ⟨cmd, c, hrun, hend, ht⟩ := parsecmd_reads h
  refine ⟨cmd, c, hrun, ht, ?_⟩
  have hreads := (descent_reads gettoken_reads_toks peek_reads_toks n).1
    (⟨s, suffix_rfl⟩ : Cursor s)
  rw [hrun, lift, cmd.map_id, hend] at hreads
  have hlen : (Cursor.toks (⟨s, suffix_rfl⟩ : Cursor s)).length ≤ s.length := by
    rw [← length_map (f := Tok.map Span.word), Cursor.map_toks]
    exact length_tokens_le s
  have hperm := ((parseline_iff (by omega)).mp hreads.symm).words
  obtain ⟨hnodup, hmem⟩ := Cursor.mem_words (⟨s, suffix_rfl⟩ : Cursor s) (edge_self s)
  obtain ⟨hholds, -, hended⟩ := nulterminate_spec cmd _ (holds_init s)
  exact
    { ended := fun w hw => cstring_eq h0 hholds (hended w hw)
      once := hperm.nodup_iff.mpr hnodup
      all := fun w => hperm.mem_iff.trans ((hmem w).trans (and_iff_left w.suffix))
      kept := hholds.chars }

/-- The words of `a>b;a`, of which two are alike, are in three places. -/
theorem a_word_is_ended_twice : ∃ cmd c,
    parseline (stringLexer [97, 62, 98, 59, 97]) 24 ⟨[97, 62, 98, 59, 97], suffix_rfl⟩ = .ok cmd c ∧
      cmd.map (cstring (nulterminate cmd [97, 62, 98, 59, 97, 0])) =
        .LIST (.REDIR (.EXEC [[97]]) [98] 0x201 1) (.EXEC [[97]]) ∧
      Exact [97, 62, 98, 59, 97] cmd := by
  have hrun : parsecmd 24 [97, 62, 98, 59, 97] =
      .ok (.LIST (.REDIR (.EXEC [[97]]) [98] 0x201 1) (.EXEC [[97]])) := by rfl
  obtain ⟨cmd, c, hline, ht, hexact⟩ := words_are_ended_exactly (by decide) (by decide) hrun
  exact ⟨cmd, c, hline, ht.symm, hexact⟩

end Parse

end xv6.sh
