-- The parser of sh.c on a string does what the descent does on the tokens of the string: what
-- gettoken and peek see of them, and the words that nulterminate leaves.
import Xv6.ShGrammar

open List WP refine

namespace xv6.sh

/-! ## The tokens of a string -/

abbrev Word := List UInt8

/-- A token that has begun. -/
inductive Pending where
  | idle
  | gt
  | word (w : Word)

def Pending.flush : Pending → List (Tok Word)
  | .idle => []
  | .gt => [.sym .gt]
  | .word w => [.word w]

def Pending.onGt : Pending → List (Tok Word) × Pending
  | .gt => ([.append], .idle)
  | p => (p.flush, .gt)

def Pending.onWord (x : UInt8) : Pending → List (Tok Word) × Pending
  | .word w => ([], .word (w ++ [x]))
  | p => (p.flush, .word [x])

/-- The tokens that end with the next character, and the one that goes on. -/
def Pending.step (p : Pending) (x : UInt8) : List (Tok Word) × Pending :=
  if isSpace x then (p.flush, .idle)
  else
    match symbol x with
    | some .gt => p.onGt
    | some k => (p.flush ++ [.sym k], .idle)
    | none => p.onWord x

/-- Words are the longest runs of characters that are neither whitespace nor symbols, and `>>` is
one token. -/
def lex : Pending → List UInt8 → List (Tok Word)
  | p, [] => p.flush
  | p, x :: xs => (p.step x).1 ++ lex (p.step x).2 xs

def tokens (s : List UInt8) : List (Tok Word) := lex .idle s

variable {x : UInt8}

theorem step_space (h : isSpace x = true) (p : Pending) : p.step x = (p.flush, .idle) := if_pos h

theorem symbol_cases {k : Sym} (h : symbol x = some k) :
    x ∈ [chr '<', chr '|', chr '>', chr '&', chr ';', chr '(', chr ')'] := by
  unfold symbol at h
  repeat' split at h
  all_goals simp_all

theorem not_space_of_symbol {k : Sym} (h : symbol x = some k) : isSpace x = false := by
  have hall : ∀ y ∈ [chr '<', chr '|', chr '>', chr '&', chr ';', chr '(', chr ')'],
      isSpace y = false := by decide +kernel
  exact hall x (symbol_cases h)

theorem step_gt (h : symbol x = some .gt) (p : Pending) : p.step x = p.onGt := by
  unfold Pending.step
  rw [not_space_of_symbol h, h]
  rfl

theorem step_sym {k : Sym} (h : symbol x = some k) (hk : k ≠ .gt) (p : Pending) :
    p.step x = (p.flush ++ [.sym k], .idle) := by
  unfold Pending.step
  rw [not_space_of_symbol h, h]
  cases k <;> first | rfl | exact absurd rfl hk

theorem isWord_iff : isWord x = true ↔ isSpace x = false ∧ symbol x = none := by
  simp [isWord]

theorem step_word (h : isWord x = true) (p : Pending) : p.step x = p.onWord x := by
  obtain ⟨h1, h2⟩ := isWord_iff.mp h
  unfold Pending.step
  rw [h1, h2]
  rfl

theorem tokens_skip (l : List UInt8) : tokens (l.dropWhile isSpace) = tokens l := by
  induction l with
  | nil => rfl
  | cons x xs ih =>
    by_cases hx : isSpace x
    · rw [dropWhile_cons_of_pos hx, ih]
      unfold tokens
      rw [lex, step_space hx]
      rfl
    · rw [dropWhile_cons_of_neg hx]

theorem lex_word_append (w u : Word) (r : List UInt8) (hu : ∀ x ∈ u, isWord x = true) :
    lex (.word w) (u ++ r) = lex (.word (w ++ u)) r := by
  induction u generalizing w with
  | nil => rw [nil_append, append_nil]
  | cons x u ih =>
    rw [cons_append, lex, step_word (hu x (by simp))]
    refine (ih _ fun y hy => hu y (by simp [hy])).trans ?_
    rw [append_assoc, singleton_append]

/-- What comes after a word begins a token of its own. -/
theorem lex_word_stop (w : Word) (r : List UInt8) (hr : ∀ x, r.head? = some x → isWord x = false) :
    lex (.word w) r = .word w :: tokens r := by
  cases r with
  | nil => rfl
  | cons x xs =>
    have hx := hr x rfl
    unfold tokens
    rw [lex, lex]
    by_cases hs : isSpace x
    · rw [step_space hs, step_space hs]
      rfl
    · cases hk : symbol x with
      | none => exact absurd (isWord_iff.mpr ⟨by simpa using hs, hk⟩) (by simp [hx])
      | some k =>
        by_cases hgt : k = .gt
        · subst hgt
          rw [step_gt hk, step_gt hk]
          rfl
        · rw [step_sym hk hgt, step_sym hk hgt]
          rfl

theorem lex_gt_gt (h : symbol x = some .gt) (xs : List UInt8) :
    lex .gt (x :: xs) = .append :: tokens xs := by
  rw [lex, step_gt h]
  rfl

/-- What comes after a single `>` begins a token of its own. -/
theorem lex_gt_stop (r : List UInt8) (hr : r.head?.bind symbol ≠ some .gt) :
    lex .gt r = .sym .gt :: tokens r := by
  cases r with
  | nil => rfl
  | cons x xs =>
    unfold tokens
    rw [lex, lex]
    by_cases hs : isSpace x
    · rw [step_space hs, step_space hs]
      rfl
    · cases hk : symbol x with
      | none =>
        have hw := isWord_iff.mpr ⟨by simpa using hs, hk⟩
        rw [step_word hw, step_word hw]
        rfl
      | some k =>
        have hgt : k ≠ .gt := fun e => hr (by simp [hk, e])
        rw [step_sym hk hgt, step_sym hk hgt]
        rfl

theorem lex_idle_word (x : UInt8) (xs : List UInt8) (h : isWord x = true) : tokens (x :: xs) =
      .word ((x :: xs).takeWhile isWord) :: tokens ((x :: xs).dropWhile isWord) := by
  have hstop : ∀ y, (xs.dropWhile isWord).head? = some y → isWord y = false := by
    intro y hy
    have := List.head?_dropWhile_not isWord xs
    rw [hy] at this
    simpa using this
  rw [takeWhile_cons_of_pos h, dropWhile_cons_of_pos h]
  conv_lhs => rw [← takeWhile_append_dropWhile (p := isWord) (l := xs)]
  unfold tokens
  rw [lex, step_word h]
  refine (lex_word_append [x] _ _ fun y hy => mem_takeWhile_imp hy).trans ?_
  exact lex_word_stop _ _ hstop

theorem tokens_gt (h : symbol x = some .gt) (xs : List UInt8) : tokens (x :: xs) = lex .gt xs := by
  unfold tokens
  rw [lex, step_gt h]
  rfl

theorem tokens_sym {k : Sym} (h : symbol x = some k) (hk : k ≠ .gt) (xs : List UInt8) :
    tokens (x :: xs) = .sym k :: tokens xs := by
  unfold tokens
  rw [lex, step_sym h hk]
  rfl

/-! ## gettoken and peek -/

def Tok.map {ω ω' : Type} (f : ω → ω') : Tok ω → Tok ω'
  | .sym c => .sym c
  | .append => .append
  | .word w => .word (f w)

section Scan

variable {s : List UInt8}

/-- The first character after the whitespace is not whitespace. -/
theorem Cursor.skip_head (c : Cursor s) {xs : List UInt8} (h : c.skip.left = x :: xs) :
    isSpace x = false := by
  have hx := List.head?_dropWhile_not isSpace c.left
  rw [show c.left.dropWhile isSpace = x :: xs from h] at hx
  simpa using hx

/-- `gettoken` takes the first token of the string. -/
theorem Cursor.gettoken_tokens (c : Cursor s) :
    c.gettoken.1 = none ∧ tokens c.left = [] ∧ tokens c.gettoken.2.left = [] ∨
      ∃ t, c.gettoken.1 = some t ∧ tokens c.left = t.map Span.word :: tokens c.gettoken.2.left := by
  have hskip : tokens c.skip.left = tokens c.left := tokens_skip c.left
  rw [← hskip]
  unfold Cursor.gettoken
  dsimp only
  split
  · rename_i hnil
    refine Or.inl ⟨rfl, ?_, ?_⟩ <;> rw [hnil] <;> rfl
  · rename_i x xs hcons
    have hns := c.skip_head hcons
    have hdrop : ∀ k, (c.skip.drop k).skip.left = (((x :: xs).drop k).dropWhile isSpace) := by
      intro k
      rw [← hcons]
      rfl
    refine Or.inr ?_
    split
    · rename_i hk
      rw [hcons, tokens_gt hk]
      split
      · rename_i hk2
        cases xs with
        | nil => cases hk2
        | cons y ys =>
          refine ⟨_, rfl, ?_⟩
          rw [lex_gt_gt hk2, hdrop, tokens_skip]
          rfl
      · rename_i hk2
        refine ⟨_, rfl, ?_⟩
        rw [lex_gt_stop xs hk2, hdrop, tokens_skip]
        rfl
    · rename_i k hgt hk
      refine ⟨_, rfl, ?_⟩
      rw [hcons, tokens_sym hk hgt, hdrop, tokens_skip]
      rfl
    · rename_i hk
      refine ⟨_, rfl, ?_⟩
      have hw := isWord_iff.mpr ⟨hns, hk⟩
      show tokens c.skip.left = Tok.word (c.skip.left.takeWhile isWord) ::
        tokens ((c.skip.left.dropWhile isWord).dropWhile isSpace)
      rw [tokens_skip, hcons]
      exact lex_idle_word x xs hw

/-- The first token of a string begins with the first character that is not whitespace. -/
theorem Cursor.first_tokens (c : Cursor s) :
    (tokens c.left).head?.bind Tok.first = c.skip.left.head?.bind symbol := by
  rw [← tokens_skip c.left, show c.left.dropWhile isSpace = c.skip.left from rfl]
  cases hcons : c.skip.left with
  | nil => rfl
  | cons x xs =>
    have hns := c.skip_head hcons
    cases hk : symbol x with
    | none =>
      rw [lex_idle_word x xs (isWord_iff.mpr ⟨hns, hk⟩)]
      simp [Tok.first, hk]
    | some k =>
      by_cases hgt : k = .gt
      · subst hgt
        rw [tokens_gt hk]
        by_cases hk2 : xs.head?.bind symbol = some .gt
        · cases xs with
          | nil => cases hk2
          | cons y ys =>
            rw [lex_gt_gt hk2]
            simp [Tok.first, hk]
        · rw [lex_gt_stop xs hk2]
          simp [Tok.first, hk]
      · rw [tokens_sym hk hgt]
        simp [Tok.first, hk]

/-- What a cursor stands for. -/
def Cursor.view (c : Cursor s) : List (Tok Word) := tokens c.left

theorem gettoken_reads : Reads Cursor.view (Option.map (Tok.map Span.word))
      (gettoken (stringLexer s)) (gettoken (tokenLexer Word)) := by
  intro c
  show EStateM.Result.ok (Option.map (Tok.map Span.word) c.gettoken.1) (tokens c.gettoken.2.left) =
    EStateM.Result.ok (tokens c.left).head? (tokens c.left).tail
  rcases c.gettoken_tokens with ⟨h1, h2, h3⟩ | ⟨t, h1, h2⟩
  · rw [h1, h2, h3]
    rfl
  · rw [h1, h2]
    rfl

theorem peek_reads (toks : List Sym) :
    Reads Cursor.view id (peek (stringLexer s) toks) (peek (tokenLexer Word) toks) := by
  intro c
  have hview : c.skip.view = c.view := tokens_skip c.left
  have hpeek : c.peek toks = (starts toks c.view, c.skip) := by
    unfold Cursor.peek starts Cursor.view
    rw [c.first_tokens]
    cases hk : c.skip.left.head?.bind symbol <;> simp only [hk]
  show EStateM.Result.ok (c.peek toks).1 (c.peek toks).2.view = _
  rw [hpeek, hview]
  rfl

end Scan

/-! ## The descent on a string and on its tokens -/

section Descent

variable {σ τ ω ω' : Type} {lx : Lexer σ ω} {ly : Lexer τ ω'} {h : σ → τ} {f : ω → ω'}

theorem map_addArg (q : ω) (cmd : Cmd ω) : (cmd.addArg q).map f = (cmd.map f).addArg (f q) := by
  induction cmd with
  | EXEC argv => simp [Cmd.addArg, Cmd.map]
  | REDIR cmd file mode fd ih => simp [Cmd.addArg, Cmd.map, ih]
  | _ => rfl

variable (hg : Reads h (Option.map (Tok.map f)) (gettoken lx) (gettoken ly))
  (hp : ∀ toks, Reads h id (peek lx toks) (peek ly toks))

include hg hp

theorem parseredirs_reads (n : Nat) :
    ∀ cmd, Reads h (Cmd.map f) (parseredirs lx n cmd) (parseredirs ly n (cmd.map f)) := by
  induction n with
  | zero => exact fun _ => Reads.throw _
  | succ n ih =>
    intro cmd
    refine (hp _).bind fun b => Reads.ite (hg.bind fun tok => hg.bind fun w => ?_) (Reads.pure rfl)
    cases w with
    | none => exact Reads.throw _
    | some w =>
      cases w with
      | sym _ => exact Reads.throw _
      | append => exact Reads.throw _
      | word file =>
        cases tok with
        | none => exact ih cmd
        | some tok =>
          cases tok with
          | sym c => cases c <;> exact ih _
          | append => exact ih _
          | word _ => exact ih cmd

theorem parseargs_reads (n : Nat) :
    ∀ argc ret, Reads h (Cmd.map f) (parseargs lx n argc ret)
    (parseargs ly n argc (ret.map f)) := by
  induction n with
  | zero => exact fun _ _ => Reads.throw _
  | succ n ih =>
    intro argc ret
    refine (hp _).bind fun b => Reads.ite (Reads.pure rfl) (hg.bind fun tok => ?_)
    cases tok with
    | none => exact Reads.pure rfl
    | some tok =>
      cases tok with
      | sym _ => exact Reads.throw _
      | append => exact Reads.throw _
      | word q =>
        refine Reads.ite (Reads.throw _) ?_
        have hredirs := parseredirs_reads hg hp n (ret.addArg q)
        rw [map_addArg] at hredirs
        exact hredirs.bind fun ret => ih (argc + 1) ret

theorem parsebacks_reads (n : Nat) :
    ∀ cmd, Reads h (Cmd.map f) (parsebacks lx n cmd) (parsebacks ly n (cmd.map f)) := by
  induction n with
  | zero => exact fun _ => Reads.throw _
  | succ n ih =>
    intro cmd
    exact (hp _).bind fun b => Reads.ite (hg.bind fun _ => ih (.BACK cmd)) (Reads.pure rfl)

theorem descent_reads (n : Nat) : Reads h (Cmd.map f) (parseline lx n) (parseline ly n) ∧
      Reads h (Cmd.map f) (parsepipe lx n) (parsepipe ly n) ∧
      Reads h (Cmd.map f) (parseexec lx n) (parseexec ly n) ∧
      Reads h (Cmd.map f) (parseblock lx n) (parseblock ly n) := by
  induction n with
  | zero => exact ⟨Reads.throw _, Reads.throw _, Reads.throw _, Reads.throw _⟩
  | succ n ih =>
    obtain ⟨hline, hpipe, hexec, hblock⟩ := ih
    refine ⟨?_, ?_, ?_, ?_⟩
    · exact hpipe.bind fun cmd => (parsebacks_reads hg hp n cmd).bind fun cmd =>
        (hp _).bind fun b => Reads.ite
          (hg.bind fun _ => hline.bind fun right => Reads.pure rfl) (Reads.pure rfl)
    · exact hexec.bind fun cmd => (hp _).bind fun b => Reads.ite
        (hg.bind fun _ => hpipe.bind fun right => Reads.pure rfl) (Reads.pure rfl)
    · exact (hp _).bind fun b => Reads.ite hblock
        ((parseredirs_reads hg hp n (.EXEC [])).bind fun ret => parseargs_reads hg hp n 0 ret)
    · exact (hp _).bind fun b => Reads.ite (Reads.throw _) (hg.bind fun _ => hline.bind fun cmd =>
        (hp _).bind fun b => Reads.ite (Reads.throw _) (hg.bind fun _ =>
          parseredirs_reads hg hp n cmd))

end Descent

/-! ## nulterminate -/

/-- The words of a command. -/
def Cmd.words {ω : Type} : Cmd ω → List ω
  | .EXEC argv => argv
  | .REDIR cmd file _ _ => file :: cmd.words
  | .PIPE left right => left.words ++ right.words
  | .LIST left right => left.words ++ right.words
  | .BACK cmd => cmd.words

theorem Cmd.map_congr {ω ω' : Type} {f g : ω → ω'} {cmd : Cmd ω}
    (h : ∀ w ∈ cmd.words, f w = g w) : cmd.map f = cmd.map g := by
  induction cmd with
  | EXEC argv => exact congrArg Cmd.EXEC (map_congr_left h)
  | REDIR cmd file mode fd ih =>
    simp only [Cmd.map, h file (by simp [words]), ih fun w hw => h w (by simp [words, hw])]
  | PIPE left right ih1 ih2 =>
    grind [Cmd.map, words]
  | LIST left right ih1 ih2 =>
    grind [Cmd.map, words]
  | BACK cmd ih => simp only [Cmd.map, ih h]

section Cut

variable {s : List UInt8} {buf : List UInt8} {w v : Span s}

/-- The buffer still has the characters of the words of `s`. -/
structure Holds (s buf : List UInt8) : Prop where
  length : buf.length = s.length + 1
  chars : ∀ (i : Nat) (x : UInt8), s[i]? = some x → isWord x = true → buf[i]? = some x

/-- The buffer has a NUL after this word. -/
def Ended (buf : List UInt8) (w : Span s) : Prop := buf[s.length - w.eq.length]? = some 0

theorem getElem?_of_suffix {l : List UInt8} (h : l <:+ s) (i : Nat) :
    s[s.length - l.length + i]? = l[i]? := by
  obtain ⟨pre, rfl⟩ := h
  rw [length_append, Nat.add_sub_cancel, List.getElem?_append_right (by omega),
    Nat.add_sub_cancel_left]

theorem Span.eq_suffix (w : Span s) : w.eq <:+ s := (suffix_append w.word w.eq).trans w.suffix

theorem Holds.cut (h : Holds s buf) (w : Span s) : Holds s (cut buf w) := by
  refine ⟨by simpa [sh.cut] using h.length, fun i x hi hx => ?_⟩
  have hne : s.length - w.eq.length ≠ i := by
    rintro rfl
    have hhead := getElem?_of_suffix w.eq_suffix 0
    rw [Nat.add_zero, hi, ← List.head?_eq_getElem?] at hhead
    have := w.stop x hhead.symm
    rw [hx] at this
    cases this
  rw [sh.cut, List.getElem?_set_ne hne]
  exact h.chars i x hi hx

theorem Ended.cut (h : Ended buf v) (w : Span s) : Ended (cut buf w) v := by
  unfold Ended sh.cut at *
  by_cases he : s.length - w.eq.length = s.length - v.eq.length
  · grind
  · grind

theorem Holds.ended_cut (h : Holds s buf) (w : Span s) : Ended (sh.cut buf w) w := by
  unfold Ended sh.cut
  rw [List.getElem?_set_self]
  have := h.length
  omega

/-- `nulterminate` puts a NUL after each word, and changes no word. -/
theorem nulterminate_spec (cmd : Cmd (Span s)) :
      ∀ buf, Holds s buf → Holds s (nulterminate cmd buf) ∧
      (∀ v : Span s, Ended buf v → Ended (nulterminate cmd buf) v) ∧
      ∀ w ∈ cmd.words, Ended (nulterminate cmd buf) w := by
  induction cmd with
  | EXEC argv =>
    simp only [nulterminate, Cmd.words]
    induction argv with
    | nil => exact fun buf h => ⟨h, fun _ hv => hv, fun _ hw => by cases hw⟩
    | cons w argv ih =>
      intro buf h
      obtain ⟨h1, h2, h3⟩ := ih (cut buf w) (h.cut w)
      refine ⟨h1, fun v hv => h2 v (hv.cut w), fun v hv => ?_⟩
      rcases mem_cons.mp hv with rfl | hv
      · exact h2 v (h.ended_cut v)
      · exact h3 v hv
  | REDIR cmd file mode fd ih =>
    intro buf h
    obtain ⟨h1, h2, h3⟩ := ih buf h
    refine ⟨h1.cut file, fun v hv => (h2 v hv).cut file, fun v hv => ?_⟩
    rcases mem_cons.mp hv with rfl | hv
    · exact h1.ended_cut v
    · exact (h3 v hv).cut file
  | PIPE left right ih1 ih2 | LIST left right ih1 ih2 =>
    intro buf h
    obtain ⟨h1, h2, h3⟩ := ih1 buf h
    obtain ⟨k1, k2, k3⟩ := ih2 _ h1
    refine ⟨k1, fun v hv => k2 v (h2 v hv), fun v hv => ?_⟩
    rcases mem_append.mp hv with hv | hv
    · exact k2 v (h3 v hv)
    · exact k3 v hv
  | BACK cmd ih => exact ih

/-- A C string ends at its first NUL. -/
theorem takeWhile_ne_zero {u l : List UInt8} (h : ∀ i < u.length, l[i]? = u[i]?)
    (hend : l[u.length]? = some 0) (hu : 0 ∉ u) : l.takeWhile (· ≠ 0) = u := by
  induction u generalizing l with
  | nil =>
    cases l with
    | nil => rfl
    | cons y l =>
      obtain rfl : y = 0 := by simpa using hend
      rfl
  | cons x u ih =>
    cases l with
    | nil => cases hend
    | cons y l =>
      obtain rfl : y = x := by simpa using h 0 (by simp)
      have hy : y ≠ 0 := fun e => hu (by simp [e])
      rw [takeWhile_cons_of_pos (by simpa using hy), ih ?_ ?_ ?_]
      · intro i hi
        simpa using h (i + 1) (by simpa using hi)
      · simpa using hend
      · grind

theorem cstring_eq (h0 : 0 ∉ s) (h : Holds s buf) (he : Ended buf w) : cstring buf w = w.word := by
  have hsuf : ∀ i, s[s.length - (w.word ++ w.eq).length + i]? = (w.word ++ w.eq)[i]? :=
    getElem?_of_suffix w.suffix
  have hlen : (w.word ++ w.eq).length ≤ s.length := w.suffix.length_le
  refine takeWhile_ne_zero (fun i hi => ?_) ?_ fun hm => h0 (w.suffix.subset (by simp [hm]))
  · have hi' : w.word[i]? = some w.word[i] := List.getElem?_eq_getElem hi
    rw [List.getElem?_drop, hi']
    refine h.chars _ _ ?_ (w.chars _ (getElem_mem hi))
    rw [hsuf, List.getElem?_append_left hi, hi']
  · rw [List.getElem?_drop]
    rw [length_append] at hlen ⊢
    rw [show s.length - (w.word.length + w.eq.length) + w.word.length = s.length - w.eq.length by
      omega]
    exact he

theorem holds_init (s : List UInt8) : Holds s (s ++ [0]) := by
  refine ⟨by simp, fun i x hi _ => ?_⟩
  rw [List.getElem?_append_left (List.getElem?_eq_some_iff.mp hi).1]
  exact hi

end Cut

/-! ## Strings and their tokens -/

theorem length_step (p : Pending) (x : UInt8) :
    (p.step x).1.length + (p.step x).2.flush.length ≤ p.flush.length + 1 := by
  unfold Pending.step
  split
  · simp [Pending.flush]
  · split
    · cases p <;> simp [Pending.onGt, Pending.flush]
    · simp [Pending.flush]
    · cases p <;> simp [Pending.onWord, Pending.flush]

theorem length_lex_le (xs : List UInt8) :
    ∀ p : Pending, (lex p xs).length ≤ p.flush.length + xs.length := by
  induction xs with
  | nil => exact fun p => Nat.le_refl _
  | cons x xs ih =>
    intro p
    have h1 := length_step p x
    have h2 := ih (p.step x).2
    rw [lex, length_append, length_cons]
    omega

/-- The descent makes no more calls inside each other than the string has room for. -/
theorem length_tokens_le (s : List UInt8) : (tokens s).length ≤ s.length := by
  have := length_lex_le s .idle
  rwa [Pending.flush, length_nil, Nat.zero_add] at this

theorem Cursor.skip_eq_nil {s : List UInt8} (c : Cursor s) :
    c.skip.left = [] ↔ tokens c.left = [] := by
  constructor
  · intro h
    rw [← tokens_skip c.left, show c.left.dropWhile isSpace = [] from h]
    rfl
  · intro h
    rcases c.gettoken_tokens with ⟨hnone, -, -⟩ | ⟨t, -, hcons⟩
    · grind [Cursor.gettoken]
    · rw [h] at hcons
      cases hcons

/-- The parser does on the string what the descent does on its tokens. -/
theorem parsecmd_eq {s : List UInt8} (h0 : 0 ∉ s) (n : Nat) : parsecmd n s =
      match parseline (tokenLexer Word) n (tokens s) with
      | .error e _ => .error e
      | .ok t us => if us ≠ [] then .error (.panic "syntax") else .ok t := by
  have hreads := (descent_reads gettoken_reads peek_reads n).1 (⟨s, suffix_rfl⟩ : Cursor s)
  rw [show Cursor.view (⟨s, suffix_rfl⟩ : Cursor s) = tokens s from rfl] at hreads
  unfold parsecmd
  rw [← hreads]
  cases parseline (stringLexer s) n ⟨s, suffix_rfl⟩ with
  | error e c => rfl
  | ok cmd c =>
    have hpeek : (c.peek []).2 = c.skip := by grind [Cursor.peek]
    obtain ⟨h1, -, h3⟩ := nulterminate_spec cmd _ (holds_init s)
    have hwords : cmd.map (cstring (nulterminate cmd (s ++ [0]))) = cmd.map Span.word :=
      Cmd.map_congr fun w hw => cstring_eq h0 h1 (h3 w hw)
    simp only [lift, hpeek, hwords, ne_eq, c.skip_eq_nil, Cursor.view]

/-- The tree of a string is the tree of its tokens, and there is one exactly if they are a line. -/
theorem parsecmd_iff {s : List UInt8} (h0 : 0 ∉ s) {n : Nat} (hn : 4 * s.length + 4 ≤ n)
    (t : Cmd Word) : parsecmd n s = .ok t ↔ Derives .line (tokens s) t := by
  have hlen := length_tokens_le s
  rw [parsecmd_eq h0, ← parseline_iff (show 4 * (tokens s).length + 4 ≤ n by omega)]
  cases parseline (tokenLexer Word) n (tokens s) with
  | error e us => simp
  | ok u us => by_cases hus : us = [] <;> simp [hus]

theorem parsecmd_ends {s : List UInt8} (h0 : 0 ∉ s) {n : Nat} (hn : 4 * s.length + 4 ≤ n) :
    parsecmd n s ≠ .error .fuel := by
  have hlen := length_tokens_le s
  have hsound := (sound Word n).line (tokens s) (by omega)
  rw [parsecmd_eq h0]
  cases hrun : parseline (tokenLexer Word) n (tokens s) with
  | error e us =>
    have := of_spec_error hsound hrun
    simpa using this
  | ok u us => by_cases hus : us = [] <;> simp [hus]

end xv6.sh
