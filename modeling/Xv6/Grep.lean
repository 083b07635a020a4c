-- The matcher of grep.c, and the language of its patterns: items read from left to right, with an
-- anchor at either end.
import Mathlib.Computability.Language

open List

namespace xv6.grep

/-! ## The code

A C string is the list of its characters before the NUL. -/

abbrev caret : UInt8 := 94

abbrev dollar : UInt8 := 36

abbrev star : UInt8 := 42

abbrev dot : UInt8 := 46

mutual

/-- Search for `re` at the beginning of `text`. -/
def matchhere (re text : List UInt8) : Bool :=
  match re with
  | [] => true
  | c :: re =>
    if re.head? = some star then matchstar c re.tail text
    else if c = dollar ∧ re = [] then text = []
    else
      match text with
      | [] => false
      | x :: text => if c = dot ∨ c = x then matchhere re text else false
termination_by (re.length, text.length, 0)

/-- Search for `c*re` at the beginning of `text`. -/
def matchstar (c : UInt8) (re text : List UInt8) : Bool :=
  if matchhere re text then true
  else
    match text with
    | [] => false
    | x :: text => if x = c ∨ c = dot then matchstar c re text else false
termination_by (re.length, text.length, 1)

end

/-- The loop of `match`, which also looks at the empty string. -/
def search (re : List UInt8) : List UInt8 → Bool
  | [] => matchhere re []
  | x :: text => if matchhere re (x :: text) then true else search re text

/-- `match`. -/
def matchRe (re text : List UInt8) : Bool :=
  if re.head? = some caret then matchhere re.tail text else search re text

/-! ## The language of a pattern -/

/-- An item `c*`, or one character. -/
inductive Item where
  | star (c : UInt8)
  | one (c : UInt8)

/-- A character of a text is one that `c` stands for. -/
def Fits (c x : UInt8) : Prop := c = dot ∨ x = c

def Item.language : Item → Language UInt8
  | .star c => {w | ∀ x ∈ w, Fits c x}
  | .one c => {w | ∃ x, w = [x] ∧ Fits c x}

/-- A pattern read from left to right: its items, and whether it ends with `$`. -/
structure Pattern where
  items : List Item
  toEnd : Bool

def Pattern.cons (i : Item) (p : Pattern) : Pattern := { p with items := i :: p.items }

def Pattern.read : List UInt8 → Pattern
  | [] => ⟨[], false⟩
  | [c] => if c = dollar then ⟨[], true⟩ else ⟨[.one c], false⟩
  | c :: d :: re => if d = star then (read re).cons (.star c) else (read (d :: re)).cons (.one c)

def Pattern.language (p : Pattern) : Language UInt8 := (p.items.map Item.language).prod

/-- A word of the language stands at the beginning of the text, or is all of it. -/
def Pattern.Begins (p : Pattern) (text : List UInt8) : Prop :=
  ∃ w after, text = w ++ after ∧ w ∈ p.language ∧ (p.toEnd = true → after = [])

theorem begins_nil (text : List UInt8) : (Pattern.mk [] false).Begins text :=
  ⟨[], text, rfl, rfl, fun h => by cases h⟩

theorem begins_end {text : List UInt8} : (Pattern.mk [] true).Begins text ↔ text = [] := by
  constructor
  · rintro ⟨w, after, rfl, hw, hafter⟩
    rw [(Language.mem_one w).mp hw, hafter rfl]
    rfl
  · rintro rfl
    exact ⟨[], [], rfl, rfl, fun _ => rfl⟩

theorem begins_cons {i : Item} {p : Pattern} {text : List UInt8} :
    (p.cons i).Begins text ↔ ∃ u v, text = u ++ v ∧ u ∈ i.language ∧ p.Begins v := by
  constructor
  · rintro ⟨w, after, rfl, hw, hafter⟩
    obtain ⟨u, hu, v, hv, rfl⟩ := Language.mem_mul.mp hw
    exact ⟨u, v ++ after, append_assoc .., hu, v, after, rfl, hv, hafter⟩
  · rintro ⟨u, _, rfl, hu, v, after, rfl, hv, hafter⟩
    exact ⟨u ++ v, after, (append_assoc ..).symm, Language.mem_mul.mpr ⟨u, hu, v, hv, rfl⟩, hafter⟩

/-! ## The matcher finds the language -/

theorem matchstar_iff {c : UInt8} {re text : List UInt8} :
    matchstar c re text = true ↔ ∃ u v, text = u ++ v ∧ (∀ x ∈ u, Fits c x) ∧
    matchhere re v = true := by
  induction text with
  | nil =>
    rw [matchstar]
    simp
  | cons x text ih =>
    rw [matchstar]
    by_cases hhere : matchhere re (x :: text) = true
    · rw [if_pos hhere]
      exact iff_of_true rfl ⟨[], x :: text, rfl, by simp, hhere⟩
    · rw [if_neg hhere]
      by_cases hfits : x = c ∨ c = dot
      · rw [if_pos hfits, ih]
        constructor
        · rintro ⟨u, v, rfl, hu, hv⟩
          exact ⟨x :: u, v, rfl, forall_mem_cons.mpr ⟨hfits.symm, hu⟩, hv⟩
        · rintro ⟨u, v, heq, hu, hv⟩
          cases u with
          | nil =>
            cases heq
            exact absurd hv hhere
          | cons y u =>
            cases heq
            exact ⟨u, v, rfl, (forall_mem_cons.mp hu).2, hv⟩
      · rw [if_neg hfits]
        refine iff_of_false Bool.false_ne_true ?_
        rintro ⟨u, v, heq, hu, hv⟩
        cases u with
        | nil =>
          cases heq
          exact hhere hv
        | cons y u =>
          cases heq
          exact hfits (hu _ mem_cons_self).symm

/-- A single character takes the next character of the text. -/
theorem begins_one {c : UInt8} {p : Pattern} {text : List UInt8} :
    (p.cons (.one c)).Begins text ↔ ∃ x rest, text = x :: rest ∧ Fits c x ∧ p.Begins rest := by
  rw [begins_cons]
  constructor
  · rintro ⟨_, v, rfl, ⟨x, rfl, hx⟩, hv⟩
    exact ⟨x, v, rfl, hx, hv⟩
  · rintro ⟨x, rest, rfl, hx, hrest⟩
    exact ⟨[x], rest, rfl, ⟨x, rfl, hx⟩, hrest⟩

/-- The last step of `matchhere`. -/
theorem next_iff {c : UInt8} {re text : List UInt8} {p : Pattern}
    (ih : ∀ rest, matchhere re rest = true ↔ p.Begins rest) :
    (match text with
      | [] => false
      | x :: text => if c = dot ∨ c = x then matchhere re text else false) = true ↔
    (p.cons (.one c)).Begins text := by
  rw [begins_one]
  cases text with
  | nil => simp
  | cons x rest =>
    have hfits : c = dot ∨ c = x ↔ Fits c x := or_congr_right eq_comm
    simp [hfits, ih]

theorem matchhere_iff {re text : List UInt8} :
    matchhere re text = true ↔ (Pattern.read re).Begins text := by
  induction re using Pattern.read.induct generalizing text with
  | case1 =>
    rw [matchhere]
    exact iff_of_true rfl (begins_nil text)
  | case2 =>
    rw [matchhere.eq_def]
    simp [Pattern.read, begins_end]
  | case3 c hc =>
    rw [matchhere.eq_def, Pattern.read, if_neg hc]
    simp only [List.head?_nil, reduceCtorEq, if_false, hc, false_and]
    refine next_iff (p := ⟨[], false⟩) fun rest => ?_
    rw [matchhere]
    exact iff_of_true rfl (begins_nil rest)
  | case4 c re ih =>
    rw [matchhere.eq_def, Pattern.read, if_pos rfl, begins_cons]
    simp only [List.head?_cons, if_true, tail_cons, matchstar_iff, ih]
    rfl
  | case5 c d re hd ih =>
    rw [matchhere.eq_def, Pattern.read, if_neg hd]
    simp only [List.head?_cons, Option.some.injEq, hd, if_false, reduceCtorEq, and_false]
    exact next_iff fun rest => ih

theorem search_iff {re text : List UInt8} :
    search re text = true ↔ ∃ before rest, text = before ++ rest ∧ matchhere re rest = true := by
  induction text with
  | nil => simp [search]
  | cons x text ih =>
    rw [search]
    by_cases hhere : matchhere re (x :: text) = true
    · rw [if_pos hhere]
      exact iff_of_true rfl ⟨[], x :: text, rfl, hhere⟩
    · rw [if_neg hhere, ih]
      constructor
      · rintro ⟨before, rest, rfl, hrest⟩
        exact ⟨x :: before, rest, rfl, hrest⟩
      · rintro ⟨before, rest, heq, hrest⟩
        cases before with
        | nil =>
          cases heq
          exact absurd hrest hhere
        | cons y before =>
          cases heq
          exact ⟨before, rest, rfl, hrest⟩

/-- `match` finds exactly the texts with a part in the language of the pattern: the part
begins at the beginning of the text if the pattern begins with `^`, and ends at its end if the
pattern ends with `$`. -/
theorem match_finds_the_language (re text : List UInt8) :
    matchRe re text = true ↔
      ∃ before w after, text = before ++ (w ++ after) ∧ (re.head? = some caret → before = []) ∧
        w ∈ (Pattern.read (if re.head? = some caret then re.tail else re)).language ∧
        ((Pattern.read (if re.head? = some caret then re.tail else re)).toEnd = true →
          after = []) := by
  unfold matchRe
  split
  · rename_i hcaret
    rw [matchhere_iff]
    constructor
    · rintro ⟨w, after, rfl, hw, hafter⟩
      exact ⟨[], w, after, rfl, fun _ => rfl, hw, hafter⟩
    · rintro ⟨before, w, after, rfl, hbefore, hw, hafter⟩
      rw [hbefore hcaret]
      exact ⟨w, after, rfl, hw, hafter⟩
  · rename_i hcaret
    simp only [search_iff, matchhere_iff]
    constructor
    · rintro ⟨before, _, rfl, w, after, rfl, hw, hafter⟩
      exact ⟨before, w, after, rfl, fun h => absurd h hcaret, hw, hafter⟩
    · rintro ⟨before, w, after, rfl, -, hw, hafter⟩
      exact ⟨before, w ++ after, rfl, w, after, rfl, hw, hafter⟩

end xv6.grep
