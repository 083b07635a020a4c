-- The loop of grep.c over what read gives it: whole lines are matched in the buffer, and what
-- follows the last of them is carried to the next read. When a read brings no end of a line, the
-- loop forgets the bytes that it has.
import Mathlib.Data.List.Flatten
import Mathlib.Data.List.GetD
import Xv6.Grep
import Xv6.Memmove

open List Function bytes

namespace xv6.grep

/-! ## The code -/

/-- `sizeof(buf)`. -/
abbrev BUFSIZE : Nat := 1024

abbrev newline : UInt8 := 10

/-- The buffer, the number of bytes in it, and what was written to descriptor 1. -/
structure Grep where
  buf : Mem
  m : Nat
  out : List UInt8

/-- The string at `p`. -/
def cstring (buf : Mem) (p : Nat) : List UInt8 := (slice buf p (BUFSIZE - p)).takeWhile (· ≠ 0)

/-- `strchr`, over at most `n` bytes. -/
def strchr (buf : Mem) (c : UInt8) : Nat → Nat → Option Nat
  | 0, _ => none
  | n + 1, s => if buf s = 0 then none else if buf s = c then some s else strchr buf c n (s + 1)

/-- The loop over the lines in the buffer, from `p` on, with at most `n` turns. -/
def lines (pattern : List UInt8) : Nat → Mem → Nat → List UInt8 → Mem × Nat × List UInt8
  | 0, buf, p, out => (buf, p, out)
  | n + 1, buf, p, out =>
    match strchr buf newline (BUFSIZE - p) p with
    | none => (buf, p, out)
    | some q =>
      let buf := Function.update buf q 0
      if matchRe pattern (cstring buf p) then
        let buf := Function.update buf q newline
        lines pattern n buf (q + 1) (out ++ slice buf p (q + 1 - p))
      else lines pattern n buf (q + 1) out

/-- A turn of the loop of `grep`, with the bytes that `read` brings. -/
def turn (pattern : List UInt8) (s : Grep) (bytes : List UInt8) : Grep :=
  let m := s.m + bytes.length
  let buf := Function.update (blit s.buf s.m bytes.length fun i => bytes.getD i 0) m 0
  let (buf, p, out) := lines pattern BUFSIZE buf 0 s.out
  let m := if p = 0 then 0 else m
  if m > 0 then ⟨ulib.memmove buf 0 p (m - p : Nat), m - p, out⟩ else ⟨buf, m, out⟩

/-- The state of `grep` after these reads. -/
def after (pattern : List UInt8) (s : Grep) (reads : List (List UInt8)) : Grep :=
  reads.foldl (turn pattern) s

/-- Every read brings between 1 and `sizeof(buf)-m-1` bytes. -/
def Reads (pattern : List UInt8) : Grep → List (List UInt8) → Prop
  | _, [] => True
  | s, c :: cs => 0 < c.length ∧ c.length ≤ BUFSIZE - s.m - 1 ∧ Reads pattern (turn pattern s c) cs

/-! ## Bytes in memory -/

/-- The bytes `l` are at address `p`. -/
def Has (m : Mem) (p : Nat) (l : List UInt8) : Prop := slice m p l.length = l

section Has

variable {m m' : Mem} {p : Nat} {l w : List UInt8} {x c : UInt8}

theorem has_append : Has m p (w ++ l) ↔ Has m p w ∧ Has m (p + w.length) l := by
  unfold Has
  rw [length_append, slice_append]
  exact ⟨fun h => append_inj h (length_slice ..), fun h => congrArg₂ _ h.1 h.2⟩

theorem has_cons : Has m p (x :: l) ↔ m p = x ∧ Has m (p + 1) l := by
  rw [← singleton_append, has_append]
  simp [Has, slice]

theorem Has.congr (h : Has m p l) (heq : ∀ j, p ≤ j → j < p + l.length → m' j = m j) :
    Has m' p l := by
  unfold Has at h ⊢
  rw [← h, length_slice]
  refine map_congr_left fun i hi => heq _ (by omega) ?_
  have := mem_range.mp hi
  omega

theorem has_blit {f : Nat → UInt8} :
    Has (blit m p l.length f) p l ↔ (List.range l.length).map f = l := by
  have h : slice (blit m p l.length f) p l.length = (List.range l.length).map f := by
    refine map_congr_left fun i hi => ?_
    rw [blit_in (by simpa using hi), Nat.add_sub_cancel_left]
  rw [Has, h]

theorem cstring_eq (h : Has m p (w ++ [0])) (hw : 0 ∉ w) (hp : p + w.length < BUFSIZE) :
    cstring m p = w := by
  obtain ⟨k, hk⟩ := Nat.exists_eq_add_of_le (show (w ++ [0]).length ≤ BUFSIZE - p by simp; omega)
  rw [cstring, hk, slice_append, h, append_assoc, takeWhile_append_of_pos]
  · simp
  · intro y hy
    simp only [decide_eq_true_eq]
    rintro rfl
    exact hw hy

/-- `strchr` stops at the character or at the end of the string. -/
theorem strchr_eq {n : Nat} (h : Has m p (w ++ [x])) (hw : 0 ∉ w) (hc : c ∉ w) (hc0 : c ≠ 0)
    (hx : x = 0 ∨ x = c) (hn : w.length < n) :
    strchr m c n p = if x = c then some (p + w.length) else none := by
  induction w generalizing n p with
  | nil =>
    obtain ⟨n, rfl⟩ : ∃ k, n = k + 1 := ⟨n - 1, by omega⟩
    obtain ⟨rfl, -⟩ := has_cons.mp h
    rw [strchr]
    rcases hx with hx | hx
    · rw [if_pos hx, if_neg (by rw [hx]; exact hc0.symm)]
    · rw [if_neg (by rw [hx]; exact hc0), if_pos hx, if_pos hx]
      rfl
  | cons y w ih =>
    obtain ⟨n, rfl⟩ : ∃ k, n = k + 1 := ⟨n - 1, by simp at hn; omega⟩
    obtain ⟨rfl, hrest⟩ := has_cons.mp h
    rw [mem_cons, not_or] at hw hc
    rw [strchr, if_neg (Ne.symm hw.1), if_neg (Ne.symm hc.1),
      ih hrest hw.2 hc.2 (by simp at hn; omega)]
    simp [Nat.add_assoc, Nat.add_comm 1]

end Has

/-! ## Lines -/

/-- The lines one after the other, each with its newline. -/
def unlines (ls : List (List UInt8)) : List UInt8 := ls.flatMap (· ++ [newline])

theorem unlines_cons (l : List UInt8) (ls : List (List UInt8)) :
    unlines (l :: ls) = l ++ newline :: unlines ls := by
  simp [unlines]

theorem length_le_unlines (ls : List (List UInt8)) : ls.length ≤ (unlines ls).length := by
  induction ls with
  | nil => simp
  | cons l ls ih =>
    rw [unlines_cons, length_append, length_cons, length_cons]
    omega

theorem unlines_append (as bs : List (List UInt8)) :
    unlines (as ++ bs) = unlines as ++ unlines bs :=
  flatMap_append ..

/-- Bytes are whole lines and a rest. -/
theorem exists_lines (l : List UInt8) :
    ∃ as r, l = unlines as ++ r ∧ newline ∉ r ∧ ∀ a ∈ as, newline ∉ a := by
  induction l with
  | nil => exact ⟨[], [], rfl, by simp, by simp⟩
  | cons x l ih =>
    obtain ⟨as, r, rfl, hr, has⟩ := ih
    by_cases hx : x = newline
    · subst hx
      exact ⟨[] :: as, r, by simp [unlines_cons], hr, by simpa using has⟩
    · cases as with
      | nil => exact ⟨[], x :: r, rfl, by simp [Ne.symm hx, hr], by simp⟩
      | cons a as =>
        refine ⟨(x :: a) :: as, r, by simp [unlines_cons], hr, ?_⟩
        simp only [forall_mem_cons] at has ⊢
        exact ⟨by simp [Ne.symm hx, has.1], has.2⟩

theorem line_inj {a b l l' : List UInt8} (ha : newline ∉ a) (hb : newline ∉ b)
    (h : a ++ newline :: l = b ++ newline :: l') : a = b ∧ l = l' := by
  rcases append_eq_append_iff.mp h with ⟨c, rfl, hc⟩ | ⟨c, rfl, hc⟩
  · cases c with
    | nil => simpa using hc
    | cons x c =>
      cases hc
      simp at hb
  · cases c with
    | nil => simpa [eq_comm] using hc
    | cons x c =>
      cases hc
      simp at ha

/-- Lines are read off their bytes in one way. -/
theorem unlines_append_eq {as ls : List (List UInt8)} {l : List UInt8} (has : ∀ a ∈ as, newline ∉ a)
    (hls : ∀ a ∈ ls, newline ∉ a) (h : unlines as ++ l = unlines ls) : ∃ bs, ls = as ++ bs ∧
    l = unlines bs := by
  induction as generalizing ls with
  | nil => exact ⟨ls, rfl, h⟩
  | cons a as ih =>
    cases ls with
    | nil => simp [unlines] at h
    | cons b ls =>
      rw [forall_mem_cons] at has hls
      rw [unlines_cons, unlines_cons, append_assoc, cons_append] at h
      obtain ⟨rfl, hrest⟩ := line_inj has.1 hls.1 h
      obtain ⟨bs, rfl, rfl⟩ := ih has.2 hls.2 hrest
      exact ⟨bs, rfl, rfl⟩

/-- Bytes without a newline are the beginning of a line. -/
theorem begin_of_line {c rest : List UInt8} {ls : List (List UInt8)} (hc : newline ∉ c)
    (h : c ++ rest = unlines ls) : c = [] ∧ rest = [] ∧ ls = [] ∨
      ∃ l ls', ls = (c ++ l) :: ls' ∧ rest = unlines (l :: ls') := by
  cases ls with
  | nil =>
    obtain ⟨rfl, rfl⟩ := append_eq_nil_iff.mp h
    exact Or.inl ⟨rfl, rfl, rfl⟩
  | cons a ls =>
    refine Or.inr ?_
    rw [unlines_cons] at h
    rcases append_eq_append_iff.mp h with ⟨l, rfl, hl⟩ | ⟨l, rfl, hl⟩
    · exact ⟨l, ls, rfl, by rw [unlines_cons, hl]⟩
    · cases l with
      | nil => exact ⟨[], ls, by simp, by simpa [unlines_cons, eq_comm] using hl⟩
      | cons x l =>
        obtain ⟨rfl, -⟩ := List.cons.inj hl
        simp at hc

/-! ## A turn -/

section Turn

variable (pattern : List UInt8)

theorem lines_eq {n p : Nat} {buf : Mem} {r : List UInt8} (out : List UInt8)
    {as : List (List UInt8)} (has : ∀ a ∈ as, newline ∉ a) (hr : newline ∉ r)
    (h0 : 0 ∉ unlines as ++ r) (h : Has buf p (unlines as ++ r ++ [0]))
    (hp : p + (unlines as ++ r).length < BUFSIZE)
    (hn : as.length < n) : ∃ buf', lines pattern n buf p out =
      (buf', p + (unlines as).length, out ++ unlines (as.filter (matchRe pattern))) ∧
      Has buf' (p + (unlines as).length) r := by
  induction as generalizing n p buf out with
  | nil =>
    obtain ⟨n, rfl⟩ : ∃ k, n = k + 1 := ⟨n - 1, by simp at hn; omega⟩
    simp only [unlines, flatMap_nil, nil_append, length_nil, Nat.add_zero] at h0 h hp ⊢
    have hnone := strchr_eq (n := BUFSIZE - p) h h0 hr (by decide) (Or.inl rfl) (by omega)
    rw [if_neg (by decide)] at hnone
    refine ⟨buf, ?_, (has_append.mp h).1⟩
    rw [lines, hnone]
    simp
  | cons a as ih =>
    obtain ⟨n, rfl⟩ : ∃ k, n = k + 1 := ⟨n - 1, by simp at hn; omega⟩
    rw [forall_mem_cons] at has
    rw [unlines_cons] at h0 h hp ⊢
    simp only [append_assoc, cons_append, length_append, length_cons,
      mem_append, mem_cons, not_or] at h0 h hp hn ⊢
    obtain ⟨ha, hrest⟩ := has_append.mp h
    obtain ⟨hq, hrest⟩ := has_cons.mp hrest
    have hline : Has buf p (a ++ [newline]) :=
      has_append.mpr ⟨ha, has_cons.mpr ⟨hq, rfl⟩⟩
    have hfound := strchr_eq (n := BUFSIZE - p) hline h0.1 has.1 (by decide) (Or.inr rfl) (by omega)
    rw [if_pos rfl] at hfound
    -- the newline is a NUL while the line is matched
    have hstring : cstring (update buf (p + a.length) 0) p = a := by
      refine cstring_eq (has_append.mpr ⟨ha.congr fun j _ hj => ?_, has_cons.mpr ⟨?_, rfl⟩⟩) h0.1
        (by omega)
      · rw [update_of_ne (by omega)]
      · rw [update_self]
    have hend : p + a.length + 1 + (unlines as).length =
        p + (a.length + ((unlines as).length + 1)) := by
      omega
    have hgo : ∀ b out', Has b (p + a.length + 1) (unlines as ++ r ++ [0]) →
        ∃ buf', lines pattern n b (p + a.length + 1) out' =
          (buf', p + (a.length + ((unlines as).length + 1)),
            out' ++ unlines (as.filter (matchRe pattern))) ∧
          Has buf' (p + (a.length + ((unlines as).length + 1))) r := by
      intro b out' hb
      rw [← hend]
      exact ih out' has.2 (by simp [h0]) hb (by simp; omega) (by omega)
    rw [← append_assoc] at hrest
    rw [lines, hfound]
    dsimp only
    rw [hstring, filter_cons]
    split
    · have hback : update (update buf (p + a.length) 0) (p + a.length) newline = buf := by
        rw [update_idem, ← hq, update_eq_self]
      have hwrite : slice buf p (p + a.length + 1 - p) = a ++ [newline] := by
        rw [show p + a.length + 1 - p = (a ++ [newline]).length by simp; omega]
        exact hline
      obtain ⟨buf', heq, hr'⟩ := hgo buf (out ++ (a ++ [newline])) hrest
      refine ⟨buf', ?_, hr'⟩
      rw [hback, hwrite, heq, unlines_cons]
      simp
    · refine hgo _ out (hrest.congr fun j hj _ => ?_)
      rw [update_of_ne (by omega)]

/-- The carried bytes `c` are at the beginning of the buffer. -/
structure Carries (s : Grep) (c : List UInt8) : Prop where
  m : s.m = c.length
  has : Has s.buf 0 c

/-- A turn writes the matching lines, and carries the rest if there was a line. -/
theorem turn_spec {s : Grep} {c bytes r : List UInt8} {as : List (List UInt8)} (h : Carries s c)
    (hlen : c.length + bytes.length < BUFSIZE) (h0 : 0 ∉ c ++ bytes)
    (heq : c ++ bytes = unlines as ++ r) (has : ∀ a ∈ as, newline ∉ a) (hr : newline ∉ r) :
    (turn pattern s bytes).out = s.out ++ unlines (as.filter (matchRe pattern)) ∧
      Carries (turn pattern s bytes) (if as = [] then [] else r) := by
  have hm := h.m
  have hbuf : Has (update (blit s.buf s.m bytes.length fun i => bytes.getD i 0)
      (s.m + bytes.length) 0) 0 (unlines as ++ r ++ [0]) := by
    rw [← heq, has_append, has_append]
    refine ⟨⟨h.has.congr fun j _ hj => ?_, ?_⟩, has_cons.mpr ⟨?_, rfl⟩⟩
    · rw [update_of_ne (by omega), blit_out (by omega)]
    · rw [← hm, Nat.zero_add]
      refine (has_blit (m := s.buf).mpr (map_getD_all _)).congr fun j _ hj => ?_
      rw [update_of_ne (by omega)]
    · rw [hm, length_append, Nat.zero_add, update_self]
  have hsum : c.length + bytes.length = (unlines as).length + r.length := by
    rw [← length_append, heq, length_append]
  have hcount := length_le_unlines as
  obtain ⟨buf', hlines, hrest⟩ := lines_eq pattern (n := BUFSIZE) s.out has hr
    (heq ▸ h0) hbuf (by rw [length_append]; omega) (by omega)
  rw [Nat.zero_add] at hlines hrest
  simp only [turn, hlines]
  cases as with
  | nil => exact ⟨rfl, rfl, rfl⟩
  | cons a as =>
    rw [length_cons] at hcount
    have hsize : BUFSIZE < 2 ^ 32 := by decide
    have hleft : s.m + bytes.length - (unlines (a :: as)).length = r.length := by omega
    have hp : (unlines (a :: as)).length ≠ 0 := by omega
    simp only [if_neg hp, if_neg (cons_ne_nil a as)]
    rw [if_pos (by omega), hleft]
    refine ⟨rfl, rfl, ?_⟩
    rw [ulib.memmove, Int.toNat_natCast, copyUp_low (Nat.zero_le _) (by omega), has_blit]
    exact hrest

end Turn

/-! ## Whole runs -/

/-- A line without its newline. -/
structure Line (l : List UInt8) : Prop where
  oneLine : newline ∉ l
  noNul : 0 ∉ l
  short : l.length < 1023

section Runs

variable (pattern : List UInt8) {s : Grep} {c bytes rest : List UInt8} {ls : List (List UInt8)}

/-- What is in the buffer and what is still to be read are lines together. -/
structure Left (s : Grep) (c rest : List UInt8) (ls : List (List UInt8)) : Prop where
  carries : Carries s c
  noLine : newline ∉ c
  eq : c ++ rest = unlines ls
  lines : ∀ l ∈ ls, Line l

theorem zero_notMem_unlines (h : ∀ l ∈ ls, Line l) : 0 ∉ unlines ls := by
  intro hmem
  obtain ⟨l, hl, h0⟩ := mem_flatMap.mp hmem
  rcases mem_append.mp h0 with h0 | h0
  · exact (h l hl).noNul h0
  · exact absurd (mem_singleton.mp h0) (by decide)

/-- There is room for another byte. -/
theorem Left.room (h : Left s c rest ls) : s.m < BUFSIZE - 1 := by
  rw [h.carries.m]
  rcases begin_of_line h.noLine h.eq with ⟨rfl, -, -⟩ | ⟨l, ls', rfl, -⟩
  · decide
  · have hshort := (h.lines _ mem_cons_self).short
    rw [length_append] at hshort
    exact Nat.lt_of_le_of_lt (Nat.le_add_right ..) hshort

theorem Left.noNul (h : Left s c (bytes ++ rest) ls) : 0 ∉ c ++ bytes := by
  have h0 := zero_notMem_unlines h.lines
  rw [← h.eq, ← append_assoc, mem_append, not_or] at h0
  exact h0.1

theorem Left.fits (h : Left s c rest ls) (hlen : bytes.length ≤ BUFSIZE - s.m - 1) :
    c.length + bytes.length < BUFSIZE := by
  have hroom := h.room
  have hm := h.carries.m
  omega

/-- A read with the end of a line: the lines that are whole now are done. -/
theorem Left.next (h : Left s c (bytes ++ rest) ls) (hlen : bytes.length ≤ BUFSIZE - s.m - 1)
    (hnl : newline ∈ bytes) : ∃ as ls' r, ls = as ++ ls' ∧ Left (turn pattern s bytes) r rest ls' ∧
      (turn pattern s bytes).out = s.out ++ unlines (as.filter (matchRe pattern)) := by
  obtain ⟨as, r, heq, hr, has⟩ := exists_lines (c ++ bytes)
  have hall : unlines as ++ (r ++ rest) = unlines ls := by
    rw [← append_assoc, ← heq, append_assoc, h.eq]
  obtain ⟨ls', rfl, hrest⟩ := unlines_append_eq has (fun a ha => (h.lines a ha).oneLine) hall
  obtain ⟨hout, hcarries⟩ := turn_spec pattern h.carries (h.fits hlen) h.noNul heq has hr
  have hne : as ≠ [] := by
    rintro rfl
    rw [unlines, flatMap_nil, nil_append] at heq
    exact hr (heq ▸ mem_append_right c hnl)
  rw [if_neg hne] at hcarries
  exact ⟨as, ls', r, rfl,
    ⟨hcarries, hr, hrest, fun l hl => h.lines l (mem_append_right as hl)⟩, hout⟩

/-- A read without one: the loop forgets the beginning of the line. -/
theorem Left.forgets (h : Left s c (bytes ++ rest) ls) (hlen : bytes.length ≤ BUFSIZE - s.m - 1)
    (hpos : 0 < bytes.length) (hnl : newline ∉ bytes) :
    ∃ ls', Left (turn pattern s bytes) [] rest ls' ∧ (turn pattern s bytes).out = s.out := by
  have hno : newline ∉ c ++ bytes := by simp [h.noLine, hnl]
  have hnone : c ++ bytes = unlines [] ++ (c ++ bytes) := rfl
  obtain ⟨hout, hcarries⟩ := turn_spec pattern h.carries (h.fits hlen) h.noNul hnone (by simp) hno
  have heq := h.eq
  rw [← append_assoc] at heq
  rcases begin_of_line hno heq with ⟨hnil, -, -⟩ | ⟨l, ls', rfl, hrest⟩
  · rw [(append_eq_nil_iff.mp hnil).2] at hpos
    exact absurd hpos (Nat.lt_irrefl 0)
  · have hlines := h.lines
    rw [forall_mem_cons] at hlines
    have hl : Line l := by
      refine ⟨fun hmem => hlines.1.oneLine (mem_append_right _ hmem),
        fun hmem => hlines.1.noNul (mem_append_right _ hmem), ?_⟩
      have hshort := hlines.1.short
      rw [length_append] at hshort
      omega
    refine ⟨l :: ls', ⟨hcarries, by simp, hrest, forall_mem_cons.mpr ⟨hl, hlines.2⟩⟩, ?_⟩
    rw [hout]
    exact append_nil _

/-- The loop always asks for at least one byte. -/
theorem Left.asks {reads : List (List UInt8)} (h : Left s c reads.flatten ls)
    (hr : Reads pattern s reads) (k : Nat) : (after pattern s (reads.take k)).m < BUFSIZE - 1 := by
  induction reads generalizing s c ls k with
  | nil =>
    rw [take_nil]
    exact h.room
  | cons bytes reads ih =>
    cases k with
    | zero => exact h.room
    | succ k =>
      obtain ⟨hpos, hlen, hr⟩ := hr
      rw [flatten_cons] at h
      by_cases hnl : newline ∈ bytes
      · obtain ⟨as, ls', r, -, hleft, -⟩ := h.next pattern hlen hnl
        exact ih hleft hr k
      · obtain ⟨ls', hleft, -⟩ := h.forgets pattern hlen hpos hnl
        exact ih hleft hr k

/-- If every read brings the end of a line, all lines are seen whole. -/
theorem Left.wrote {reads : List (List UInt8)} (h : Left s c reads.flatten ls)
    (hr : Reads pattern s reads) (hnl : ∀ bytes ∈ reads, newline ∈ bytes) :
    (after pattern s reads).out = s.out ++ unlines (ls.filter (matchRe pattern)) := by
  induction reads generalizing s c ls with
  | nil =>
    rcases begin_of_line h.noLine h.eq with ⟨-, -, rfl⟩ | ⟨l, ls', -, hnil⟩
    · exact (append_nil _).symm
    · rw [unlines_cons] at hnil
      simp at hnil
  | cons bytes reads ih =>
    obtain ⟨-, hlen, hr⟩ := hr
    rw [forall_mem_cons] at hnl
    obtain ⟨as, ls', r, rfl, hleft, hout⟩ := h.next pattern hlen hnl.1
    rw [filter_append, unlines_append, ← append_assoc, ← hout]
    exact ih hleft hr hnl.2

/-- The loop writes no more bytes than there are, and less if it forgets some. -/
theorem Left.bound {reads : List (List UInt8)} (h : Left s c reads.flatten ls)
    (hr : Reads pattern s reads) :
    (after pattern s reads).out.length ≤ s.out.length + (unlines ls).length ∧
      ((∃ bytes ∈ reads, newline ∉ bytes) →
        (after pattern s reads).out.length < s.out.length + (unlines ls).length) := by
  induction reads generalizing s c ls with
  | nil => simp [after]
  | cons bytes reads ih =>
    obtain ⟨hpos, hlen, hr⟩ := hr
    by_cases hnl : newline ∈ bytes
    · obtain ⟨as, ls', r, rfl, hleft, hout⟩ := h.next pattern hlen hnl
      have hfilter : (unlines (as.filter (matchRe pattern))).length ≤ (unlines as).length :=
        (filter_sublist.flatMap _).length_le
      have hlen' := congrArg List.length hout
      rw [length_append] at hlen'
      rw [unlines_append, length_append]
      obtain ⟨hle, hlt⟩ := ih hleft hr
      refine ⟨le_trans hle (by omega), fun hex => ?_⟩
      rw [exists_mem_cons_iff] at hex
      refine lt_of_lt_of_le (hlt (hex.resolve_left fun hno => hno hnl)) (by omega)
    · obtain ⟨ls', hleft, hout⟩ := h.forgets pattern hlen hpos hnl
      have hless : (unlines ls').length < (unlines ls).length := by
        rw [← hleft.eq, ← h.eq]
        simp
        omega
      obtain ⟨hle, -⟩ := ih hleft hr
      rw [hout] at hle
      exact ⟨le_trans hle (by omega), fun _ => lt_of_le_of_lt hle (by omega)⟩

/-- The empty pattern matches every line. -/
theorem matchRe_nil (l : List UInt8) : matchRe [] l = true := by
  cases l <;> simp [matchRe, search, matchhere]

/-- The loop reads to the end and writes exactly the matching lines, whatever the pattern, if and
only if every read brings the end of a line. -/
theorem grep_writes_the_matching_lines_iff (buf : Mem) {reads : List (List UInt8)}
    (hls : ∀ l ∈ ls, Line l) (hstream : reads.flatten = unlines ls)
    (hreads : ∀ pattern, Reads pattern ⟨buf, 0, []⟩ reads) :
    (∀ pattern, (∀ k, (after pattern ⟨buf, 0, []⟩ (reads.take k)).m < BUFSIZE - 1) ∧
      (after pattern ⟨buf, 0, []⟩ reads).out = unlines (ls.filter (matchRe pattern))) ↔
    ∀ bytes ∈ reads, newline ∈ bytes := by
  have hleft : Left ⟨buf, 0, []⟩ [] reads.flatten ls := ⟨⟨rfl, rfl⟩, by simp, hstream, hls⟩
  constructor
  · intro h
    by_contra hno
    push Not at hno
    have hlt := (hleft.bound [] (hreads [])).2 hno
    rw [(h []).2, List.filter_eq_self.mpr fun l _ => matchRe_nil l] at hlt
    simp at hlt
  · intro hnl pattern
    exact ⟨hleft.asks pattern (hreads pattern), hleft.wrote pattern (hreads pattern) hnl⟩

end Runs

/-- Two lines in two reads, each with the end of a line. -/
theorem two_reads_of_two_lines :
    (∀ pattern,
      (∀ k, (after pattern ⟨fun _ => 0, 0, []⟩ ([[97, 10, 98], [10]].take k)).m < BUFSIZE - 1) ∧
      (after pattern ⟨fun _ => 0, 0, []⟩ [[97, 10, 98], [10]]).out =
        unlines ([[97], [98]].filter (matchRe pattern))) ↔
    ∀ bytes ∈ ([[97, 10, 98], [10]] : List (List UInt8)), newline ∈ bytes := by
  refine grep_writes_the_matching_lines_iff _ ?_ rfl
    fun pattern => ⟨by decide, by decide, by decide, ?_, trivial⟩
  · simp only [List.forall_mem_cons]
    exact ⟨⟨by decide, by decide, by decide⟩, ⟨by decide, by decide, by decide⟩, by simp⟩
  · have hcarries : Carries ⟨fun _ => 0, 0, []⟩ [] := ⟨rfl, rfl⟩
    have heq : [] ++ [97, 10, 98] = unlines [[97]] ++ [98] := rfl
    rw [(turn_spec pattern hcarries (by decide) (by decide) heq (by decide) (by decide)).2.m]
    decide

/-- The line `ab` in two reads is lost: the loop sees `b` only. -/
theorem a_line_in_two_reads_is_lost :
    Reads [97, 98] ⟨fun _ => 0, 0, []⟩ [[97], [98, 10]] ∧
      [[97], [98, 10]].flatten = unlines [[97, 98]] ∧
      (after [97, 98] ⟨fun _ => 0, 0, []⟩ [[97], [98, 10]]).out = [] ∧
      unlines ([[97, 98]].filter (matchRe [97, 98])) = [97, 98, 10] := by
  have hcarries : Carries ⟨fun _ => 0, 0, []⟩ [] := ⟨rfl, rfl⟩
  have heq : [] ++ [97] = unlines [] ++ [97] := rfl
  obtain ⟨hout, hforgot⟩ := turn_spec [97, 98] hcarries (by decide) (by decide) heq
    (by decide) (by decide)
  have heq' : [] ++ [98, 10] = unlines [[98]] ++ [] := rfl
  obtain ⟨hout', -⟩ := turn_spec [97, 98] hforgot (by decide) (by decide) heq'
    (by decide) (by decide)
  have hb : matchRe [97, 98] [98] =
      false := by simp [matchRe, search, matchhere, caret, dollar, star, dot]
  have hab : matchRe [97, 98] [97, 98] =
      true := by simp [matchRe, search, matchhere, caret, dollar, star, dot]
  refine ⟨⟨by decide, by decide, by decide, ?_, trivial⟩, rfl, ?_, ?_⟩
  · rw [hforgot.m]
    decide
  · rw [after, List.foldl_cons, List.foldl_cons, List.foldl_nil, hout', hout]
    simp [unlines, hb]
  · simp [unlines, hab]

end xv6.grep
