-- Circular doubly linked lists: pointers that run around a list from a head node and back, what
-- taking a node out and putting one in at the front leave of them, and walks along the pointers.
import Mathlib.Data.List.Nodup
import Mathlib.Logic.Function.Basic

open List Function

namespace ring

variable {α : Type*}

/-! ## Chains -/

/-- The pointers run along the list, in both directions. -/
def Linked (next prev : α → α) : List α → Prop
  | a :: b :: l => next a = b ∧ prev b = a ∧ Linked next prev (b :: l)
  | _ => True

variable {next prev next' prev' : α → α} {a b h : α} {l l' : List α}

/-- A chain is two chains that share a node. -/
theorem linked_append : Linked next prev (l ++ a :: l') ↔
    Linked next prev (l ++ [a]) ∧ Linked next prev (a :: l') := by
  induction l with
  | nil => simp [Linked]
  | cons x l ih =>
    cases l with
    | nil => simp [Linked, and_assoc]
    | cons y l =>
      simp only [cons_append, Linked] at ih ⊢
      rw [ih]
      simp only [and_assoc]

/-- The last `next` and the first `prev` of a chain do not matter. -/
theorem Linked.congr (h : Linked next prev l) (hn : ∀ a ∈ l.dropLast, next' a = next a)
    (hp : ∀ a ∈ l.tail, prev' a = prev a) : Linked next' prev' l := by
  induction l with
  | nil => trivial
  | cons a l ih =>
    cases l with
    | nil => trivial
    | cons b l =>
      obtain ⟨h1, h2, h3⟩ := h
      refine ⟨?_, ?_, ih h3 (fun x hx => ?_) fun x hx => ?_⟩
      · rw [hn a (by simp), h1]
      · rw [hp b (by simp), h2]
      · grind
      · grind

theorem Linked.reverse (h : Linked next prev l) : Linked prev next l.reverse := by
  induction l with
  | nil => trivial
  | cons a l ih =>
    cases l with
    | nil => trivial
    | cons b l =>
      obtain ⟨h1, h2, h3⟩ := h
      rw [reverse_cons, reverse_cons, append_assoc]
      apply linked_append.mpr
      refine ⟨?_, h2, h1, trivial⟩
      rw [← reverse_cons]
      exact ih h3

/-! ## Rings -/

structure Links (α : Type*) where
  next : α → α
  prev : α → α

/-- The pointers run from the head `h` along `l` and back to `h`. -/
structure Ring (r : Links α) (h : α) (l : List α) : Prop where
  nodup : (h :: l).Nodup
  linked : Linked r.next r.prev (h :: (l ++ [h]))

variable {r : Links α}

theorem Ring.reverse (hr : Ring r h l) : Ring ⟨r.prev, r.next⟩ h l.reverse := by
  constructor
  · rw [nodup_cons, mem_reverse, nodup_reverse]
    exact nodup_cons.mp hr.nodup
  · grind [hr.linked.reverse, reverse_cons, reverse_append]

/-- Only the head is there. -/
theorem ring_nil (hn : r.next h = h) (hp : r.prev h = h) : Ring r h [] :=
  ⟨by simp, hn, hp, trivial⟩

variable [DecidableEq α]

/-- `b->next->prev = b->prev; b->prev->next = b->next;` -/
def Links.unlink (r : Links α) (b : α) : Links α :=
  let prev := Function.update r.prev (r.next b) (r.prev b)
  ⟨Function.update r.next (prev b) (r.next b), prev⟩

/-- `b->next = h->next; b->prev = h; h->next->prev = b; h->next = b;` -/
def Links.linkFront (r : Links α) (h b : α) : Links α :=
  let next := Function.update r.next b (r.next h)
  let prev := Function.update (Function.update r.prev b h) (next h) b
  ⟨Function.update next h b, prev⟩

theorem Ring.unlink {l₁ l₂ : List α} (hr : Ring r h (l₁ ++ b :: l₂)) :
    Ring (r.unlink b) h (l₁ ++ l₂) := by
  have hnodup := hr.nodup
  have hlinked := hr.linked
  -- the node before `b` and the node after it
  obtain ⟨u, x, hux⟩ : ∃ u x, h :: l₁ = u ++ [x] := by
    exact ⟨(h :: l₁).dropLast, (h :: l₁).getLast (by simp), (dropLast_append_getLast _).symm⟩
  obtain ⟨y, w, hyw⟩ : ∃ y w, l₂ ++ [h] = y :: w := by
    cases l₂ with
    | nil => exact ⟨h, [], rfl⟩
    | cons y w => exact ⟨y, w ++ [h], rfl⟩
  have hall : h :: ((l₁ ++ b :: l₂) ++ [h]) = u ++ x :: b :: y :: w := by
    rw [append_assoc, ← cons_append, hux, cons_append, hyw]
    simp
  rw [hall] at hlinked
  obtain ⟨hbefore, hnx, hpb, hnb, hpy, hafter⟩ := linked_append.mp hlinked
  have hnodup' : (u ++ [x] ++ b :: l₂).Nodup := by
    rw [← hux]
    exact hnodup
  have hxb : ¬ b = y := by
    rintro rfl
    have hmem : b ∈ l₂ ++ [h] := by grind
    rcases mem_append.mp hmem with hm | hm
    · grind
    · rw [mem_singleton.mp hm] at hnodup
      simp at hnodup
  have hunlink : r.unlink b = ⟨update r.next x y, update r.prev y x⟩ := by
    unfold Links.unlink
    simp only [hnb, hpb, update_of_ne hxb]
  have hyu : ∀ a ∈ l₁, a ≠ y := by
    rintro a ha rfl
    have hmem : a ∈ l₂ ++ [h] := by grind
    rcases mem_append.mp hmem with hm | hm
    · grind
    · grind
  have hxw : ∀ a ∈ l₂, a ≠ x := by grind
  constructor
  · refine List.Nodup.sublist (List.Sublist.cons_cons h ?_) hnodup
    exact List.Sublist.append_left (sublist_cons_self b l₂) l₁
  · have hgoal : h :: (l₁ ++ l₂ ++ [h]) = u ++ x :: y :: w := by
      rw [append_assoc, ← cons_append, hux, hyw]
      simp
    rw [hgoal, hunlink]
    apply linked_append.mpr
    refine ⟨hbefore.congr (fun a ha => ?_) fun a ha => ?_, update_self ..,
      update_self .., hafter.congr (fun a ha => ?_) fun a ha => ?_⟩
    · rw [dropLast_concat] at ha
      apply update_of_ne
      rintro rfl
      have := (nodup_append.mp (nodup_append.mp hnodup').1).2.2
      exact this a ha a (by simp) rfl
    · grind
    · grind
    · apply update_of_ne
      rintro rfl
      have hdup : (l₂ ++ [h]).Nodup := by
        apply nodup_append.mpr
        have h2 := (nodup_append.mp (nodup_cons.mp hnodup).2).2.1
        refine ⟨(nodup_cons.mp h2).2, by simp, ?_⟩
        rintro c hc d hd rfl
        rw [mem_singleton.mp hd] at hc
        exact (nodup_cons.mp hnodup).1 (by simp [hc])
      rw [hyw] at hdup
      exact (nodup_cons.mp hdup).1 ha

theorem Ring.linkFront (hr : Ring r h l) (hb : b ∉ h :: l) : Ring (r.linkFront h b) h (b :: l) := by
  have hbh : b ≠ h := fun hc => hb (by simp [hc])
  have hbl : b ∉ l := fun hc => hb (by simp [hc])
  obtain ⟨y, w, hyw⟩ : ∃ y w, l ++ [h] = y :: w := by
    cases l with
    | nil => exact ⟨h, [], rfl⟩
    | cons y w => exact ⟨y, w ++ [h], rfl⟩
  have hlinked := hr.linked
  rw [hyw] at hlinked
  obtain ⟨hnh, hpy, hafter⟩ := hlinked
  have hyb : b ≠ y := by grind [mem_cons_self]
  have hfront : r.linkFront h b = ⟨update (update r.next b y) h b,
      update (update r.prev b h) y b⟩ := by
    unfold Links.linkFront
    simp only [update_of_ne hbh.symm, hnh]
  have hdup : (y :: w).Nodup := by grind [hr.nodup]
  have hbw : ∀ a ∈ w, a ≠ b := by grind
  constructor
  · grind
  · rw [cons_append, hyw, hfront]
    refine ⟨update_self .., ?_, ?_, update_self .., hafter.congr (fun a ha => ?_) fun a ha => ?_⟩
    · grind
    · grind
    · rw [← hyw, dropLast_concat] at ha
      have hah : a ≠ h := by grind
      have hab : a ≠ b := by
        rintro rfl
        exact hbl ha
      dsimp only
      rw [update_of_ne hah, update_of_ne hab]
    · have hay : a ≠ y := by grind
      dsimp only
      rw [update_of_ne hay, update_of_ne (hbw a ha)]

/-! ## Walks -/

/-- Follow the pointers until a node passes the test, but not past `h`, and `n` nodes at most. -/
def walk (step : α → α) (h : α) (test : α → Bool) : Nat → α → Option α
  | 0, _ => none
  | n + 1, a => if a = h then none else if test a then some a else walk step h test n (step a)

theorem walk_linked {test : α → Bool} {n : Nat} (hl : Linked next prev (a :: (l ++ [h])))
    (hh : h ∉ l) (hn : l.length < n) : walk next h test n (next a) = l.find? test := by
  induction l generalizing a n with
  | nil =>
    obtain ⟨n, rfl⟩ := Nat.exists_eq_succ_of_ne_zero (by omega : n ≠ 0)
    simp [walk, hl.1]
  | cons b l ih =>
    obtain ⟨n, rfl⟩ := Nat.exists_eq_succ_of_ne_zero (by omega : n ≠ 0)
    obtain ⟨hb, _, hl⟩ := hl
    have hbh : b ≠ h := fun hc => hh (by simp [hc])
    rw [hb, walk, if_neg hbh, List.find?_cons]
    cases test b with
    | true => rfl
    | false =>
      apply ih hl
      · grind
      · simpa using hn

/-- A walk from the head finds the first node of the list. -/
theorem Ring.walk_next {test : α → Bool} {n : Nat} (hr : Ring r h l) (hn : l.length < n) :
    walk r.next h test n (r.next h) = l.find? test :=
  walk_linked hr.linked (nodup_cons.mp hr.nodup).1 hn

/-- A walk backwards from the head finds the last node of the list. -/
theorem Ring.walk_prev {test : α → Bool} {n : Nat} (hr : Ring r h l) (hn : l.length < n) :
    walk r.prev h test n (r.prev h) = l.reverse.find? test := by
  apply hr.reverse.walk_next
  rw [length_reverse]
  exact hn

end ring
