-- Ring buffers with counters that run on: the next byte goes to the number of writes modulo the
-- size of the buffer, and the counters themselves wrap at a multiple of that size.
import Mathlib.Data.List.Basic
import Mathlib.Data.Nat.ModEq
import Mathlib.Logic.Function.Basic

open List

namespace fifo

variable {α : Type*}

/-- A buffer, and how often it was read and written, modulo `M`. -/
structure Queue (α : Type*) where
  data : Nat → α
  nread : Nat
  nwrite : Nat

/-- The buffer has `N` places, and the counters wrap at `M`. -/
structure Sizes (N M : Nat) : Prop where
  pos : 0 < N
  lt : N < M
  dvd : N ∣ M

variable {N M : Nat} {q : Queue α}

/-- The number of elements in the buffer. -/
def Queue.count (M : Nat) (q : Queue α) : Nat := (q.nwrite + M - q.nread) % M

/-- The elements in the buffer, oldest first. -/
def Queue.contents (N M : Nat) (q : Queue α) : List α :=
  (List.range (q.count M)).map fun j => q.data ((q.nread + j) % N)

structure Queue.Valid (N M : Nat) (q : Queue α) : Prop where
  nread : q.nread < M
  nwrite : q.nwrite < M
  count : q.count M ≤ N

def Queue.push (N M : Nat) (q : Queue α) (a : α) : Queue α :=
  { q with data := Function.update q.data (q.nwrite % N) a, nwrite := (q.nwrite + 1) % M }

def Queue.pop (M : Nat) (q : Queue α) : Queue α := { q with nread := (q.nread + 1) % M }

/-- The write counter is so many ahead of the read counter. -/
theorem Queue.Valid.nwrite_eq (h : q.Valid N M) : q.nwrite = (q.nread + q.count M) % M := by
  have h1 := h.nread
  have h2 := h.nwrite
  unfold Queue.count
  rcases Nat.lt_or_ge q.nwrite q.nread with hlt | hge
  · rw [Nat.mod_eq_of_lt (by omega : q.nwrite + M - q.nread < M),
      show q.nread + (q.nwrite + M - q.nread) = q.nwrite + M by omega, Nat.add_mod_right,
      Nat.mod_eq_of_lt h2]
  · rw [show q.nwrite + M - q.nread = (q.nwrite - q.nread) + M by omega, Nat.add_mod_right,
      Nat.mod_eq_of_lt (by omega : q.nwrite - q.nread < M),
      show q.nread + (q.nwrite - q.nread) = q.nwrite by omega, Nat.mod_eq_of_lt h2]

/-- The count is what the write counter is ahead by. -/
theorem count_eq {c : Nat} (hr : q.nread < M) (hc : c < M) (hw : q.nwrite = (q.nread + c) % M) :
    q.count M = c := by
  unfold Queue.count
  rw [hw]
  rcases Nat.lt_or_ge (q.nread + c) M with hlt | hge
  · rw [Nat.mod_eq_of_lt hlt, show q.nread + c + M - q.nread = c + M by omega, Nat.add_mod_right,
      Nat.mod_eq_of_lt hc]
  · have hmod : (q.nread + c) % M = q.nread + c - M := by
      rw [Nat.mod_eq_sub_mod hge, Nat.mod_eq_of_lt (by omega)]
    rw [hmod, show q.nread + c - M + M - q.nread = c by omega, Nat.mod_eq_of_lt hc]

theorem Queue.Valid.empty_iff (h : q.Valid N M) : q.nread = q.nwrite ↔ q.count M = 0 := by
  have h1 := h.nread
  constructor
  · intro he
    apply count_eq h1 (by omega)
    rw [Nat.add_zero, Nat.mod_eq_of_lt h1, he]
  · intro h0
    rw [h.nwrite_eq, h0, Nat.add_zero, Nat.mod_eq_of_lt h1]

theorem Queue.Valid.full_iff (hs : Sizes N M) (h : q.Valid N M) :
    q.nwrite = (q.nread + N) % M ↔ q.count M = N := by
  constructor
  · exact count_eq h.nread hs.lt
  · intro hc
    rw [h.nwrite_eq, hc]

theorem Queue.Valid.push (hs : Sizes N M) (h : q.Valid N M) (hroom : q.count M < N) (a : α) :
    (q.push N M a).Valid N M ∧ (q.push N M a).count M = q.count M + 1 := by
  have hlt := hs.lt
  have hcount : (q.push N M a).count M = q.count M + 1 := by
    refine count_eq (q := q.push N M a) h.nread (by omega) ?_
    change (q.nwrite + 1) % M = (q.nread + (q.count M + 1)) % M
    rw [h.nwrite_eq, Nat.mod_add_mod, Nat.add_assoc]
  exact ⟨⟨h.nread, Nat.mod_lt _ (by omega), by omega⟩, hcount⟩

/-- What is pushed comes last. -/
theorem Queue.Valid.contents_push (hs : Sizes N M) (h : q.Valid N M)
    (hroom : q.count M < N) (a : α) :
    (q.push N M a).contents N M = q.contents N M ++ [a] := by
  have hlast : q.nwrite % N = (q.nread + q.count M) % N := by
    rw [h.nwrite_eq, Nat.mod_mod_of_dvd _ hs.dvd]
  unfold Queue.contents
  rw [(h.push hs hroom a).2, range_succ, map_append]
  congr 1
  · apply map_congr_left
    intro j hj
    have hj := mem_range.mp hj
    apply Function.update_of_ne
    rw [hlast]
    -- two of the next `N` places are one place only if they are the same
    intro heq
    have hdvd : N ∣ (q.nread + q.count M) - (q.nread + j) :=
      (Nat.modEq_iff_dvd' (by omega)).mp heq
    have := Nat.le_of_dvd (by omega) hdvd
    omega
  · rw [map_singleton]
    congr 1
    change Function.update q.data (q.nwrite % N) a ((q.nread + q.count M) % N) = a
    rw [← hlast, Function.update_self]

theorem Queue.Valid.pop (h : q.Valid N M) (hne : q.count M ≠ 0) :
    (q.pop M).Valid N M ∧ (q.pop M).count M + 1 = q.count M := by
  have hlt : q.count M < M := Nat.mod_lt _ (Nat.lt_of_le_of_lt (Nat.zero_le _) h.nread)
  have hcount : (q.pop M).count M = q.count M - 1 := by
    refine count_eq (q := q.pop M) (Nat.mod_lt _ (by omega)) (by omega) ?_
    change q.nwrite = ((q.nread + 1) % M + (q.count M - 1)) % M
    rw [Nat.mod_add_mod, h.nwrite_eq,
      show q.nread + 1 + (q.count M - 1) = q.nread + q.count M by omega]
  have hle := h.count
  exact ⟨⟨Nat.mod_lt _ (by omega), h.nwrite, by omega⟩, by omega⟩

/-- The oldest element is popped. -/
theorem Queue.Valid.contents_pop (hs : Sizes N M) (h : q.Valid N M) (hne : q.count M ≠ 0) :
    q.contents N M = q.data (q.nread % N) :: (q.pop M).contents N M := by
  unfold Queue.contents
  rw [← (h.pop hne).2, range_succ_eq_map, map_cons, map_map, Nat.add_zero]
  congr 1
  apply map_congr_left
  intro j _
  change q.data ((q.nread + (j + 1)) % N) = q.data (((q.nread + 1) % M + j) % N)
  rw [← Nat.mod_mod_of_dvd ((q.nread + 1) % M + j) hs.dvd, Nat.mod_add_mod,
    Nat.mod_mod_of_dvd _ hs.dvd, show q.nread + (j + 1) = q.nread + 1 + j by omega]

/-! ## The write counter moved back -/

def Queue.unpush (M : Nat) (q : Queue α) : Queue α := { q with nwrite := (q.nwrite + M - 1) % M }

theorem Queue.Valid.unpush (h : q.Valid N M) (hne : q.count M ≠ 0) :
    (q.unpush M).Valid N M ∧ (q.unpush M).count M + 1 = q.count M := by
  have hlt : q.count M < M := Nat.mod_lt _ (Nat.lt_of_le_of_lt (Nat.zero_le _) h.nread)
  have hr := h.nread
  have hcount : (q.unpush M).count M = q.count M - 1 := by
    refine count_eq (q := q.unpush M) hr (by omega) ?_
    change (q.nwrite + M - 1) % M = (q.nread + (q.count M - 1)) % M
    rw [h.nwrite_eq]
    rcases Nat.lt_or_ge (q.nread + q.count M) M with hc | hc
    · rw [Nat.mod_eq_of_lt hc, show q.nread + q.count M + M - 1 =
        q.nread + (q.count M - 1) + M by omega, Nat.add_mod_right]
    · have hmod : (q.nread + q.count M) % M = q.nread + q.count M - M := by
        rw [Nat.mod_eq_sub_mod hc, Nat.mod_eq_of_lt (by omega)]
      rw [hmod, show q.nread + q.count M - M + M - 1 = q.nread + (q.count M - 1) by omega]
  have hle := h.count
  exact ⟨⟨hr, Nat.mod_lt _ (by omega), by omega⟩, by omega⟩

/-- Up to a write counter that is further back, the elements are the first ones. -/
theorem Queue.Valid.contents_take (h : q.Valid N M) {k : Nat} (hk : k ≤ q.count M) :
    Queue.contents N M { q with nwrite := (q.nread + k) % M } = (q.contents N M).take k := by
  have hlt : q.count M < M := Nat.mod_lt _ (Nat.lt_of_le_of_lt (Nat.zero_le _) h.nread)
  have hcount : Queue.count M { q with nwrite := (q.nread + k) % M } = k :=
    count_eq (q := { q with nwrite := (q.nread + k) % M }) h.nread (by omega) rfl
  unfold Queue.contents
  rw [hcount, ← map_take, take_range, Nat.min_eq_left hk]

theorem Queue.length_contents (N M : Nat) (q : Queue α) : (q.contents N M).length = q.count M := by
  simp [Queue.contents]

/-- The newest element is taken back. -/
theorem Queue.Valid.contents_unpush (hs : Sizes N M) (h : q.Valid N M) (hne : q.count M ≠ 0) :
    q.contents N M = (q.unpush M).contents N M ++ [q.data ((q.nwrite + M - 1) % M % N)] := by
  obtain ⟨hun, hcount⟩ := h.unpush hne
  have hlast : (q.nwrite + M - 1) % M % N = (q.nread + (q.unpush M).count M) % N := by
    have : (q.nwrite + M - 1) % M = (q.nread + (q.unpush M).count M) % M := hun.nwrite_eq
    rw [this, Nat.mod_mod_of_dvd _ hs.dvd]
  unfold Queue.contents
  rw [← hcount, range_succ, map_append, map_singleton, hlast]
  rfl

end fifo
