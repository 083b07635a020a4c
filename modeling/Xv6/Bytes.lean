-- Memory as a map from addresses to bytes: little-endian numbers of any width,
-- and runs of bytes copied in at an address. Scans of tables for a slot.
import Mathlib.Data.Nat.Basic
import Mathlib.Logic.Function.Basic
import Mathlib.Tactic.Ring

namespace bytes

abbrev Mem := Nat → UInt8

/-- The number held by the `k` bytes at address `a`, least byte first. -/
def le (m : Mem) (a : Nat) : Nat → Nat
  | 0 => 0
  | k + 1 => (m a).toNat + 256 * le m (a + 1) k

/-- Store `v` in the `k` bytes at address `a`, least byte first. What does not fit is cut. -/
def setLe (m : Mem) (a k v : Nat) : Mem := fun j =>
  if a ≤ j ∧ j < a + k then UInt8.ofNat (v / 256 ^ (j - a)) else m j

/-- Copy `k` bytes of `src` to address `a`. -/
def blit (m : Mem) (a k : Nat) (src : Nat → UInt8) : Mem := fun j =>
  if a ≤ j ∧ j < a + k then src (j - a) else m j

/-- The `k` bytes at address `a`. -/
def slice (m : Mem) (a k : Nat) : List UInt8 := (List.range k).map (fun i => m (a + i))

/-! ## Numbers -/

variable {m : Mem}

theorem le_congr {m' : Mem} {a k : Nat} (h : ∀ j, a ≤ j → j < a + k → m j = m' j) :
    le m a k = le m' a k := by
  induction k generalizing a with
  | zero => rfl
  | succ k ih =>
    simp only [le]
    rw [h a (by omega) (by omega), ih (fun j h1 h2 => h j (by omega) (by omega))]

theorem le_lt (m : Mem) (a k : Nat) : le m a k < 256 ^ k := by
  induction k generalizing a with
  | zero => simp [le]
  | succ k ih =>
    have h1 := (m a).toNat_lt
    have h2 := ih (a + 1)
    simp only [le, Nat.pow_succ]
    omega

theorem le_setLe (m : Mem) (a k v : Nat) : le (setLe m a k v) a k = v % 256 ^ k := by
  induction k generalizing m a v with
  | zero => simp [le, Nat.mod_one]
  | succ k ih =>
    have htail : le (setLe m a (k + 1) v) (a + 1) k = le (setLe m (a + 1) k (v / 256))
        (a + 1) k := by
      apply le_congr
      intro j h1 h2
      have hj : j - a = (j - (a + 1)) + 1 := by omega
      simp only [setLe, h1, h2, show a ≤ j by omega, show j < a + (k + 1) by omega,
        and_self, if_true]
      rw [hj, Nat.pow_succ, Nat.mul_comm, Nat.div_div_eq_div_mul]
    have hhead : (setLe m a (k + 1) v a).toNat = v % 256 := by simp [setLe]
    rw [le, hhead, htail, ih, Nat.pow_succ, Nat.mul_comm (256 ^ k) 256, Nat.mod_mul]

theorem le_setLe_of_lt {a k v : Nat} (h : v < 256 ^ k) : le (setLe m a k v) a k = v := by
  rw [le_setLe, Nat.mod_eq_of_lt h]

theorem setLe_out {a k v j : Nat} (h : j < a ∨ a + k ≤ j) : setLe m a k v j = m j := by
  simp only [setLe]
  rw [if_neg (by omega)]

theorem le_setLe_disjoint {a k v b l : Nat} (h : b + l ≤ a ∨ a + k ≤ b) :
    le (setLe m a k v) b l = le m b l :=
  le_congr (fun j h1 h2 => setLe_out (by omega))

/-- A number of known bytes. -/
theorem le_of_bytes {a k v : Nat} (h : ∀ j < k, m (a + j) = UInt8.ofNat (v / 256 ^ j)) :
    le m a k = v % 256 ^ k := by
  rw [← le_setLe m a k v]
  apply le_congr
  intro j h1 h2
  obtain ⟨i, rfl⟩ := Nat.exists_eq_add_of_le h1
  have hi : i < k := by omega
  simp only [setLe, h i hi, Nat.add_sub_cancel_left, Nat.le_add_right, h2, and_self, if_true]

/-! ## Runs of bytes -/

theorem blit_out {a k j : Nat} {src : Nat → UInt8} (h : j < a ∨ a + k ≤ j) :
    blit m a k src j = m j := by
  simp only [blit]
  rw [if_neg (by omega)]

theorem blit_in {a k j : Nat} {src : Nat → UInt8} (h : a ≤ j ∧ j < a + k) :
    blit m a k src j = src (j - a) := by
  simp only [blit]
  rw [if_pos h]

theorem blit_cons {d n : Nat} {f : Nat → UInt8} :
    blit m d (n + 1) f = blit (Function.update m d (f 0)) (d + 1) n fun i => f (i + 1) := by
  funext j
  by_cases hj : j = d
  · subst hj
    simp [blit]
  · simp only [blit, Function.update_of_ne hj]
    by_cases hin : d + 1 ≤ j ∧ j < d + 1 + n
    · rw [if_pos hin, if_pos (by omega), show j - (d + 1) + 1 = j - d by omega]
    · rw [if_neg hin, if_neg (by omega)]

theorem blit_snoc {d n : Nat} {f : Nat → UInt8} :
    blit m d (n + 1) f = blit (Function.update m (d + n) (f n)) d n f := by
  funext j
  by_cases hj : j = d + n
  · subst hj
    simp [blit]
  · simp only [blit, Function.update_of_ne hj]
    by_cases hin : d ≤ j ∧ j < d + n
    · rw [if_pos hin, if_pos (by omega)]
    · rw [if_neg hin, if_neg (by omega)]

theorem blit_eq_iff {d n : Nat} {f g : Nat → UInt8} :
    blit m d n f = blit m d n g ↔ ∀ i < n, f i = g i := by
  constructor
  · intro h i hi
    have hj := congrFun h (d + i)
    rwa [blit_in (by omega), blit_in (by omega), Nat.add_sub_cancel_left] at hj
  · intro h
    funext j
    simp only [blit]
    split
    · exact h _ (by omega)
    · rfl

@[simp] theorem length_slice (m : Mem) (a k : Nat) : (slice m a k).length = k := by
  simp [slice]

theorem slice_append (m : Mem) (a j k : Nat) :
    slice m a (j + k) = slice m a j ++ slice m (a + j) k := by
  unfold slice
  rw [List.range_add, List.map_append, List.map_map]
  simp [Function.comp_def, Nat.add_assoc]

/-- The bytes of a buffer from `i` on, read one by one. -/
theorem map_getD_range (buf : List UInt8) (i n : Nat) (h : i + n ≤ buf.length) :
    (List.range n).map (fun a => buf.getD (i + a) 0) = (buf.drop i).take n := by
  apply List.ext_getElem
  · simp
    omega
  · intro a h1 h2
    simp only [List.length_map, List.length_range] at h1
    simp [List.getElem?_eq_getElem (show i + a < buf.length by omega)]

theorem map_getD_all (buf : List UInt8) :
    (List.range buf.length).map (fun a => buf.getD a 0) = buf := by
  have h := map_getD_range buf 0 buf.length (by omega)
  simpa using h

/-! ## Scans of tables -/

section Scan

variable {n i : Nat} {test : Nat → Bool}

theorem scan_eq_some (h : (List.range n).find? test = some i) : i < n ∧ test i = true :=
  ⟨List.mem_range.mp (List.mem_of_find?_eq_some h), List.find?_some h⟩

theorem scan_eq_none (h : (List.range n).find? test = none) (hi : i < n) : test i = false := by
  simpa using List.find?_eq_none.mp h i (List.mem_range.mpr hi)

end Scan

end bytes
