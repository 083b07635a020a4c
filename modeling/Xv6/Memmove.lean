-- memmove of the kernel (string.c) and of the user library (ulib.c), over a memory of bytes with
-- 32-bit pointers. The kernel's chooses the direction of the copy, the library's always goes up.
import Xv6.Bytes
import Xv6.Params

open bytes

namespace xv6

/-! ## The code -/

/-- `while(n-- > 0) *d++ = *s++`. -/
def copyUp : Nat → Mem → Nat → Nat → Mem
  | 0, m, _, _ => m
  | n + 1, m, d, s => copyUp n (Function.update m d (m s)) (uint (d + 1)) (uint (s + 1))

/-- `--p` of a pointer. -/
def pred (p : Nat) : Nat := if p = 0 then 2 ^ 32 - 1 else p - 1

/-- `while(n-- > 0) *--d = *--s`. -/
def copyDown : Nat → Mem → Nat → Nat → Mem
  | 0, m, _, _ => m
  | n + 1, m, d, s =>
    copyDown n (Function.update m (pred d) (m (pred s))) (pred d) (pred s)

namespace string

def memmove (m : Mem) (dst src n : Nat) : Mem :=
  if src < dst ∧ uint (src + n) > dst then copyDown n m (uint (dst + n)) (uint (src + n))
  else copyUp n m dst src

end string

namespace ulib

def memmove (m : Mem) (dst src : Nat) (n : Int) : Mem := copyUp n.toNat m dst src

end ulib

/-! ## What the loops leave -/

section Loops

variable {m : Mem} {n d s : Nat}

theorem uint_of_lt (h : n < 2 ^ 32) : uint n = n := Nat.mod_eq_of_lt h

/-- To a lower address, every byte is read before it is overwritten. -/
theorem copyUp_low (hds : d ≤ s) (hs : s + n ≤ 2 ^ 32) :
    copyUp n m d s = blit m d n fun i => m (s + i) := by
  induction n generalizing m d s with
  | zero =>
    funext j
    rw [copyUp, blit, if_neg (by omega)]
  | succ n ih =>
    rw [copyUp, blit_cons]
    cases n with
    | zero =>
      funext j
      rw [copyUp, blit, if_neg (by omega), Nat.add_zero]
    | succ n =>
      rw [uint_of_lt (by omega), uint_of_lt (by omega), ih (by omega) (by omega)]
      refine blit_eq_iff.mpr fun i _ => ?_
      rw [Function.update_of_ne (by omega), Nat.add_assoc, Nat.add_comm 1 i]

/-- To a higher address, the bytes between the two addresses come again and again. -/
theorem copyUp_high (hsd : s < d) (hd : d + n ≤ 2 ^ 32) :
    copyUp n m d s = blit m d n fun i => m (s + i % (d - s)) := by
  induction n generalizing m d s with
  | zero =>
    funext j
    rw [copyUp, blit, if_neg (by omega)]
  | succ n ih =>
    rw [copyUp, blit_cons]
    cases n with
    | zero =>
      funext j
      rw [copyUp, blit, if_neg (by omega), Nat.zero_mod, Nat.add_zero]
    | succ n =>
      rw [uint_of_lt (by omega), uint_of_lt (by omega), ih (by omega) (by omega), Nat.zero_mod]
      refine blit_eq_iff.mpr fun i _ => ?_
      have hgap : d + 1 - (s + 1) = d - s := by omega
      have hlt : i % (d - s) < d - s := Nat.mod_lt _ (by omega)
      rw [hgap, ← Nat.mod_add_mod]
      -- the byte before the destination is the last of a round
      by_cases hlast : i % (d - s) + 1 = d - s
      · rw [show s + 1 + i % (d - s) = d by omega, Function.update_self, hlast, Nat.mod_self,
          Nat.add_zero]
      · have hmod : (i % (d - s) + 1) % (d - s) = i % (d - s) + 1 := Nat.mod_eq_of_lt (by omega)
        rw [Function.update_of_ne (by omega), hmod, Nat.add_assoc, Nat.add_comm 1]

/-- `--d` takes back a `d++`. -/
theorem pred_uint {a : Nat} (ha : a < 2 ^ 32) : pred (uint (a + 1)) = a := by
  unfold pred uint
  split <;> omega

/-- Downwards from the ends to a higher address, every byte is read before it is overwritten. -/
theorem copyDown_high {d' s' : Nat} (hsd : s ≤ d) (hd : d + n ≤ 2 ^ 32) (hd' : d' = uint (d + n))
    (hs' : s' = uint (s + n)) : copyDown n m d' s' = blit m d n fun i => m (s + i) := by
  induction n generalizing m d' s' with
  | zero =>
    funext j
    rw [copyDown, blit, if_neg (by omega)]
  | succ n ih =>
    subst hd' hs'
    have hdn : d + n < 2 ^ 32 := by omega
    have hsn : s + n < 2 ^ 32 := by omega
    rw [copyDown, ← Nat.add_assoc, ← Nat.add_assoc, pred_uint hdn, pred_uint hsn, blit_snoc,
      ih (by omega) (uint_of_lt hdn).symm (uint_of_lt hsn).symm, blit_eq_iff]
    intro i hi
    rw [Function.update_of_ne (by omega)]

end Loops

section Memmove

variable {m : Mem} {dst src n : Nat}

theorem string.memmove_eq (hs : src + n ≤ 2 ^ 32) (hd : dst + n ≤ 2 ^ 32) :
    string.memmove m dst src n = blit m dst n fun i => m (src + i) := by
  unfold string.memmove
  split
  · exact copyDown_high (by omega) hd rfl rfl
  · rename_i hchoice
    by_cases hle : dst ≤ src
    · exact copyUp_low hle hs
    · -- the ranges do not meet: the end of the source is below the destination
      rw [uint_of_lt (by omega)] at hchoice
      rw [copyUp_high (by omega) hd, blit_eq_iff]
      intro i hi
      rw [Nat.mod_eq_of_lt (by omega)]

/-- The bytes at the destination are those that were at the source, however the ranges overlap, and
no other byte changes. -/
theorem memmove_copies_a_snapshot (hs : src + n ≤ 2 ^ 32) (hd : dst + n ≤ 2 ^ 32) :
    (∀ i < n, string.memmove m dst src n (dst + i) = m (src + i)) ∧
      ∀ a, a < dst ∨ dst + n ≤ a → string.memmove m dst src n a = m a := by
  rw [string.memmove_eq hs hd]
  refine ⟨fun i hi => ?_, fun a ha => blit_out ha⟩
  rw [blit_in (by omega), Nat.add_sub_cancel_left]

/-- A memory in which every byte is its own address. -/
def addresses : Mem := fun a => UInt8.ofNat a

theorem addresses_are_moved_up_by_one :
    (∀ i < 4, string.memmove addresses 11 10 4 (11 + i) = addresses (10 + i)) ∧
      ∀ a, a < 11 ∨ 15 ≤ a → string.memmove addresses 11 10 4 a = addresses a :=
  memmove_copies_a_snapshot (by decide) (by decide)

/-- The two agree exactly if the destination is not above the source, or the bytes to copy repeat
those between the two addresses. -/
theorem ulib_memmove_agrees_iff {n : Int} (hn : 0 ≤ n) (hs : src + n ≤ 2 ^ 32)
    (hd : dst + n ≤ 2 ^ 32) :
    ulib.memmove m dst src n = string.memmove m dst src n.toNat ↔
      (src < dst → ∀ i : Nat, i < n → m (src + i) = m (src + i % (dst - src))) := by
  obtain ⟨k, rfl⟩ := Int.eq_ofNat_of_zero_le hn
  rw [Int.toNat_natCast, string.memmove_eq (by omega) (by omega), ulib.memmove, Int.toNat_natCast]
  by_cases hlt : src < dst
  · rw [copyUp_high hlt (by omega), blit_eq_iff]
    refine ⟨fun h _ i hi => (h i (by omega)).symm, fun h i hi => (h hlt i (by omega)).symm⟩
  · rw [copyUp_low (by omega) (by omega)]
    exact iff_of_true rfl fun h => absurd h hlt

theorem the_two_agree_on_a_move_down :
    ulib.memmove addresses 10 11 4 = string.memmove addresses 10 11 4 ↔
      (11 < 10 → ∀ i : Nat, (i : Int) < 4 → addresses (11 + i) = addresses (11 + i % (10 - 11))) :=
  ulib_memmove_agrees_iff (by decide) (by decide) (by decide)

/-- Moved up by one, the library repeats the first byte. -/
theorem the_library_smears_a_byte :
    ulib.memmove addresses 11 10 4 ≠ string.memmove addresses 11 10 4 := by
  intro h
  have h12 := congrFun h 12
  revert h12
  decide

end Memmove

end xv6
