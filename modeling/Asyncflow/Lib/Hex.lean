import Mathlib.Data.List.Basic
import Mathlib.Data.Nat.Bitwise

/-!
# Hexadecimal images

The hexadecimal image of a number in `k` digits, the most significant one first
(`Asyncflow.Hex.image`). Digit `i` from the right is the nibble that a shift by `4 * i` and the
mask `15` leave, so that what a mask does to a number is seen nibble by nibble: the bitwise
operations commute with `Asyncflow.Hex.nibble`.
-/

namespace Asyncflow

namespace Hex

variable {k i v x y : ℕ} {c : Char}

/-! ### Nibbles -/

/-- Digit `i` of the number, from the right. -/
def nibble (x i : ℕ) : ℕ := x >>> (4 * i) &&& 15

theorem nibble_eq_mod (x i : ℕ) : nibble x i = x / 16 ^ i % 16 := by
  have hpow : 2 ^ (4 * i) = 16 ^ i := by rw [Nat.pow_mul]
  rw [nibble, Nat.and_two_pow_sub_one_eq_mod _ 4, Nat.shiftRight_eq_div_pow, hpow]

theorem nibble_lt (x i : ℕ) : nibble x i < 16 := by
  rw [nibble_eq_mod]
  omega

theorem nibble_and (x y i : ℕ) : nibble (x &&& y) i = nibble x i &&& nibble y i := by
  unfold nibble
  rw [Nat.shiftRight_and_distrib]
  refine Nat.eq_of_testBit_eq fun j => ?_
  simp only [Nat.testBit_and]
  grind

theorem nibble_or (x y i : ℕ) : nibble (x ||| y) i = nibble x i ||| nibble y i := by
  unfold nibble
  rw [Nat.shiftRight_or_distrib, Nat.and_or_distrib_right]

/-! ### Digits -/

/-- The digits by their values. -/
def digits : List Char := "0123456789abcdef".toList

/-- The digit of a value. -/
def digit (v : ℕ) : Char := digits.getD v '\x00'

/-- The value of a digit. -/
def digitValue (c : Char) : ℕ := digits.idxOf c

theorem digit_mem : ∀ v < 16, digit v ∈ digits := by decide

theorem digitValue_digit : ∀ v < 16, digitValue (digit v) = v := by decide

theorem digit_inj (hx : x < 16) (hy : y < 16) : digit x = digit y ↔ x = y := by
  constructor
  · intro h
    rw [← digitValue_digit x hx, h, digitValue_digit y hy]
  · exact congrArg digit

/-! ### Images -/

/-- **The hexadecimal image** of the number in `k` digits. -/
def image (k x : ℕ) : List Char := (List.range k).map fun i => digit (nibble x (k - 1 - i))

theorem length_image (k x : ℕ) : (image k x).length = k := by
  rw [image, List.length_map, List.length_range]

theorem getElem?_image (hi : i < k) : (image k x)[i]? = some (digit (nibble x (k - 1 - i))) := by
  rw [image, List.getElem?_map, List.getElem?_range hi, Option.map_some]

theorem mem_digits_of_mem_image (hc : c ∈ image k x) : c ∈ digits := by
  obtain ⟨i, -, rfl⟩ := List.mem_map.mp hc
  exact digit_mem _ (nibble_lt ..)

/-- Two rows of digits agree if the values do. -/
theorem map_digit_eq_iff {f g : ℕ → ℕ} (hf : ∀ i, f i < 16) (hg : ∀ i, g i < 16) :
    (List.range k).map (fun i => digit (f i)) = (List.range k).map (fun i => digit (g i)) ↔
      ∀ i < k, f i = g i := by
  rw [List.map_inj_left]
  constructor
  · intro h i hi
    exact (digit_inj (hf i) (hg i)).mp (h i (List.mem_range.mpr hi))
  · intro h i hi
    exact (digit_inj (hf i) (hg i)).mpr (h i (List.mem_range.mp hi))

end Hex

end Asyncflow
