import Mathlib.Data.Nat.Bitwise
import Mathlib.Tactic.NormNum
import Mathlib.Tactic.Ring

/-!
# Machine words

Bits of words, and sums and differences of 64-bit numbers, which wrap at `2 ^ 64`.
-/

namespace PS4Droid.BitWords

/-!
### Bits

A word is a number below a power of two. Fields packed next to each other are read back by a
division and a remainder, and reading a field commutes with the union of two words.
-/

/-! ### Fields -/

section Fields

variable {v offset width offset' width' : ℕ}

/-- The `width` bits from `offset` on. -/
def field (n offset width : ℕ) : ℕ :=
  n / 2 ^ offset % 2 ^ width

theorem field_or (a b offset width : ℕ) :
    field (a ||| b) offset width = field a offset width ||| field b offset width := by
  simp only [field, Nat.or_div_two_pow, Nat.or_mod_two_pow]

/-- A value moved to its offset is read back there. -/
theorem field_self (hv : v < 2 ^ width) : field (v * 2 ^ offset) offset width = v := by
  rw [field, Nat.mul_div_cancel _ (by positivity), Nat.mod_eq_of_lt hv]

/-- Below its offset a moved value has no bit. -/
theorem field_below (hle : offset' + width' ≤ offset) :
    field (v * 2 ^ offset) offset' width' = 0 := by
  obtain ⟨k, rfl⟩ := Nat.exists_eq_add_of_le hle
  have hsplit : v * 2 ^ (offset' + width' + k) = v * 2 ^ k * 2 ^ width' * 2 ^ offset' := by ring
  rw [field, hsplit, Nat.mul_div_cancel _ (by positivity), Nat.mul_mod_left]

/-- Nor has it one above its width. -/
theorem field_above (hv : v < 2 ^ width) (hle : offset + width ≤ offset') :
    field (v * 2 ^ offset) offset' width' = 0 := by
  have hlt : v * 2 ^ offset < 2 ^ offset' := by
    calc v * 2 ^ offset < 2 ^ width * 2 ^ offset := by gcongr
      _ = 2 ^ (offset + width) := by ring
      _ ≤ 2 ^ offset' := Nat.pow_le_pow_right (by norm_num) hle
  rw [field, Nat.div_eq_of_lt hlt, Nat.zero_mod]

/-- Fields that do not meet share no bit. -/
theorem field_other (hv : v < 2 ^ width)
    (hapart : offset' + width' ≤ offset ∨ offset + width ≤ offset') :
    field (v * 2 ^ offset) offset' width' = 0 := by
  rcases hapart with hle | hle
  · exact field_below hle
  · exact field_above hv hle

/-- Masking by the bits of a field keeps the field in its place. -/
theorem and_mask (n offset width : ℕ) :
    n &&& (2 ^ width - 1) * 2 ^ offset = field n offset width * 2 ^ offset := by
  apply Nat.eq_of_testBit_eq
  intro i
  simp only [field, Nat.testBit_and, Nat.testBit_mul_two_pow, Nat.testBit_two_pow_sub_one,
    Nat.testBit_mod_two_pow, Nat.testBit_div_two_pow]
  by_cases hle : offset ≤ i
  · simp [hle, Nat.sub_add_cancel hle, Bool.and_comm]
  · simp [hle]

end Fields

end PS4Droid.BitWords

/-! ### Unsigned sums and differences -/

namespace PS4Droid

/-- Unsigned 64-bit addition. -/
def add64 (a b : ℕ) : ℕ := (a + b) % 2 ^ 64

/-- Unsigned 64-bit subtraction. -/
def sub64 (a b : ℕ) : ℕ := (a + 2 ^ 64 - b % 2 ^ 64) % 2 ^ 64

variable {a b : ℕ}

theorem add64_eq (h : a + b < 2 ^ 64) : add64 a b = a + b := Nat.mod_eq_of_lt h

theorem sub64_eq (ha : a < 2 ^ 64) (h : b ≤ a) : sub64 a b = a - b := by
  unfold sub64
  omega

theorem add64_lt (a b : ℕ) : add64 a b < 2 ^ 64 := Nat.mod_lt _ (by norm_num)

theorem sub64_lt (a b : ℕ) : sub64 a b < 2 ^ 64 := Nat.mod_lt _ (by norm_num)

/-- `Common::AlignUp`; the value is a `u64` and the alignment is not zero. -/
def alignUp (value alignment : ℕ) : ℕ :=
  if value % alignment = 0 then value else add64 (value - value % alignment) alignment

/-- `Common::AlignDown`. -/
def alignDown (value alignment : ℕ) : ℕ := value - value % alignment

end PS4Droid
