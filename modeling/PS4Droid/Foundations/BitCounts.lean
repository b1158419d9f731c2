import PS4Droid.Foundations.BitRanges

/-!
# Runs of bits in a word

The counting functions of `<bit>`, and the first and the last run of set bits that they find
together with a shift.
-/

namespace BitCounts

open BitRanges

variable {w : ℕ}

/-- The number of zeros from the lowest bit on. -/
def countrZero (x : BitVec w) : ℕ := scan (fun i => x.getLsbD i) w 0

def countrOne (x : BitVec w) : ℕ := scan (fun i => !x.getLsbD i) w 0

/-- The number of zeros from the highest bit down. -/
def countlZero (x : BitVec w) : ℕ := scan (fun i => x.getMsbD i) w 0

def countlOne (x : BitVec w) : ℕ := scan (fun i => !x.getMsbD i) w 0

variable {k i : ℕ} {x : BitVec w}

/-- The bits below `k`. -/
theorem getLsbD_low (hk : k < w) (hi : i < w) : ((1#w <<< k) - 1).getLsbD i = decide (i < k) := by
  have hpow : 2 ^ k < 2 ^ w := Nat.pow_lt_pow_right (by decide) hk
  have hone : 1 < 2 ^ w := Nat.one_lt_two_pow (by omega)
  have hpos : 0 < 2 ^ k := Nat.two_pow_pos k
  have hvalue : ((1#w <<< k) - 1).toNat = 2 ^ k - 1 := by
    rw [BitVec.toNat_sub, BitVec.toNat_shiftLeft, BitVec.toNat_ofNat, Nat.mod_eq_of_lt hone,
      Nat.shiftLeft_eq, Nat.one_mul, Nat.mod_eq_of_lt hpow]
    have hlit : (1 : BitVec w).toNat = 1 := by
      rw [show (1 : BitVec w) = 1#w from rfl, BitVec.toNat_ofNat, Nat.mod_eq_of_lt hone]
    rw [hlit, show 2 ^ w - 1 + 2 ^ k = 2 ^ w + (2 ^ k - 1) by omega, Nat.add_mod_left,
      Nat.mod_eq_of_lt (by omega)]
  rw [← BitVec.testBit_toNat, hvalue, Nat.testBit_two_pow_sub_one]

theorem getLsbD_high (hk : k < w) (hi : i < w) :
    (~~~((1#w <<< k) - 1)).getLsbD i = decide (k ≤ i) := by
  rw [BitVec.getLsbD_not, getLsbD_low hk hi, decide_eq_true hi, Bool.true_and, ← decide_not]
  exact decide_eq_decide.mpr Nat.not_lt

theorem exists_bit (hx : x ≠ 0) : ∃ i < w, x.getLsbD i = true := by
  by_contra hnone
  refine hx (BitVec.eq_of_getLsbD_eq fun i hi => ?_)
  have hbit : ¬ x.getLsbD i = true := fun h => hnone ⟨i, hi, h⟩
  simpa using hbit

/-- The first run of set bits: where it begins, and how long it is. -/
structure FirstRun (x : BitVec w) (first count : ℕ) : Prop where
  le : first + count ≤ w
  pos : 0 < count
  below : ∀ i < first, x.getLsbD i = false
  inside : ∀ i, first ≤ i → i < first + count → x.getLsbD i = true
  behind : first + count < w → x.getLsbD (first + count) = false

theorem firstRun_count (hx : x ≠ 0) :
    FirstRun x (countrZero x) (countrOne (x >>> countrZero x)) := by
  obtain ⟨i, hi, hbit⟩ := exists_bit hx
  obtain ⟨-, hub, hbelow, hat⟩ := scan_spec (fun i => x.getLsbD i) w 0
  rw [← countrZero, Nat.zero_add] at hub hat
  rw [← countrZero] at hbelow
  have hfirst : countrZero x < w := by
    by_contra hge
    rw [hbelow i (Nat.zero_le i) (by omega)] at hbit
    simp at hbit
  obtain ⟨-, hub', hbelow', hat'⟩ := scan_spec (fun i => !(x >>> countrZero x).getLsbD i) w 0
  rw [← countrOne, Nat.zero_add] at hub' hat'
  rw [← countrOne] at hbelow'
  simp only [BitVec.getLsbD_ushiftRight, Bool.not_eq_eq_eq_not, Bool.not_true,
    Bool.not_false] at hbelow' hat'
  have hinside : ∀ i, countrZero x ≤ i → i < countrZero x + countrOne (x >>> countrZero x) →
      x.getLsbD i = true := by
    intro i hle hlt
    have := hbelow' (i - countrZero x) (Nat.zero_le _) (by omega)
    rwa [Nat.add_sub_cancel' hle] at this
  have hstart : x.getLsbD (countrZero x) = true := hat hfirst
  have hpos : 0 < countrOne (x >>> countrZero x) := by
    by_contra hzero
    have := hat' (by omega)
    rw [Nat.eq_zero_of_not_pos hzero, Nat.add_zero, hstart] at this
    simp at this
  refine ⟨?_, hpos, fun i hlt => hbelow i (Nat.zero_le i) hlt, hinside, fun hlt => hat' (by omega)⟩
  have hlast := hinside (countrZero x + countrOne (x >>> countrZero x) - 1) (by omega) (by omega)
  have := BitVec.lt_of_getLsbD hlast
  omega

/-- The last run of set bits: the number of zeros above it, and how long it is. -/
structure LastRun (x : BitVec w) (empty count : ℕ) : Prop where
  le : empty + count ≤ w
  pos : 0 < count
  above : ∀ i, w - empty ≤ i → i < w → x.getLsbD i = false
  inside : ∀ i, w - (empty + count) ≤ i → i < w - empty → x.getLsbD i = true
  before : empty + count < w → x.getLsbD (w - (empty + count) - 1) = false

theorem getLsbD_eq_getMsbD (hi : i < w) : x.getLsbD i = x.getMsbD (w - 1 - i) := by
  rw [BitVec.getMsbD_eq_getLsbD, decide_eq_true (by omega), Bool.true_and]
  congr 1
  omega

theorem lastRun_count (hx : x ≠ 0) :
    LastRun x (countlZero x) (countlOne (x <<< countlZero x)) := by
  obtain ⟨i, hi, hbit⟩ := exists_bit hx
  rw [getLsbD_eq_getMsbD hi] at hbit
  obtain ⟨-, hub, hbelow, hat⟩ := scan_spec (fun i => x.getMsbD i) w 0
  rw [← countlZero, Nat.zero_add] at hub hat
  rw [← countlZero] at hbelow
  have hfirst : countlZero x < w := by
    by_contra hge
    rw [hbelow _ (Nat.zero_le _) (by omega)] at hbit
    simp at hbit
  obtain ⟨-, hub', hbelow', hat'⟩ := scan_spec (fun i => !(x <<< countlZero x).getMsbD i) w 0
  rw [← countlOne, Nat.zero_add] at hub' hat'
  rw [← countlOne] at hbelow'
  simp only [BitVec.getMsbD_shiftLeft, Bool.not_eq_eq_eq_not, Bool.not_true,
    Bool.not_false] at hbelow' hat'
  have hinside : ∀ k, countlZero x ≤ k → k < countlZero x + countlOne (x <<< countlZero x) →
      x.getMsbD k = true := by
    intro k hle hlt
    have := hbelow' (k - countlZero x) (Nat.zero_le _) (by omega)
    rwa [Nat.sub_add_cancel hle] at this
  have hstart : x.getMsbD (countlZero x) = true := hat hfirst
  have hpos : 0 < countlOne (x <<< countlZero x) := by
    by_contra hzero
    have := hat' (by omega)
    rw [Nat.eq_zero_of_not_pos hzero, Nat.zero_add, hstart] at this
    simp at this
  have hle : countlZero x + countlOne (x <<< countlZero x) ≤ w := by
    have hlast := hinside (countlZero x + countlOne (x <<< countlZero x) - 1) (by omega) (by omega)
    have := BitVec.lt_of_getMsbD hlast
    omega
  refine ⟨hle, hpos, fun i hi hlt => ?_, fun i hi hlt => ?_, fun hlt => ?_⟩
  · rw [getLsbD_eq_getMsbD hlt]
    exact hbelow _ (Nat.zero_le _) (by omega)
  · rw [getLsbD_eq_getMsbD (by omega)]
    exact hinside _ (by omega) (by omega)
  · rw [getLsbD_eq_getMsbD (by omega)]
    have := hat' (by omega)
    rw [show w - 1 - (w - (countlZero x + countlOne (x <<< countlZero x)) - 1) =
      countlOne (x <<< countlZero x) + countlZero x by omega]
    exact this

end BitCounts
