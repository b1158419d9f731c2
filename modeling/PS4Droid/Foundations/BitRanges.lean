import Mathlib.Tactic

/-!
# Bit arrays and their ranges

An array of `size` bits is a function on the indices below `size`. Ranges of bits are set, cleared
and cut out, and the bits that are set are visited as maximal ranges, from the lowest up.
-/

namespace BitRanges

variable {size : ℕ} {bits : ℕ → Bool}

/-- The first index from `i` on where `p` holds, within `fuel` indices. -/
def scan (p : ℕ → Bool) : ℕ → ℕ → ℕ
  | 0, i => i
  | fuel + 1, i => if p i then i else scan p fuel (i + 1)

def setRange (size : ℕ) (bits : ℕ → Bool) (start stop : ℕ) : ℕ → Bool :=
  if stop ≤ start ∨ size < stop then bits else fun i => (start ≤ i && i < stop) || bits i

def unsetRange (size : ℕ) (bits : ℕ → Bool) (start stop : ℕ) : ℕ → Bool :=
  if stop ≤ start ∨ size < stop then bits else fun i => !(start ≤ i && i < stop) && bits i

/-- The bits of a range, the others cleared. -/
def cutRange (size : ℕ) (bits : ℕ → Bool) (start stop : ℕ) : ℕ → Bool :=
  if stop ≤ start ∨ size < stop then fun _ => false else fun i => (start ≤ i && i < stop) && bits i

def none (size : ℕ) (bits : ℕ → Bool) : Bool := (List.range size).all fun i => !bits i

/-- The first maximal range of set bits from `start` on; `(size, size)` if there is none. -/
def firstRangeFrom (size : ℕ) (bits : ℕ → Bool) (start : ℕ) : ℕ × ℕ :=
  let first := scan bits (size - start) start
  (first, scan (fun i => !bits i) (size - first) first)

/-- The end of the last range of set bits. -/
def lastRangeEnd (bits : ℕ → Bool) : ℕ → ℕ
  | 0 => 0
  | size + 1 => if bits size then size + 1 else lastRangeEnd bits size

/-- The maximal ranges of set bits from `start` on. -/
def rangesFrom (size : ℕ) (bits : ℕ → Bool) : ℕ → ℕ → List (ℕ × ℕ)
  | 0, _ => []
  | fuel + 1, start =>
    let range := firstRangeFrom size bits start
    if size ≤ range.1 then [] else range :: rangesFrom size bits fuel range.2

def ranges (size : ℕ) (bits : ℕ → Bool) : List (ℕ × ℕ) := rangesFrom size bits size 0

/-! ### Ranges -/

variable {start stop : ℕ}

/-- The bits of a range get one value. -/
theorem changeRange_apply (hlt : start < stop) (hle : stop ≤ size) (enable : Bool) (i : ℕ) :
    (if enable then setRange size bits start stop else unsetRange size bits start stop) i =
      if start ≤ i ∧ i < stop then enable else bits i := by
  cases enable
  · simp only [Bool.false_eq_true, if_false, unsetRange,
      if_neg (show ¬ (stop ≤ start ∨ size < stop) by
      omega)]
    split_ifs with h
    · simp [h]
    · rw [← Bool.decide_and, decide_eq_false h]
      rfl
  · simp only [if_true, setRange, if_neg (show ¬ (stop ≤ start ∨ size < stop) by omega)]
    split_ifs with h
    · simp [h]
    · rw [← Bool.decide_and, decide_eq_false h]
      rfl

theorem cutRange_apply (hlt : start < stop) (hle : stop ≤ size) (i : ℕ) :
    cutRange size bits start stop i = true ↔ (start ≤ i ∧ i < stop) ∧ bits i = true := by
  simp [cutRange, show ¬ (stop ≤ start ∨ size < stop) by omega]

/-! ### Searching -/

theorem scan_spec (p : ℕ → Bool) (fuel i : ℕ) : i ≤ scan p fuel i ∧ scan p fuel i ≤ i + fuel ∧
      (∀ j, i ≤ j → j < scan p fuel i → p j = false) ∧
      (scan p fuel i < i + fuel → p (scan p fuel i) = true) := by
  induction fuel generalizing i with
  | zero =>
    refine ⟨le_rfl, le_rfl, fun j hj hlt => ?_, fun hlt => ?_⟩
    · simp only [scan] at hlt
      omega
    · simp only [scan] at hlt
      omega
  | succ fuel ih =>
    unfold scan
    split_ifs with hp
    · exact ⟨le_rfl, by omega, fun j hj hlt => by omega, fun _ => hp⟩
    · obtain ⟨hle, hub, hbelow, hat⟩ := ih (i + 1)
      refine ⟨by omega, by omega, fun j hj hlt => ?_, fun hlt => hat (by omega)⟩
      by_cases heq : j = i
      · subst heq
        simpa using hp
      · exact hbelow j (by omega) hlt

theorem none_iff : none size bits ↔ ∀ i, i < size → bits i = false := by
  simp [none, List.all_eq_true]

theorem lastRangeEnd_spec (bits : ℕ → Bool) (size : ℕ) :
    lastRangeEnd bits size ≤ size ∧ ∀ i, lastRangeEnd bits size ≤ i → i < size →
      bits i = false := by
  induction size with
  | zero => exact ⟨le_rfl, fun i _ hlt => by omega⟩
  | succ size ih =>
    unfold lastRangeEnd
    split_ifs with hbit
    · exact ⟨le_rfl, fun i hle hlt => by omega⟩
    · refine ⟨by omega, fun i hle hlt => ?_⟩
      by_cases heq : i = size
      · subst heq
        simpa using hbit
      · exact ih.2 i hle (by omega)

/-- The end of the last range is behind a set bit. -/
theorem lastRangeEnd_set (bits : ℕ → Bool) (size : ℕ) (hpos : 0 < lastRangeEnd bits size) :
    bits (lastRangeEnd bits size - 1) = true := by
  induction size with
  | zero => exact absurd hpos (lt_irrefl 0)
  | succ size ih =>
    unfold lastRangeEnd at hpos ⊢
    split_ifs at hpos ⊢ with hbit
    · exact hbit
    · exact ih hpos

theorem firstRangeFrom_spec (bits : ℕ → Bool) (hstart : start ≤ size) :
    start ≤ (firstRangeFrom size bits start).1 ∧
      (firstRangeFrom size bits start).1 ≤ (firstRangeFrom size bits start).2 ∧
      (firstRangeFrom size bits start).2 ≤ size ∧
      (∀ i, start ≤ i → i < (firstRangeFrom size bits start).1 → bits i = false) ∧
      (∀ i, (firstRangeFrom size bits start).1 ≤ i → i < (firstRangeFrom size bits start).2 →
        bits i = true) ∧
      ((firstRangeFrom size bits start).1 < size → (firstRangeFrom size bits start).1 <
        (firstRangeFrom size bits start).2) := by
  obtain ⟨hle, hub, hbelow, hat⟩ := scan_spec bits (size - start) start
  obtain ⟨hle', hub', hbelow', hat'⟩ := scan_spec (fun i => !bits i)
    (size - scan bits (size - start) start) (scan bits (size - start) start)
  simp only [firstRangeFrom]
  refine ⟨hle, hle', by omega, hbelow, fun i hi hlt => ?_, fun hlt => ?_⟩
  · simpa using hbelow' i hi hlt
  · have hbit := hat (by omega)
    rcases Nat.lt_or_ge (scan bits (size - start) start)
      (scan (fun i => !bits i) (size - scan bits (size - start) start)
        (scan bits (size - start) start)) with h | h
    · exact h
    · have heq := le_antisymm h hle'
      have := hat' (by omega)
      rw [heq, hbit] at this
      simp at this

/-- The ranges hold exactly the set bits. -/
theorem mem_rangesFrom {fuel : ℕ} (hfuel : size ≤ start + fuel) (hstart : start ≤ size) (i : ℕ) :
    (∃ r ∈ rangesFrom size bits fuel start, r.1 ≤ i ∧ i < r.2) ↔ start ≤ i ∧ i < size ∧
      bits i = true := by
  induction fuel generalizing start with
  | zero =>
    simp only [rangesFrom, List.not_mem_nil, false_and, exists_const, false_iff]
    omega
  | succ fuel ih =>
    obtain ⟨hle, hmid, hub, hbelow, hin, hpos⟩ := firstRangeFrom_spec bits hstart
    unfold rangesFrom
    dsimp only
    split_ifs with hdone
    · simp only [List.not_mem_nil, false_and, exists_const, false_iff, not_and,
        Bool.not_eq_true]
      intro hi hlt
      exact hbelow i hi (by omega)
    · have hlt := hpos (by omega)
      simp only [List.mem_cons, exists_eq_or_imp]
      rw [@ih (firstRangeFrom size bits start).2 (by omega) hub]
      constructor
      · rintro (⟨h₁, h₂⟩ | ⟨h₁, h₂, h₃⟩)
        · exact ⟨by omega, by omega, hin i h₁ h₂⟩
        · exact ⟨by omega, h₂, h₃⟩
      · rintro ⟨h₁, h₂, h₃⟩
        rcases Nat.lt_or_ge i (firstRangeFrom size bits start).1 with h | h
        · rw [hbelow i h₁ h] at h₃
          exact absurd h₃ (by simp)
        · rcases Nat.lt_or_ge i (firstRangeFrom size bits start).2 with h' | h'
          · exact .inl ⟨h, h'⟩
          · exact .inr ⟨h', h₂, h₃⟩

theorem mem_ranges (size : ℕ) (bits : ℕ → Bool) (i : ℕ) :
    (∃ r ∈ ranges size bits, r.1 ≤ i ∧ i < r.2) ↔ i < size ∧ bits i = true := by
  rw [ranges, mem_rangesFrom (by omega) (by omega)]
  simp

end BitRanges
