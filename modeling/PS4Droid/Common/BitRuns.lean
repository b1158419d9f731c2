import PS4Droid.Common.BitArray

/-!
# The first and the last run of set bits

What the searches look for is stated on bits alone. Upwards both builds find it. Downwards the build
with AVX goes astray exactly when the run ends at the edge of its word and a chunk of zeros lies
below it.
-/

namespace PS4Droid.Common

open BitRanges BitCounts

/-- The first maximal run of set bits from `start` on, clipped there. -/
def IsFirstRun (size : ℕ) (bits : ℕ → Bool) (start : ℕ) (range : ℕ × ℕ) : Prop :=
  (range = (size, size) ∧ ∀ i, start ≤ i → i < size → bits i = false) ∨
    ((start ≤ range.1 ∧ range.1 < range.2 ∧ range.2 ≤ size) ∧
      (∀ i, start ≤ i → i < range.1 → bits i = false) ∧
      (∀ i, range.1 ≤ i → i < range.2 → bits i = true) ∧ (range.2 < size → bits range.2 = false))

/-- The last maximal run of set bits before `stop`, clipped there. -/
def IsLastRun (bits : ℕ → Bool) (stop : ℕ) (range : ℕ × ℕ) : Prop :=
  (range = (0, 0) ∧ ∀ i < stop, bits i = false) ∨
    ((range.1 < range.2 ∧ range.2 ≤ stop) ∧ (∀ i, range.2 ≤ i → i < stop → bits i = false) ∧
      (∀ i, range.1 ≤ i → i < range.2 → bits i = true) ∧ (0 < range.1 → bits (range.1 - 1) = false))

namespace BitArray

variable {a : BitArray} {avx : Bool}

theorem get_eq (i : ℕ) : a.get i = (a.data (i / bitsPerWord)).getLsbD (i % bitsPerWord) := by
  have hi : i % bitsPerWord < 64 := Nat.mod_lt _ (by decide)
  unfold get
  generalize a.data (i / bitsPerWord) = x
  generalize i % bitsPerWord = k at *
  have hone : ∀ j < 64, (1#64 <<< k).getLsbD j = decide (j = k) := by
    intro j hj
    rw [BitVec.getLsbD_shiftLeft, decide_eq_true hj, Bool.true_and]
    by_cases hjk : j = k
    · subst hjk
      simp
    · by_cases hlt : j < k
      · simp [hlt, hjk]
      · have hone' : (1#64).getLsbD (j - k) = false := by
          rw [BitVec.getLsbD_one]
          simp
          omega
        rw [hone']
        simp [hjk]
  rw [Bool.eq_iff_iff, decide_eq_true_eq]
  constructor
  · intro hne
    obtain ⟨j, hj, hbit⟩ := exists_bit hne
    rw [BitVec.getLsbD_and, hone j hj, Bool.and_eq_true, decide_eq_true_eq] at hbit
    exact hbit.2 ▸ hbit.1
  · intro hbit hzero
    have hat : (x &&& 1#64 <<< k).getLsbD k = true := by
      rw [BitVec.getLsbD_and, hone k hi, hbit, decide_eq_true rfl, Bool.true_and]
    rw [hzero] at hat
    simp at hat

theorem get_word (index j : ℕ) (hj : j < 64) :
    a.get (index * bitsPerWord + j) = (a.data index).getLsbD j := by
  rw [get_eq]
  have hdiv : (index * bitsPerWord + j) / bitsPerWord = index := by
    simp only [bitsPerWord]
    omega
  have hmod : (index * bitsPerWord + j) % bitsPerWord = j := by
    simp only [bitsPerWord]
    omega
  rw [hdiv, hmod]

/-- Words that are all ones have all bits set, and words that are zero none. -/
theorem get_of_words {value : BitVec 64} {bit : Bool} (hvalue : ∀ j < 64, value.getLsbD j = bit)
    {lo hi i : ℕ}
    (hwords : ∀ w, lo ≤ w → w < hi → a.data w = value) (hle : lo * bitsPerWord ≤ i)
    (hlt : i < hi * bitsPerWord) :
    a.get i = bit := by
  simp only [bitsPerWord] at hle hlt
  rw [get_eq, hwords _ (by simp only [bitsPerWord]; omega) (by simp only [bitsPerWord]; omega)]
  exact hvalue _ (Nat.mod_lt _ (by decide))

theorem allOnes_bits (j : ℕ) (hj : j < 64) : (BitVec.allOnes 64).getLsbD j = true := by
  rw [BitVec.getLsbD_allOnes, decide_eq_true hj]

theorem zero_bits (j : ℕ) (_ : j < 64) : (0 : BitVec 64).getLsbD j = false := BitVec.getLsbD_zero

/-! ### Skipping chunks -/

theorem chunkIs_iff {value : BitVec 64} {word : ℕ} :
    a.chunkIs value word ↔ ∀ w, word ≤ w → w < word + wordsPerAvx → a.data w = value := by
  simp only [chunkIs, Bool.and_eq_true, decide_eq_true_eq, wordsPerAvx]
  constructor
  · rintro ⟨⟨⟨h₀, h₁⟩, h₂⟩, h₃⟩ w hle hlt
    obtain rfl | rfl | rfl | rfl : w = word ∨ w = word + 1 ∨ w = word + 2 ∨ w = word + 3 := by omega
    · exact h₀
    · exact h₁
    · exact h₂
    · exact h₃
  · exact fun h => ⟨⟨⟨h _ le_rfl (by omega), h _ (by omega) (by omega)⟩, h _ (by omega) (by omega)⟩,
      h _ (by omega) (by omega)⟩

theorem skipUp_spec (value : BitVec 64) (fuel word : ℕ) (hword : word ≤ a.wordCount) :
    word ≤ a.skipUp value fuel word ∧ a.skipUp value fuel word ≤ a.wordCount ∧
      ∀ w, word ≤ w → w < a.skipUp value fuel word → a.data w = value := by
  induction fuel generalizing word with
  | zero => exact ⟨le_rfl, hword, fun w hle hlt => absurd hlt (Nat.not_lt.mpr hle)⟩
  | succ fuel ih =>
    unfold skipUp
    split_ifs with hroom hchunk
    · obtain ⟨hle, hub, hskipped⟩ := ih (word + wordsPerAvx) hroom
      refine ⟨(Nat.le_add_right _ _).trans hle, hub, fun w hw hlt => ?_⟩
      by_cases hin : w < word + wordsPerAvx
      · exact chunkIs_iff.mp hchunk w hw hin
      · exact hskipped w (by omega) hlt
    · exact ⟨le_rfl, hword, fun w hle hlt => absurd hlt (Nat.not_lt.mpr hle)⟩
    · exact ⟨le_rfl, hword, fun w hle hlt => absurd hlt (Nat.not_lt.mpr hle)⟩

theorem skipDown_spec (value : BitVec 64) (fuel word : ℕ) : a.skipDown value fuel word ≤ word ∧
      ∀ w, a.skipDown value fuel word ≤ w → w < word → a.data w = value := by
  induction fuel generalizing word with
  | zero => exact ⟨le_rfl, fun w hle hlt => absurd hlt (Nat.not_lt.mpr hle)⟩
  | succ fuel ih =>
    unfold skipDown
    split_ifs with hroom hchunk
    · obtain ⟨hle, hskipped⟩ := ih (word - wordsPerAvx)
      refine ⟨hle.trans (Nat.sub_le _ _), fun w hw hlt => ?_⟩
      by_cases hin : w < word - wordsPerAvx
      · exact hskipped w hw hin
      · exact chunkIs_iff.mp hchunk w (by omega) (by omega)
    · exact ⟨le_rfl, fun w hle hlt => absurd hlt (Nat.not_lt.mpr hle)⟩
    · exact ⟨le_rfl, fun w hle hlt => absurd hlt (Nat.not_lt.mpr hle)⟩

/-! ### Upwards -/

theorem findEndBit_spec (avx : Bool) {word : ℕ} (hword : word ≤ a.wordCount) :
    word * bitsPerWord ≤ findEndBit avx a word ∧ findEndBit avx a word ≤ a.size ∧
      (∀ i, word * bitsPerWord ≤ i → i < findEndBit avx a word → a.get i = true) ∧
      (findEndBit avx a word < a.size → a.get (findEndBit avx a word) = false) := by
  have hskip : ∃ word', (if avx then a.skipUp (BitVec.allOnes 64) a.wordCount word else word) =
    word' ∧
      word ≤ word' ∧ word' ≤ a.wordCount ∧ ∀ w, word ≤ w → w < word' →
        a.data w = BitVec.allOnes 64 := by
    cases avx
    · exact ⟨word, rfl, le_rfl, hword, fun w hle hlt => absurd hlt (Nat.not_lt.mpr hle)⟩
    · exact ⟨_, rfl, skipUp_spec _ _ _ hword⟩
  obtain ⟨word', hword', hle, hub, hskipped⟩ := hskip
  obtain ⟨hle', hub', hbelow, hat⟩ :=
    scan_spec (fun w => a.data w != BitVec.allOnes 64) (a.wordCount - word') word'
  unfold findEndBit
  rw [hword']
  dsimp only
  generalize scan (fun w => a.data w != BitVec.allOnes 64) (a.wordCount - word') word' = stop at *
  have hones : ∀ w, word ≤ w → w < stop → a.data w = BitVec.allOnes 64 := by
    intro w hw hlt
    by_cases hin : w < word'
    · exact hskipped w hw hin
    · simpa using hbelow w (by omega) hlt
  have hset := fun i => @get_of_words a _ _ allOnes_bits word stop i hones
  split_ifs with hin
  · have hne : a.data stop ≠ BitVec.allOnes 64 := by simpa using hat (by omega)
    obtain ⟨-, hcount, hcbelow, hcat⟩ := scan_spec (fun i => !(a.data stop).getLsbD i) 64 0
    rw [← countrOne, Nat.zero_add] at hcount hcat
    rw [← countrOne] at hcbelow
    simp only [Bool.not_eq_eq_eq_not, Bool.not_true, Bool.not_false] at hcbelow hcat
    have hlt : countrOne (a.data stop) < 64 := by
      by_contra hge
      refine hne (BitVec.eq_of_getLsbD_eq fun i hi => ?_)
      rw [hcbelow i (Nat.zero_le i) (by omega), BitVec.getLsbD_allOnes, decide_eq_true hi]
    refine ⟨?_, ?_, fun i hi hilt => ?_, fun _ => ?_⟩
    · simp only [bitsPerWord]
      omega
    · simp only [size, bitsPerWord]
      omega
    · by_cases hbefore : i < stop * bitsPerWord
      · exact hset i hi hbefore
      · obtain ⟨j, rfl⟩ := Nat.exists_eq_add_of_le (Nat.not_lt.mp hbefore)
        rw [get_word _ _ (by omega)]
        exact hcbelow j (Nat.zero_le j) (by omega)
    · rw [get_word _ _ hlt]
      exact hcat hlt
  · have heq : stop = a.wordCount := by omega
    subst heq
    refine ⟨?_, le_rfl, hset, fun h => absurd h (lt_irrefl _)⟩
    simp only [size, bitsPerWord]
    omega

/-- A word from whose bit `k` on the search begins, with the bits below cleared. -/
theorem firstWordBits_isFirstRun (avx : Bool) {start index k : ℕ} {word : BitVec 64}
    (hindex : index < a.wordCount)
    (hclear : ∀ i, start ≤ i → i < index * bitsPerWord + k → a.get i = false)
    (hstart : start ≤ index * bitsPerWord + k)
    (hlow : ∀ j < k, word.getLsbD j = false)
    (hhigh : ∀ j, k ≤ j → j < 64 → word.getLsbD j = (a.data index).getLsbD j)
    (hne : word ≠ 0) : IsFirstRun a.size a.get start (firstWordBits avx a index word) := by
  obtain ⟨hle, hpos, hbelow, hinside, hbehind⟩ := firstRun_count hne
  unfold firstWordBits
  dsimp only
  generalize countrOne (word >>> countrZero word) = count at *
  generalize countrZero word = first at *
  have hk : k ≤ first := by
    by_contra hlt
    have := hinside first le_rfl (by omega)
    rw [hlow first (by omega)] at this
    simp at this
  have hbit : ∀ j, k ≤ j → j < 64 → a.get (index * bitsPerWord + j) = word.getLsbD j :=
    fun j hj hlt => (get_word index j hlt).trans (hhigh j hj hlt).symm
  have hbefore : ∀ i, start ≤ i → i < index * bitsPerWord + first → a.get i = false := by
    intro i hi hlt
    by_cases hin : i < index * bitsPerWord + k
    · exact hclear i hi hin
    · obtain ⟨j, rfl⟩ := Nat.exists_eq_add_of_le (show index * bitsPerWord ≤ i by omega)
      rw [hbit j (by omega) (by omega)]
      exact hbelow j (by omega)
  have hrun : ∀ i, index * bitsPerWord + first ≤ i → i < index * bitsPerWord + first + count →
    a.get i = true := by
    intro i hi hlt
    obtain ⟨j, rfl⟩ := Nat.exists_eq_add_of_le (show index * bitsPerWord ≤ i by omega)
    rw [hbit j (by omega) (by omega)]
    exact hinside j (by omega) (by omega)
  have hsize : (index + 1) * bitsPerWord ≤ a.size := Nat.mul_le_mul_right _ hindex
  have hnext : (index + 1) * bitsPerWord = index * bitsPerWord + 64 := Nat.succ_mul _ _
  split_ifs with hin
  · simp only [bitsPerWord] at hin
    refine .inr ⟨⟨by dsimp only; omega, by dsimp only; omega, by dsimp only; omega⟩, hbefore, hrun,
      fun _ => ?_⟩
    dsimp only
    rw [Nat.add_assoc, hbit _ (by omega) (by omega)]
    exact hbehind (by omega)
  · simp only [bitsPerWord] at hin
    obtain ⟨hlo, hub, hset, hend⟩ := @findEndBit_spec a avx (index + 1) hindex
    refine .inr ⟨⟨by dsimp only; omega, by dsimp only; omega, hub⟩, hbefore, fun i hi hlt => ?_,
      hend⟩
    by_cases hword : i < (index + 1) * bitsPerWord
    · exact hrun i hi (by omega)
    · exact hset i (by omega) hlt

theorem firstRangeFrom_isFirstRun (avx : Bool) (a : BitArray) (start : ℕ) :
    IsFirstRun a.size a.get start (firstRangeFrom avx a start) := by
  unfold firstRangeFrom
  by_cases hout : a.size ≤ start
  · rw [if_pos hout]
    exact .inl ⟨rfl, fun i hi hlt => by omega⟩
  rw [if_neg hout]
  dsimp only
  have hbit : start % bitsPerWord < 64 := Nat.mod_lt _ (by decide)
  have hsplit : start / bitsPerWord * bitsPerWord + start % bitsPerWord = start :=
    Nat.div_add_mod' _ _
  have hword : start / bitsPerWord < a.wordCount := by
    simp only [size, bitsPerWord] at hout ⊢
    omega
  have hmask : ∀ j < 64,
      (a.data (start / bitsPerWord) &&& ~~~((1#64 <<< (start % bitsPerWord)) - 1)).getLsbD j =
        ((a.data (start / bitsPerWord)).getLsbD j && decide (start % bitsPerWord ≤ j)) := by
    intro j hj
    rw [BitVec.getLsbD_and, getLsbD_high hbit hj]
  have hnext : (start / bitsPerWord + 1) * bitsPerWord = start / bitsPerWord * bitsPerWord + 64 :=
    Nat.succ_mul _ _
  by_cases hmasked : a.data (start / bitsPerWord) &&& ~~~((1#64 <<< (start % bitsPerWord)) - 1) ≠ 0
  · -- The first set bit lies in the word of `start`.
    rw [if_pos hmasked]
    refine firstWordBits_isFirstRun (k := start % bitsPerWord) avx hword (fun i hi hlt => by omega)
      (by omega)
      (fun j hj => ?_) (fun j hj hlt => ?_) hmasked
    · rw [hmask j (by omega), decide_eq_false (by omega), Bool.and_false]
    · rw [hmask j hlt, decide_eq_true hj, Bool.and_true]
  rw [if_neg hmasked]
  have hzero := not_not.mp hmasked
  have hfirst : ∀ i, start ≤ i → i < (start / bitsPerWord + 1) * bitsPerWord → a.get i = false := by
    intro i hi hlt
    obtain ⟨j, rfl⟩ := Nat.exists_eq_add_of_le (show start / bitsPerWord * bitsPerWord ≤ i by omega)
    have := hmask j (by omega)
    rw [hzero, zero_bits j (by omega), decide_eq_true (by omega), Bool.and_true] at this
    rw [get_word _ _ (by omega), ← this]
  have hskip : ∃ word, (if avx then a.skipUp 0 a.wordCount (start / bitsPerWord + 1)
        else start / bitsPerWord + 1) = word ∧ start / bitsPerWord + 1 ≤ word ∧ word ≤ a.wordCount ∧
      ∀ w, start / bitsPerWord + 1 ≤ w → w < word → a.data w = 0 := by
    cases avx
    · exact ⟨_, rfl, le_rfl, hword, fun w hle hlt => absurd hlt (Nat.not_lt.mpr hle)⟩
    · exact ⟨_, rfl, skipUp_spec _ _ _ hword⟩
  obtain ⟨word, hwordeq, hle, hub, hskipped⟩ := hskip
  rw [hwordeq]
  obtain ⟨hle', hub', hbelow, hat⟩ := scan_spec (fun w => a.data w != 0) (a.wordCount - word) word
  generalize scan (fun w => a.data w != 0) (a.wordCount - word) word = found at *
  have hclear : ∀ i, start ≤ i → i < found * bitsPerWord → a.get i = false := by
    intro i hi hlt
    by_cases hin : i < (start / bitsPerWord + 1) * bitsPerWord
    · exact hfirst i hi hin
    · refine get_of_words zero_bits (fun w hw hlt => ?_) (Nat.not_lt.mp hin) hlt
      by_cases hbefore : w < word
      · exact hskipped w hw hbefore
      · simpa using hbelow w (by omega) hlt
  split_ifs with hin
  · have hne : a.data found ≠ 0 := by simpa using hat (by omega)
    have hstart : start ≤ found * bitsPerWord := by
      have : (start / bitsPerWord + 1) * bitsPerWord ≤ found * bitsPerWord :=
        Nat.mul_le_mul_right _ (by omega)
      omega
    exact firstWordBits_isFirstRun avx (k := 0) hin hclear hstart
      (fun j hj => absurd hj (Nat.not_lt_zero j))
      (fun _ _ _ => rfl) hne
  · have heq : found = a.wordCount := by omega
    exact .inl ⟨rfl, fun i hi hlt => hclear i hi (heq ▸ hlt)⟩

/-! ### Downwards -/

/-- The words below are a chunk of zeros. -/
def ZerosBelow (a : BitArray) (word : ℕ) : Prop :=
  wordsPerAvx ≤ word ∧ a.chunkIs 0 (word - wordsPerAvx)

/-- The last clear bit before the word, or the start, is found unless zeros were skipped. -/
theorem findStartBit_spec {word : ℕ} (hright : avx = true → ¬ a.ZerosBelow word) :
    findStartBit avx a word ≤ word * bitsPerWord ∧
      (∀ i, findStartBit avx a word ≤ i → i < word * bitsPerWord → a.get i = true) ∧
      (0 < findStartBit avx a word → a.get (findStartBit avx a word - 1) = false) := by
  have hskip : (if avx then a.skipDown 0 word word else word) = word := by
    cases avx with
    | false => rfl
    | true =>
      have hnone := hright rfl
      rw [if_pos rfl]
      cases word with
      | zero => rfl
      | succ word =>
        unfold skipDown
        split_ifs with hroom hchunk
        · exact absurd ⟨hroom, hchunk⟩ hnone
        · rfl
        · rfl
  unfold findStartBit
  rw [hskip]
  dsimp only
  obtain ⟨hle, habove⟩ := lastRangeEnd_spec (fun w => a.data w != BitVec.allOnes 64) word
  have hlast := lastRangeEnd_set (fun w => a.data w != BitVec.allOnes 64) word
  generalize lastRangeEnd (fun w => a.data w != BitVec.allOnes 64) word = stop at *
  have hset := fun i => @get_of_words a _ _ allOnes_bits stop word i
    fun w hw hlt => by simpa using habove w hw hlt
  have hmul : stop * bitsPerWord ≤ word * bitsPerWord := Nat.mul_le_mul_right _ hle
  split_ifs with hpos
  · have hne : a.data (stop - 1) ≠ BitVec.allOnes 64 := by simpa using hlast hpos
    obtain ⟨-, hcount, hcbelow, hcat⟩ := scan_spec (fun i => !(a.data (stop - 1)).getMsbD i) 64 0
    rw [← countlOne, Nat.zero_add] at hcount hcat
    rw [← countlOne] at hcbelow
    simp only [Bool.not_eq_eq_eq_not, Bool.not_true, Bool.not_false] at hcbelow hcat
    have hword : stop * bitsPerWord = (stop - 1) * bitsPerWord + 64 := by
      simp only [bitsPerWord]
      omega
    have hlt : countlOne (a.data (stop - 1)) < 64 := by
      by_contra hge
      refine hne (BitVec.eq_of_getLsbD_eq fun i hi => ?_)
      rw [getLsbD_eq_getMsbD hi, hcbelow _ (Nat.zero_le _) (by omega), BitVec.getLsbD_allOnes,
        decide_eq_true hi]
    have htop : ∀ j < 64,
      a.get ((stop - 1) * bitsPerWord + j) = (a.data (stop - 1)).getMsbD (63 - j) :=
      fun j hj => (get_word _ _ hj).trans (getLsbD_eq_getMsbD hj)
    refine ⟨by omega, fun i hi hilt => ?_, fun _ => ?_⟩
    · by_cases hafter : i < stop * bitsPerWord
      · obtain ⟨j, rfl⟩ := Nat.exists_eq_add_of_le (show (stop - 1) * bitsPerWord ≤ i by omega)
        rw [htop j (by omega)]
        exact hcbelow _ (Nat.zero_le _) (by omega)
      · exact hset i (Nat.not_lt.mp hafter) hilt
    · rw [show stop * bitsPerWord - countlOne (a.data (stop - 1)) - 1 =
        (stop - 1) * bitsPerWord + (63 - countlOne (a.data (stop - 1))) by omega, htop _ (by omega),
        show 63 - (63 - countlOne (a.data (stop - 1))) = countlOne (a.data (stop - 1)) by omega]
      exact hcat hlt
  · have hzero : stop = 0 := by omega
    subst hzero
    exact ⟨Nat.zero_le _, fun i hi hlt => hset i (by omega) hlt, fun h => absurd h (lt_irrefl 0)⟩

theorem findStartBit_astray {word : ℕ} (hzeros : a.ZerosBelow word) :
    findStartBit true a word < word * bitsPerWord ∧ a.get (word * bitsPerWord - 1) = false := by
  obtain ⟨hroom, hchunk⟩ := hzeros
  simp only [wordsPerAvx] at hroom
  have hskip : a.skipDown 0 word word ≤ word - wordsPerAvx := by
    cases word with
    | zero => omega
    | succ word =>
      unfold skipDown
      rw [if_pos (by simpa [wordsPerAvx] using hroom), if_pos hchunk]
      exact (skipDown_spec 0 word _).1
  constructor
  · unfold findStartBit
    dsimp only
    rw [if_pos rfl]
    obtain ⟨hle, -⟩ :=
      lastRangeEnd_spec (fun w => a.data w != BitVec.allOnes 64) (a.skipDown 0 word word)
    have hmul : lastRangeEnd (fun w => a.data w != BitVec.allOnes 64)
      (a.skipDown 0 word word) * bitsPerWord ≤
        (word - wordsPerAvx) * bitsPerWord := Nat.mul_le_mul_right _ (hle.trans hskip)
    simp only [bitsPerWord, wordsPerAvx] at hmul ⊢
    split_ifs <;> omega
  · refine @get_of_words _ _ _ zero_bits (word - wordsPerAvx) word _ (fun w hw hlt => ?_) ?_ ?_
    · exact chunkIs_iff.mp hchunk w hw (by simp only [wordsPerAvx] at hw ⊢; omega)
    · simp only [bitsPerWord, wordsPerAvx]
      omega
    · simp only [bitsPerWord]
      omega

end BitArray

end PS4Droid.Common
