import PS4Droid.Common.BitRuns

/-!
# When the searches are right

The search downwards, the iteration, and the one content of the array on which the build with AVX
fails.
-/

namespace PS4Droid.Common

open BitRanges BitCounts

namespace BitArray

variable {a : BitArray} {avx : Bool}

/-- The last run before `stop` lies in one word, begins at the edge of the word, and has four words
of zeros below. -/
def SkipsZeros (a : BitArray) (stop : ℕ) : Prop :=
  ∃ last < min stop a.size, a.get last = true ∧
    (∀ i, last < i → i < min stop a.size → a.get i = false) ∧
    (∀ i, last / bitsPerWord * bitsPerWord ≤ i → i ≤ last → a.get i = true) ∧
    256 ≤ last / bitsPerWord * bitsPerWord ∧
    ∀ i, last / bitsPerWord * bitsPerWord - 256 ≤ i → i < last / bitsPerWord * bitsPerWord →
      a.get i = false

theorem zerosBelow_iff {word : ℕ} : a.ZerosBelow word ↔ 256 ≤ word * bitsPerWord ∧
    ∀ i, word * bitsPerWord - 256 ≤ i → i < word * bitsPerWord → a.get i = false := by
  unfold ZerosBelow
  rw [chunkIs_iff]
  simp only [wordsPerAvx]
  have hroom : 4 ≤ word ↔ 256 ≤ word * bitsPerWord := by
    simp only [bitsPerWord]
    omega
  rw [hroom]
  refine and_congr_right fun hle => ⟨fun h i hi hlt => ?_, fun h w hw hlt => ?_⟩
  · refine get_of_words zero_bits (fun w hw hwlt => h w hw (by omega)) ?_ hlt
    simp only [bitsPerWord] at hi ⊢
    omega
  · refine BitVec.eq_of_getLsbD_eq fun j hj => ?_
    rw [zero_bits j hj, ← get_word w j hj]
    refine h _ ?_ ?_
    · simp only [bitsPerWord] at hle ⊢
      omega
    · simp only [bitsPerWord] at hle ⊢
      omega

/-- A word in which the search downwards looks: its bits from `k` on are cleared, and no bit follows
before `stop`. -/
structure Masked (a : BitArray) (stop word k : ℕ) (x : BitVec 64) : Prop where
  le : word * bitsPerWord + k ≤ stop
  k_le : k ≤ 64
  low : ∀ j < k, x.getLsbD j = (a.data word).getLsbD j
  high : ∀ j, k ≤ j → j < 64 → x.getLsbD j = false
  clear : ∀ i, word * bitsPerWord + k ≤ i → i < stop → a.get i = false

/-- The last run of the word, on the bits of the array. -/
structure Found (a : BitArray) (stop word empty count : ℕ) : Prop where
  le : empty + count ≤ 64
  pos : 0 < count
  inside : word * bitsPerWord + (64 - empty) ≤ stop
  above : ∀ i, word * bitsPerWord + (64 - empty) ≤ i → i < stop → a.get i = false
  run : ∀ i, word * bitsPerWord + (64 - (empty + count)) ≤ i →
    i < word * bitsPerWord + (64 - empty) → a.get i = true
  before : empty + count < 64 → a.get (word * bitsPerWord + (64 - (empty + count)) - 1) = false

theorem Masked.found {stop word k : ℕ} {x : BitVec 64} (h : Masked a stop word k x) (hne : x ≠ 0) :
    Found a stop word (countlZero x) (countlOne (x <<< countlZero x)) := by
  obtain ⟨hle, hpos, habove, hinside, hbefore⟩ := lastRun_count hne
  generalize countlOne (x <<< countlZero x) = count at *
  generalize countlZero x = empty at *
  have hk : 64 - empty ≤ k := by
    by_contra hlt
    have := hinside (64 - empty - 1) (by omega) (by omega)
    rw [h.high _ (by omega) (by omega)] at this
    simp at this
  have hkle := h.k_le
  have hin := h.le
  have hbit : ∀ j < k, a.get (word * bitsPerWord + j) = x.getLsbD j :=
    fun j hj => (get_word word j (by omega)).trans (h.low j hj).symm
  refine ⟨hle, hpos, by omega, fun i hi hlt => ?_, fun i hi hlt => ?_, fun hlt => ?_⟩
  · by_cases hin : i < word * bitsPerWord + k
    · obtain ⟨j, rfl⟩ := Nat.exists_eq_add_of_le (show word * bitsPerWord ≤ i by omega)
      rw [hbit j (by omega)]
      exact habove j (by omega) (by omega)
    · exact h.clear i (by omega) hlt
  · obtain ⟨j, rfl⟩ := Nat.exists_eq_add_of_le (show word * bitsPerWord ≤ i by omega)
    rw [hbit j (by omega)]
    exact hinside j (by omega) (by omega)
  · rw [show word * bitsPerWord + (64 - (empty + count)) - 1 =
      word * bitsPerWord + (64 - (empty + count) - 1) by
      omega, hbit _ (by omega)]
    exact hbefore hlt

section LastWord

variable {stop word empty count : ℕ}

/-- The content that leads the search astray, seen from the word. -/
theorem Found.skipsZeros_iff (h : Found a (min stop a.size) word empty count) :
    a.SkipsZeros stop ↔ empty + count = 64 ∧ a.ZerosBelow word := by
  obtain ⟨hle, hpos, hinside, habove, hrun, hbefore⟩ := h
  have hdiv : ∀ j < 64,
    (word * bitsPerWord + j) / bitsPerWord * bitsPerWord = word * bitsPerWord := by
    intro j hj
    simp only [bitsPerWord]
    omega
  have hlast : a.get (word * bitsPerWord + (63 - empty)) = true := hrun _ (by omega) (by omega)
  rw [zerosBelow_iff]
  constructor
  · rintro ⟨last, hlt, hset, hclear, hedge, hzeros⟩
    have heq : last = word * bitsPerWord + (63 - empty) := by
      have hbelow : last < word * bitsPerWord + (64 - empty) := by
        by_contra hge
        rw [habove last (by omega) hlt] at hset
        simp at hset
      by_contra hne
      rw [hclear _ (show last < word * bitsPerWord + (63 - empty) by omega) (by omega)] at hlast
      simp at hlast
    subst heq
    rw [hdiv _ (by omega)] at hedge hzeros
    refine ⟨?_, hzeros⟩
    by_contra hshort
    have := hbefore (by omega)
    rw [hedge _ (by omega) (by omega)] at this
    simp at this
  · rintro ⟨hfull, hzeros⟩
    refine ⟨word * bitsPerWord + (63 - empty), by omega, hlast,
      fun i hi hlt => habove i (by omega) hlt, ?_, ?_⟩
    · rw [hdiv _ (by omega)]
      exact fun i hi hlt => hrun i (by omega) (by omega)
    · rw [hdiv _ (by omega)]
      exact hzeros

theorem lastWordBits_isLastRun_iff {index k : ℕ} {x : BitVec 64} (hindex : 0 < index)
    (h : Masked a (min stop a.size) (index - 1) k x) (hne : x ≠ 0) :
    IsLastRun a.get (min stop a.size) (lastWordBits avx a index x) ↔
      ¬ (avx = true ∧ a.SkipsZeros stop) := by
  have hfound := h.found hne
  rw [hfound.skipsZeros_iff]
  obtain ⟨hle, hpos, hinside, habove, hrun, hbefore⟩ := hfound
  unfold lastWordBits
  dsimp only
  generalize countlOne (x <<< countlZero x) = count at *
  generalize countlZero x = empty at *
  have hindex64 : index * bitsPerWord = (index - 1) * bitsPerWord + 64 := by
    simp only [bitsPerWord]
    omega
  split_ifs with hshort
  · simp only [bitsPerWord] at hshort
    refine iff_of_true (.inr ⟨⟨by dsimp only; omega, by dsimp only; omega⟩, fun i hi hlt => ?_,
      fun i hi hlt => ?_, fun _ => ?_⟩) fun hbad => by omega
    · exact habove i (by dsimp only at hi; omega) hlt
    · exact hrun i (by dsimp only at hi; omega) (by dsimp only at hlt; omega)
    · have := hbefore hshort
      dsimp only
      rwa [show index * bitsPerWord - empty - count - 1 =
        (index - 1) * bitsPerWord + (64 - (empty + count)) - 1 by omega]
  · simp only [bitsPerWord] at hshort
    have hfull : empty + count = 64 := by omega
    by_cases hzeros : avx = true ∧ a.ZerosBelow (index - 1)
    · obtain ⟨hbuild, hzeros⟩ := hzeros
      subst hbuild
      refine iff_of_false ?_ (not_not.mpr ⟨rfl, hfull, hzeros⟩)
      obtain ⟨hlow, hclear⟩ := findStartBit_astray hzeros
      rintro (⟨hzero, -⟩ | ⟨-, -, hset, -⟩)
      · have := congrArg Prod.snd hzero
        dsimp only at this
        omega
      · rw [hset _ (by dsimp only; omega) (by dsimp only; omega)] at hclear
        simp at hclear
    · have hright : avx = true → ¬ a.ZerosBelow (index - 1) := fun hbuild hz => hzeros ⟨hbuild, hz⟩
      obtain ⟨hub, hset, hstart⟩ := findStartBit_spec hright
      refine iff_of_true (.inr ⟨⟨by dsimp only; omega, by dsimp only; omega⟩, fun i hi hlt => ?_,
        fun i hi hlt => ?_, hstart⟩) fun hbad => hright hbad.1 hbad.2.2
      · exact habove i (by dsimp only at hi; omega) hlt
      · dsimp only at hi hlt
        by_cases hlower : i < (index - 1) * bitsPerWord
        · exact hset i hi hlower
        · exact hrun i (by omega) (by omega)

end LastWord

theorem searchWords_isLastRun_iff {stop word : ℕ} (hle : word * bitsPerWord ≤ min stop a.size)
    (hclear : ∀ i, word * bitsPerWord ≤ i → i < min stop a.size → a.get i = false)
    {found : ℕ} (hfound : found = lastRangeEnd (fun w => a.data w != 0)
      (if avx then a.skipDown 0 word word else word)) : IsLastRun a.get (min stop a.size)
        (if 0 < found then lastWordBits avx a found (a.data (found - 1)) else (0, 0)) ↔
      ¬ (avx = true ∧ a.SkipsZeros stop) := by
  have hskip : ∃ word', (if avx then a.skipDown 0 word word else word) = word' ∧ word' ≤ word ∧
      ∀ w, word' ≤ w → w < word → a.data w = 0 := by
    cases avx
    · exact ⟨word, rfl, le_rfl, fun w hle hlt => absurd hlt (Nat.not_lt.mpr hle)⟩
    · exact ⟨_, rfl, skipDown_spec _ _ _⟩
  obtain ⟨word', hword', hle', hskipped⟩ := hskip
  rw [hword'] at hfound
  obtain ⟨hub, habove⟩ := lastRangeEnd_spec (fun w => a.data w != 0) word'
  have hset := lastRangeEnd_set (fun w => a.data w != 0) word'
  rw [← hfound] at hub habove hset
  have hmul : found * bitsPerWord ≤ word * bitsPerWord := Nat.mul_le_mul_right _ (hub.trans hle')
  have hbelow : ∀ i, found * bitsPerWord ≤ i → i < min stop a.size → a.get i = false := by
    intro i hi hlt
    by_cases hin : i < word * bitsPerWord
    · refine get_of_words zero_bits (fun w hw hwlt => ?_) hi hin
      by_cases hbefore : w < word'
      · simpa using habove w hw hbefore
      · exact hskipped w (Nat.not_lt.mp hbefore) hwlt
    · exact hclear i (Nat.not_lt.mp hin) hlt
  split_ifs with hpos
  · have hne : a.data (found - 1) ≠ 0 := by simpa using hset hpos
    have hword : found * bitsPerWord = (found - 1) * bitsPerWord + 64 := by
      simp only [bitsPerWord]
      omega
    refine lastWordBits_isLastRun_iff hpos ⟨by omega, le_rfl, fun _ _ => rfl,
      fun j hj hlt => by omega, fun i hi hlt => hbelow i (by omega) hlt⟩ hne
  · refine iff_of_true
      (.inl ⟨rfl, fun i hlt => hbelow i (by rw [Nat.eq_zero_of_not_pos hpos]; omega) hlt⟩) ?_
    rintro ⟨-, last, hlt, hbit, -⟩
    rw [hbelow last (by rw [Nat.eq_zero_of_not_pos hpos]; omega) hlt] at hbit
    simp at hbit

theorem lastRangeFrom_isLastRun_iff (avx : Bool) (a : BitArray) (stop : ℕ) :
    IsLastRun a.get (min stop a.size) (lastRangeFrom avx a stop) ↔
      ¬ (avx = true ∧ a.SkipsZeros stop) := by
  unfold lastRangeFrom
  by_cases hzero : stop = 0
  · subst hzero
    rw [if_pos rfl]
    refine iff_of_true (.inl ⟨rfl, fun i hi => by omega⟩) ?_
    rintro ⟨-, last, hlt, -⟩
    omega
  have hsize : 0 < a.size := Nat.mul_pos a.wordCount_pos (by decide)
  have hmin : (if a.size < stop then a.size else stop) = min stop a.size := by
    split_ifs <;> omega
  rw [if_neg hzero, hmin]
  dsimp only
  have hpos : 0 < min stop a.size := by omega
  generalize hend : min stop a.size = limit at hpos ⊢
  have hbit : (limit - 1) % bitsPerWord < 64 := Nat.mod_lt _ (by decide)
  have hsplit : (limit - 1) / bitsPerWord * bitsPerWord + (limit - 1) % bitsPerWord = limit - 1 :=
    Nat.div_add_mod' _ _
  rw [Nat.add_sub_cancel]
  have hmask : ∀ j < 64, (if (limit - 1) % bitsPerWord < bitsPerWord - 1 then
        a.data ((limit - 1) / bitsPerWord) &&& ((1#64 <<< ((limit - 1) % bitsPerWord + 1)) - 1)
        else a.data ((limit - 1) / bitsPerWord)).getLsbD j =
      ((a.data ((limit - 1) / bitsPerWord)).getLsbD j &&
        decide (j < (limit - 1) % bitsPerWord + 1)) := by
    intro j hj
    split_ifs with hpart
    · simp only [bitsPerWord] at hpart
      rw [BitVec.getLsbD_and, getLsbD_low (by simp only [bitsPerWord]; omega) hj]
    · have hall : j < (limit - 1) % bitsPerWord + 1 := by
        simp only [bitsPerWord] at hpart hbit ⊢
        omega
      rw [decide_eq_true hall, Bool.and_true]
  generalize (if (limit - 1) % bitsPerWord < bitsPerWord - 1 then
    a.data ((limit - 1) / bitsPerWord) &&& ((1#64 <<< ((limit - 1) % bitsPerWord + 1)) - 1)
    else a.data ((limit - 1) / bitsPerWord)) = masked at hmask ⊢
  by_cases hne : masked ≠ 0
  · rw [if_pos hne, ← hend]
    refine lastWordBits_isLastRun_iff (k := (limit - 1) % bitsPerWord + 1) (Nat.succ_pos _) ?_ hne
    rw [Nat.add_sub_cancel, hend]
    refine ⟨by omega, hbit, fun j hj => ?_, fun j hj hlt => ?_, fun i hi hlt => by omega⟩
    · rw [hmask j (by omega), decide_eq_true hj, Bool.and_true]
    · rw [hmask j hlt, decide_eq_false (by omega), Bool.and_false]
  · rw [if_neg hne]
    subst hend
    refine searchWords_isLastRun_iff (by omega) (fun i hi hlt => ?_) rfl
    obtain ⟨j, rfl⟩ := Nat.exists_eq_add_of_le hi
    have := hmask j (by omega)
    rw [not_not.mp hne, zero_bits j (by omega), decide_eq_true (by omega), Bool.and_true] at this
    rw [get_word _ _ (by omega), ← this]

/-! ### Iteration -/

/-- What the iterator visits from a position on: ascending runs with gaps between them, which hold
exactly the set bits. -/
structure Visits (a : BitArray) (start : ℕ) (ranges : List (ℕ × ℕ)) : Prop where
  nonempty : ∀ r ∈ ranges, r.1 < r.2
  ascending : ranges.Pairwise fun r s => r.2 < s.1
  exact : ∀ i, (∃ r ∈ ranges, r.1 ≤ i ∧ i < r.2) ↔ start ≤ i ∧ i < a.size ∧ a.get i = true

theorem finish_eq (avx : Bool) (a : BitArray) : finish avx a = (a.size, a.size) := if_pos le_rfl

/-- The runs from `start` on are visited, and the iteration ends. -/
theorem rangesFrom_visits (avx : Bool) (a : BitArray) {fuel start : ℕ} (hstart : start ≤ a.size)
    (hfuel : a.size < start + fuel) :
    ∃ ranges, rangesFrom avx a fuel (firstRangeFrom avx a start) = some ranges ∧
      Visits a start ranges := by
  have hend := finish_eq avx a
  induction fuel generalizing start with
  | zero => omega
  | succ fuel ih =>
    have hfirst := firstRangeFrom_isFirstRun avx a start
    generalize firstRangeFrom avx a start = range at hfirst ⊢
    unfold rangesFrom
    rw [hend]
    rcases hfirst with ⟨hnone, hclear⟩ | ⟨⟨hle, hlt, hub⟩, hclear, hset, hnext⟩
    · rw [if_pos hnone]
      refine ⟨[], rfl, by simp, List.Pairwise.nil, fun i => ?_⟩
      simp only [List.not_mem_nil, false_and, exists_const, false_iff, not_and, Bool.not_eq_true]
      exact hclear i
    · have hne : range ≠ (a.size, a.size) := by
        rintro rfl
        exact lt_irrefl _ hlt
      obtain ⟨ranges, hranges, hvisits⟩ := @ih range.2 hub (by omega)
      rw [if_neg hne, hranges]
      refine ⟨range :: ranges, rfl, ?_, ?_, fun i => ?_⟩
      · intro r hr
        rcases List.mem_cons.mp hr with rfl | hr
        · exact hlt
        · exact hvisits.nonempty r hr
      · refine List.pairwise_cons.mpr ⟨fun s hs => ?_, hvisits.ascending⟩
        obtain ⟨hge, hin, hbit⟩ := (hvisits.exact s.1).mp ⟨s, hs, le_rfl, hvisits.nonempty s hs⟩
        rcases Nat.lt_or_eq_of_le hge with h | h
        · exact h
        · rw [h] at hnext
          rw [hnext hin] at hbit
          simp at hbit
      · simp only [List.mem_cons, exists_eq_or_imp, hvisits.exact]
        constructor
        · rintro (⟨h₁, h₂⟩ | ⟨h₁, h₂, h₃⟩)
          · exact ⟨by omega, by omega, hset i h₁ h₂⟩
          · exact ⟨by omega, h₂, h₃⟩
        · rintro ⟨h₁, h₂, h₃⟩
          rcases Nat.lt_or_ge i range.1 with h | h
          · rw [hclear i h₁ h] at h₃
            exact absurd h₃ (by simp)
          · rcases Nat.lt_or_ge i range.2 with h' | h'
            · exact .inl ⟨h, h'⟩
            · exact .inr ⟨h', h₂, h₃⟩

/-! ### Both builds -/

/-- What the searches promise at a position, and the iteration as a whole. -/
structure SearchesRight (avx : Bool) (a : BitArray) (pos : ℕ) : Prop where
  first : IsFirstRun a.size a.get pos (firstRangeFrom avx a pos)
  last : IsLastRun a.get (min pos a.size) (lastRangeFrom avx a pos)
  visits : ∃ ranges, rangesFrom avx a (a.size + 1) (begin avx a) = some ranges ∧ Visits a 0 ranges

/-- The searches and the iteration are right in both builds, but for the search downwards with AVX:
it is wrong exactly when the last run lies in one word, begins at its edge, and has 256 clear bits
below it. -/
theorem searchesRight_iff (avx : Bool) (a : BitArray) (pos : ℕ) :
    SearchesRight avx a pos ↔ ¬ (avx = true ∧ a.SkipsZeros pos) := by
  have hlast := lastRangeFrom_isLastRun_iff avx a pos
  refine ⟨fun h => hlast.mp h.last, fun h => ⟨firstRangeFrom_isFirstRun avx a pos, hlast.mpr h, ?_⟩⟩
  exact rangesFrom_visits avx a (Nat.zero_le _) (by omega)

/-- Only the bits from 256 to 319 are set. -/
def fifthWord : BitArray where
  data := fun w => if w = 4 then BitVec.allOnes 64 else 0
  wordCount := 16
  wordCount_pos := by decide

/-- With AVX the last range of the fifth word is said to begin at the first bit of the array. -/
theorem fifthWord_wrong : ¬ ∀ (avx : Bool) (a : BitArray) (pos : ℕ), SearchesRight avx a pos := by
  intro h
  have hlast := (h true fifthWord 1024).last
  have hrange : lastRangeFrom true fifthWord 1024 = (0, 320) := by decide +kernel
  have hclear : fifthWord.get 0 = false := by decide +kernel
  rw [hrange] at hlast
  rcases hlast with ⟨hzero, -⟩ | ⟨-, -, hset, -⟩
  · simp at hzero
  · rw [hset 0 (Nat.zero_le 0) (by decide)] at hclear
    simp at hclear

end BitArray

end PS4Droid.Common
