import PS4Droid.Foundations.BitCounts

/-!
# The bit array

`common/bit_array.h`: the search for the first and for the last run of set bits, and the iteration
over all runs, in the build with AVX and in the one without. With AVX the loops over words first
skip chunks of four words.
-/

namespace PS4Droid.Common

open BitRanges BitCounts

def bitsPerWord : ℕ := 64

def wordsPerAvx : ℕ := 4

/-- An array of `wordCount * 64` bits; the words from `wordCount` on are never read. -/
structure BitArray where
  data : ℕ → BitVec 64
  wordCount : ℕ
  wordCount_pos : 0 < wordCount

namespace BitArray

def size (a : BitArray) : ℕ := a.wordCount * bitsPerWord

def get (a : BitArray) (idx : ℕ) : Bool :=
  a.data (idx / bitsPerWord) &&& (1#64 <<< (idx % bitsPerWord)) ≠ 0

/-! ### Chunks -/

/-- All four words from `word` on are `value`. -/
def chunkIs (a : BitArray) (value : BitVec 64) (word : ℕ) : Bool :=
  a.data word = value && a.data (word + 1) = value && a.data (word + 2) = value &&
    a.data (word + 3) = value

/-- `for (; word + WORDS_PER_AVX <= WORD_COUNT; word += WORDS_PER_AVX)`, left at the first other
chunk. -/
def skipUp (a : BitArray) (value : BitVec 64) : ℕ → ℕ → ℕ
  | 0, word => word
  | fuel + 1, word =>
    if word + wordsPerAvx ≤ a.wordCount then
      if a.chunkIs value word then a.skipUp value fuel (word + wordsPerAvx) else word
    else word

/-- `for (; word >= WORDS_PER_AVX; word -= WORDS_PER_AVX)`, left at the first other chunk. -/
def skipDown (a : BitArray) (value : BitVec 64) : ℕ → ℕ → ℕ
  | 0, word => word
  | fuel + 1, word =>
    if wordsPerAvx ≤ word then
      if a.chunkIs value (word - wordsPerAvx) then a.skipDown value fuel (word - wordsPerAvx)
        else word
    else word

/-! ### The first range -/

def findEndBit (avx : Bool) (a : BitArray) (word : ℕ) : ℕ :=
  let word := if avx then a.skipUp (BitVec.allOnes 64) a.wordCount word else word
  let word := scan (fun w => a.data w != BitVec.allOnes 64) (a.wordCount - word) word
  if word < a.wordCount then word * bitsPerWord + countrOne (a.data word) else a.size

/-- `word_bits` of `FirstRangeFrom`. -/
def firstWordBits (avx : Bool) (a : BitArray) (index : ℕ) (word : BitVec 64) : ℕ × ℕ :=
  let emptyBits := countrZero word
  let onesCount := countrOne (word >>> emptyBits)
  let startBit := index * bitsPerWord + emptyBits
  if onesCount + emptyBits < bitsPerWord then (startBit, startBit + onesCount)
  else (startBit, findEndBit avx a (index + 1))

def firstRangeFrom (avx : Bool) (a : BitArray) (start : ℕ) : ℕ × ℕ :=
  if a.size ≤ start then (a.size, a.size)
  else
    let startWord := start / bitsPerWord
    let startBit := start % bitsPerWord
    let maskedFirst := a.data startWord &&& ~~~((1#64 <<< startBit) - 1)
    if maskedFirst ≠ 0 then firstWordBits avx a startWord maskedFirst
    else
      let word := if avx then a.skipUp 0 a.wordCount (startWord + 1) else startWord + 1
      let word := scan (fun w => a.data w != 0) (a.wordCount - word) word
      if word < a.wordCount then firstWordBits avx a word (a.data word) else (a.size, a.size)

/-! ### The last range -/

/-- The chunks that are skipped here are those of zeros. -/
def findStartBit (avx : Bool) (a : BitArray) (word : ℕ) : ℕ :=
  let word := if avx then a.skipDown 0 word word else word
  let word := lastRangeEnd (fun w => a.data w != BitVec.allOnes 64) word
  if 0 < word then word * bitsPerWord - countlOne (a.data (word - 1)) else 0

/-- `word_bits` of `LastRangeFrom`. -/
def lastWordBits (avx : Bool) (a : BitArray) (index : ℕ) (word : BitVec 64) : ℕ × ℕ :=
  let emptyBits := countlZero word
  let onesCount := countlOne (word <<< emptyBits)
  let endBit := index * bitsPerWord - emptyBits
  if emptyBits + onesCount < bitsPerWord then (endBit - onesCount, endBit)
  else (findStartBit avx a (index - 1), endBit)

def lastRangeFrom (avx : Bool) (a : BitArray) (stop : ℕ) : ℕ × ℕ :=
  if stop = 0 then (0, 0)
  else
    let stop := if a.size < stop then a.size else stop
    let endWord := (stop - 1) / bitsPerWord + 1
    let endBit := (stop - 1) % bitsPerWord
    let lastWord := a.data (endWord - 1)
    let maskedLast := if endBit < bitsPerWord - 1 then lastWord &&& ((1#64 <<< (endBit + 1)) - 1)
      else lastWord
    if maskedLast ≠ 0 then lastWordBits avx a endWord maskedLast
    else
      let word := if avx then a.skipDown 0 (endWord - 1) (endWord - 1) else endWord - 1
      let word := lastRangeEnd (fun w => a.data w != 0) word
      if 0 < word then lastWordBits avx a word (a.data (word - 1)) else (0, 0)

/-! ### The iterator -/

def begin (avx : Bool) (a : BitArray) : ℕ × ℕ := firstRangeFrom avx a 0

def finish (avx : Bool) (a : BitArray) : ℕ × ℕ := firstRangeFrom avx a a.size

/-- The ranges from an iterator on, as far as the end; `none` when the fuel does not last. -/
def rangesFrom (avx : Bool) (a : BitArray) : ℕ → ℕ × ℕ → Option (List (ℕ × ℕ))
  | 0, _ => none
  | fuel + 1, range =>
    if range = finish avx a then some []
    else (rangesFrom avx a fuel (firstRangeFrom avx a range.2)).map (range :: ·)

end BitArray

end PS4Droid.Common
