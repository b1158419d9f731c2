import Mathlib.Data.UInt
import Mathlib.NumberTheory.PrimeCounting
import Mathlib.Tactic.IntervalCases

/-!
# The hash function SHA-256

The function of FIPS 180-4 with its keyed version HMAC of RFC 2104, on strings of bytes. The
constants are what the standard says they are, the first bits of the roots of the prime numbers, so
nothing here is computed.
-/

namespace PS4Droid.Sha256

/-- Eight words: the hash value, and the working variables. -/
@[ext]
structure Words where
  a : UInt32
  b : UInt32
  c : UInt32
  d : UInt32
  e : UInt32
  f : UInt32
  g : UInt32
  h : UInt32
  deriving DecidableEq

/-! ### Functions and constants -/

def rotateRight (x : UInt32) (n : ℕ) : UInt32 := ⟨x.toBitVec.rotateRight n⟩

def shiftRight (x : UInt32) (n : ℕ) : UInt32 := ⟨x.toBitVec.ushiftRight n⟩

def choice (x y z : UInt32) : UInt32 := (x &&& y) ^^^ (~~~x &&& z)

def majority (x y z : UInt32) : UInt32 := (x &&& y) ^^^ (x &&& z) ^^^ (y &&& z)

def bigSigma0 (x : UInt32) : UInt32 := rotateRight x 2 ^^^ rotateRight x 13 ^^^ rotateRight x 22

def bigSigma1 (x : UInt32) : UInt32 := rotateRight x 6 ^^^ rotateRight x 11 ^^^ rotateRight x 25

def smallSigma0 (x : UInt32) : UInt32 := rotateRight x 7 ^^^ rotateRight x 18 ^^^ shiftRight x 3

def smallSigma1 (x : UInt32) : UInt32 := rotateRight x 17 ^^^ rotateRight x 19 ^^^ shiftRight x 10

/-- The `n`-th root of `x`, rounded down. -/
def root (n x : ℕ) : ℕ := Nat.findGreatest (fun r => r ^ n ≤ x) x

/-- The first 32 bits of the fractional part of the `n`-th root of `p`. -/
def fractionBits (n p : ℕ) : UInt32 := UInt32.ofNat (root n (p * 2 ^ (32 * n)))

/-- The constant of round `t`: the cube root of the prime number with that index. -/
noncomputable def roundConstant (t : ℕ) : UInt32 := fractionBits 3 (Nat.nth Nat.Prime t)

/-- The square root of the prime number with that index. -/
noncomputable def initialWord (t : ℕ) : UInt32 := fractionBits 2 (Nat.nth Nat.Prime t)

noncomputable def initial : Words :=
  ⟨initialWord 0, initialWord 1, initialWord 2, initialWord 3,
    initialWord 4, initialWord 5, initialWord 6, initialWord 7⟩

theorem root_eq {n x r : ℕ} (hn : n ≠ 0) (hlow : r ^ n ≤ x) (hhigh : x < (r + 1) ^ n) :
    root n x = r := by
  refine Nat.findGreatest_eq_iff.mpr ⟨(Nat.le_self_pow hn r).trans hlow, fun _ => hlow, ?_⟩
  intro k hk _ hle
  exact absurd (hhigh.trans_le (Nat.pow_le_pow_left hk n)) (not_lt.mpr hle)

/-- The root is the word with some whole part in front. -/
theorem fractionBits_eq {n p : ℕ} {word : UInt32} (hn : n ≠ 0) (whole : ℕ)
    (hlow : (2 ^ 32 * whole + word.toNat) ^ n ≤ p * 2 ^ (32 * n))
    (hhigh : p * 2 ^ (32 * n) < (2 ^ 32 * whole + word.toNat + 1) ^ n) :
    fractionBits n p = word := by
  rw [fractionBits, root_eq hn hlow hhigh]
  apply UInt32.toNat_inj.mp
  have := word.toNat_lt
  rw [UInt32.toNat_ofNat']
  omega

/-! ### Blocks -/

/-- A block is given by its 64 bytes. -/
abbrev Block := ℕ → UInt8

/-- Four bytes, the high one first. -/
def wordOfBytes (b0 b1 b2 b3 : UInt8) : UInt32 :=
  ⟨b0.toBitVec ++ b1.toBitVec ++ b2.toBitVec ++ b3.toBitVec⟩

def messageWord (block : Block) (t : ℕ) : UInt32 :=
  wordOfBytes (block (4 * t)) (block (4 * t + 1)) (block (4 * t + 2)) (block (4 * t + 3))

/-- The message schedule. -/
def schedule (block : Block) (t : ℕ) : UInt32 :=
  if t < 16 then messageWord block t
  else
    smallSigma1 (schedule block (t - 2)) + schedule block (t - 7) +
      smallSigma0 (schedule block (t - 15)) + schedule block (t - 16)
  termination_by t

/-- One round, with its constant and its word of the schedule. -/
def round (constant word : UInt32) (s : Words) : Words :=
  let t1 := s.h + bigSigma1 s.e + choice s.e s.f s.g + constant + word
  let t2 := bigSigma0 s.a + majority s.a s.b s.c
  { h := s.g, g := s.f, f := s.e, e := s.d + t1, d := s.c, c := s.b, b := s.a, a := t1 + t2 }

def Words.add (s s' : Words) : Words :=
  ⟨s.a + s'.a, s.b + s'.b, s.c + s'.c, s.d + s'.d, s.e + s'.e, s.f + s'.f, s.g + s'.g, s.h + s'.h⟩

/-- The 64 rounds, and the sum with the value before. -/
noncomputable def compress (state : Words) (block : Block) : Words :=
  ((List.range 64).foldl (fun s t => round (roundConstant t) (schedule block t) s) state).add state

variable {block block' : Block}

theorem messageWord_congr (h : ∀ j < 64, block j = block' j) {t : ℕ} (ht : t < 16) :
    messageWord block t = messageWord block' t := by
  unfold messageWord
  rw [h _ (by omega), h _ (by omega), h _ (by omega), h _ (by omega)]

theorem schedule_congr (h : ∀ j < 64, block j = block' j) (t : ℕ) :
    schedule block t = schedule block' t := by
  induction t using Nat.strong_induction_on with
  | _ t ih =>
    rw [schedule, schedule.eq_def block']
    by_cases ht : t < 16
    · rw [if_pos ht, if_pos ht, messageWord_congr h ht]
    · rw [if_neg ht, if_neg ht, ih _ (by omega), ih _ (by omega), ih _ (by omega), ih _ (by omega)]

/-- Only the 64 bytes of the block are used. -/
theorem compress_congr (h : ∀ j < 64, block j = block' j) (state : Words) :
    compress state block = compress state block' := by
  have hsame : schedule block = schedule block' := funext fun t => schedule_congr h t
  rw [compress, compress, hsame]

/-! ### Messages -/

/-- The block with the given index. -/
def blockOf (msg : List UInt8) (i : ℕ) : Block := fun j => msg.getD (64 * i + j) 0

/-- How many zeros stand behind the bit one. -/
def zeroCount (n : ℕ) : ℕ := (119 - n % 64) % 64

/-- The number of bits of a message with `n` bytes, as 64 bits. -/
def lengthBytes (n : ℕ) : List UInt8 :=
  (List.range 8).map fun j => UInt8.ofNat (8 * n / 256 ^ (7 - j))

def pad (msg : List UInt8) : List UInt8 :=
  msg ++ 0x80 :: (List.replicate (zeroCount msg.length) 0 ++ lengthBytes msg.length)

/-- The hash value after the first `count` blocks. -/
noncomputable def hashBlocks (msg : List UInt8) (count : ℕ) : Words :=
  (List.range count).foldl (fun state i => compress state (blockOf msg i)) initial

def wordBytes (w : UInt32) : List UInt8 :=
  [UInt8.ofNat (w.toNat / 256 ^ 3), UInt8.ofNat (w.toNat / 256 ^ 2), UInt8.ofNat (w.toNat / 256),
    UInt8.ofNat w.toNat]

def digest (s : Words) : List UInt8 :=
  [s.a, s.b, s.c, s.d, s.e, s.f, s.g, s.h].flatMap wordBytes

/-- The hash value of the message. -/
noncomputable def hash (msg : List UInt8) : List UInt8 :=
  digest (hashBlocks (pad msg) ((pad msg).length / 64))

/-- The key as one block. -/
noncomputable def keyBlock (key : List UInt8) : List UInt8 :=
  let key := if 64 < key.length then hash key else key
  key ++ List.replicate (64 - key.length) 0

/-- The hash value of the message under a key. -/
noncomputable def hmac (key msg : List UInt8) : List UInt8 :=
  hash ((keyBlock key).map (· ^^^ 0x5c) ++ hash ((keyBlock key).map (· ^^^ 0x36) ++ msg))

section Padding

variable {msg : List UInt8} {n : ℕ}

theorem length_pad (msg : List UInt8) :
    (pad msg).length = msg.length + 1 + zeroCount msg.length + 8 := by
  simp only [pad, lengthBytes, List.length_append, List.length_cons, List.length_replicate,
    List.length_map, List.length_range]
  omega

theorem length_hash (msg : List UInt8) : (hash msg).length = 32 := rfl

theorem length_keyBlock (key : List UInt8) : (keyBlock key).length = 64 := by
  unfold keyBlock
  by_cases hlong : 64 < key.length
  · simp only [if_pos hlong, List.length_append, List.length_replicate, length_hash]
  · simp only [if_neg hlong, List.length_append, List.length_replicate]
    omega

variable {x : ℕ}

theorem pad_message (h : x < msg.length) : (pad msg).getD x 0 = msg.getD x 0 :=
  List.getD_append _ _ _ _ h

theorem pad_one (msg : List UInt8) : (pad msg).getD msg.length 0 = 0x80 := by
  rw [pad, List.getD_append_right _ _ _ _ (le_refl _), Nat.sub_self]
  rfl

theorem pad_zero (h : msg.length < x) (hend : x ≤ msg.length + zeroCount msg.length) :
    (pad msg).getD x 0 = 0 := by
  obtain ⟨k, rfl⟩ := Nat.exists_eq_add_of_lt h
  have hrest : msg.length + k + 1 - msg.length = k + 1 := by omega
  rw [pad, List.getD_append_right _ _ _ _ (by omega), hrest, List.getD_cons_succ,
    List.getD_append _ _ _ _ (by rw [List.length_replicate]; omega),
      List.getD_replicate _ (by omega)]

theorem pad_length {j : ℕ} (hj : j < 8) :
    (pad msg).getD (msg.length + 1 + zeroCount msg.length + j) 0 =
      UInt8.ofNat (8 * msg.length / 256 ^ (7 - j)) := by
  have hrest : msg.length + 1 + zeroCount msg.length + j - msg.length =
    zeroCount msg.length + j + 1 := by omega
  have hlast : zeroCount msg.length + j - zeroCount msg.length = j := by omega
  rw [pad, List.getD_append_right _ _ _ _ (by omega), hrest, List.getD_cons_succ,
    List.getD_append_right _ _ _ _ (by rw [List.length_replicate]; omega), List.length_replicate,
      hlast,
    lengthBytes, List.getD_eq_getElem _ _ (by rw [List.length_map, List.length_range]; exact hj),
      List.getElem_map,
    List.getElem_range]

end Padding

theorem hashBlocks_zero (msg : List UInt8) : hashBlocks msg 0 = initial := by
  rw [hashBlocks, List.range_zero, List.foldl_nil]

theorem hashBlocks_succ (msg : List UInt8) (count : ℕ) :
    hashBlocks msg (count + 1) = compress (hashBlocks msg count) (blockOf msg count) := by
  rw [hashBlocks, List.range_succ, List.foldl_append, List.foldl_cons, List.foldl_nil]
  rfl

/-- Blocks that lie within the first string do not change when something is added. -/
theorem hashBlocks_append {msg : List UInt8} (rest : List UInt8) {count : ℕ}
    (h : 64 * count ≤ msg.length) :
    hashBlocks (msg ++ rest) count = hashBlocks msg count := by
  induction count with
  | zero => rw [hashBlocks_zero, hashBlocks_zero]
  | succ count ih =>
    rw [hashBlocks_succ, hashBlocks_succ, ih (by omega)]
    have hlast : ∀ j < 64, blockOf (msg ++ rest) count j = blockOf msg count j := fun j hj =>
      List.getD_append _ _ _ _ (by omega)
    rw [compress_congr hlast]

end PS4Droid.Sha256
