import PS4Droid.Foundations.Sha256

/-!
# Hashing of package data

The SHA-256 context of `pkg_crypto.cpp`, which takes its data byte by byte, and what is built on it:
`Crypto::HmacSha256`, `PfsGenCryptoKey` and `ComputeKeys`. Buffers are functions from indices to
bytes. One transformation of the context is one step of the standard.
-/

namespace PS4Droid.Pkg

open PS4Droid.Sha256 (Words)

structure Sha256Ctx where
  bitlen : UInt64 := 0
  state : Words :=
    ⟨0x6a09e667, 0xbb67ae85, 0x3c6ef372, 0xa54ff53a, 0x510e527f, 0x9b05688c, 0x1f83d9ab, 0x5be0cd19⟩
  buf : ℕ → UInt8 := fun _ => 0
  buflen : ℕ := 0

def rotr (x n : UInt32) : UInt32 := (x >>> n) ||| (x <<< (32 - n))

/-- The table `k` of `sha256_transform`. -/
def kTable : List UInt32 :=
  [0x428a2f98, 0x71374491, 0xb5c0fbcf, 0xe9b5dba5, 0x3956c25b, 0x59f111f1, 0x923f82a4, 0xab1c5ed5,
    0xd807aa98, 0x12835b01, 0x243185be, 0x550c7dc3, 0x72be5d74, 0x80deb1fe, 0x9bdc06a7, 0xc19bf174,
    0xe49b69c1, 0xefbe4786, 0x0fc19dc6, 0x240ca1cc, 0x2de92c6f, 0x4a7484aa, 0x5cb0a9dc, 0x76f988da,
    0x983e5152, 0xa831c66d, 0xb00327c8, 0xbf597fc7, 0xc6e00bf3, 0xd5a79147, 0x06ca6351, 0x14292967,
    0x27b70a85, 0x2e1b2138, 0x4d2c6dfc, 0x53380d13, 0x650a7354, 0x766a0abb, 0x81c2c92e, 0x92722c85,
    0xa2bfe8a1, 0xa81a664b, 0xc24b8b70, 0xc76c51a3, 0xd192e819, 0xd6990624, 0xf40e3585, 0x106aa070,
    0x19a4c116, 0x1e376c08, 0x2748774c, 0x34b0bcb5, 0x391c0cb3, 0x4ed8aa4a, 0x5b9cca4f, 0x682e6ff3,
    0x748f82ee, 0x78a5636f, 0x84c87814, 0x8cc70208, 0x90befffa, 0xa4506ceb, 0xbef9a3f7, 0xc67178f2]

/-- The array `m` after the first loop; the words from 16 on are not set yet. -/
def loadWords (data : ℕ → UInt8) : List UInt32 :=
  ((List.range 16).map fun i =>
    ((data (4 * i)).toUInt32 <<< 24) ||| ((data (4 * i + 1)).toUInt32 <<< 16) |||
      ((data (4 * i + 2)).toUInt32 <<< 8) ||| (data (4 * i + 3)).toUInt32) ++ List.replicate 48 0

/-- One pass of the loop from 16 on. -/
def extendWords (m : List UInt32) (i : ℕ) : List UInt32 :=
  let m15 := m.getD (i - 15) 0
  let m2 := m.getD (i - 2) 0
  let s0 := rotr m15 7 ^^^ rotr m15 18 ^^^ (m15 >>> 3)
  let s1 := rotr m2 17 ^^^ rotr m2 19 ^^^ (m2 >>> 10)
  m.set i (m.getD (i - 16) 0 + s0 + m.getD (i - 7) 0 + s1)

/-- One pass of the loop over the 64 words. -/
def transformRound (m : List UInt32) (s : Words) (i : ℕ) : Words :=
  let S1 := rotr s.e 6 ^^^ rotr s.e 11 ^^^ rotr s.e 25
  let ch := (s.e &&& s.f) ^^^ (~~~s.e &&& s.g)
  let t1 := s.h + S1 + ch + kTable.getD i 0 + m.getD i 0
  let S0 := rotr s.a 2 ^^^ rotr s.a 13 ^^^ rotr s.a 22
  let maj := (s.a &&& s.b) ^^^ (s.a &&& s.c) ^^^ (s.b &&& s.c)
  let t2 := S0 + maj
  { h := s.g, g := s.f, f := s.e, e := s.d + t1, d := s.c, c := s.b, b := s.a, a := t1 + t2 }

def sha256Transform (ctx : Sha256Ctx) (data : ℕ → UInt8) : Sha256Ctx :=
  let m := (List.range 48).foldl (fun m i => extendWords m (16 + i)) (loadWords data)
  let s := (List.range 64).foldl (transformRound m) ctx.state
  { ctx with
    state :=
      { a := ctx.state.a + s.a, b := ctx.state.b + s.b, c := ctx.state.c + s.c
        d := ctx.state.d + s.d, e := ctx.state.e + s.e, f := ctx.state.f + s.f
        g := ctx.state.g + s.g, h := ctx.state.h + s.h } }

/-- One pass of the loop of `sha256_update`. -/
def pushByte (ctx : Sha256Ctx) (byte : UInt8) : Sha256Ctx :=
  let ctx := { ctx with buf := Function.update ctx.buf ctx.buflen byte, buflen := ctx.buflen + 1 }
  if ctx.buflen = 64 then
    let ctx := sha256Transform ctx ctx.buf
    { ctx with bitlen := ctx.bitlen + 512, buflen := 0 }
  else ctx

def sha256Update (ctx : Sha256Ctx) (data : List UInt8) : Sha256Ctx := data.foldl pushByte ctx

/-- `while (i < last) buf[i++] = 0`. -/
def zeroFill (buf : ℕ → UInt8) (i last : ℕ) : ℕ → UInt8 :=
  (List.range (last - i)).foldl (fun buf j => Function.update buf (i + j) 0) buf

/-- The eight bytes of the length, written from the last one on. -/
def putLength (buf : ℕ → UInt8) (bitlen : UInt64) : ℕ → UInt8 :=
  (List.range 8).foldl (fun buf j =>
    Function.update buf (63 - j) ((bitlen >>> UInt64.ofNat (8 * j)) &&& 0xff).toUInt8) buf

def stateBytes (word : UInt32) : List UInt8 :=
  [((word >>> 24) &&& 0xff).toUInt8, ((word >>> 16) &&& 0xff).toUInt8,
    ((word >>> 8) &&& 0xff).toUInt8, (word &&& 0xff).toUInt8]

/-- The context and the place `i` after the part of `sha256_final` that ends with `i = 0` or finds
room for the length. -/
def finishBlock (ctx : Sha256Ctx) : Sha256Ctx × ℕ :=
  let ctx := { ctx with buf := Function.update ctx.buf ctx.buflen 0x80 }
  let i := ctx.buflen + 1
  if 56 < i then
    let ctx := { ctx with buf := zeroFill ctx.buf i 64 }
    (sha256Transform ctx ctx.buf, 0)
  else (ctx, i)

def sha256Final (ctx : Sha256Ctx) : List UInt8 :=
  let (ctx, i) := finishBlock ctx
  let bitlen := ctx.bitlen + UInt64.ofNat ctx.buflen * 8
  let ctx := { ctx with bitlen := bitlen, buf := putLength (zeroFill ctx.buf i 56) bitlen }
  let ctx := sha256Transform ctx ctx.buf
  [ctx.state.a, ctx.state.b, ctx.state.c, ctx.state.d, ctx.state.e, ctx.state.f, ctx.state.g,
    ctx.state.h].flatMap stateBytes

def sha256 (data : List UInt8) : List UInt8 := sha256Final (sha256Update {} data)

/-- The buffer `k` of `HmacSha256`. -/
def hmacKey (key : List UInt8) (i : ℕ) : UInt8 :=
  if 64 < key.length then (sha256 key).getD i 0 else key.getD i 0

def hmacSha256 (key data : List UInt8) : List UInt8 :=
  let i_pad := (List.range 64).map fun i => hmacKey key i ^^^ 0x36
  let o_pad := (List.range 64).map fun i => hmacKey key i ^^^ 0x5c
  let inner := sha256Final (sha256Update (sha256Update {} i_pad) data)
  sha256Final (sha256Update (sha256Update {} o_pad) inner)

structure CryptoKeys where
  dataKey : List UInt8
  tweakKey : List UInt8

def pfsGenCryptoKey (ekpfs : Vector UInt8 32) (seed : Vector UInt8 16) (newCrypt : Bool) :
    CryptoKeys :=
  let keyMaterial := if newCrypt then hmacSha256 ekpfs.toList seed.toList else ekpfs.toList
  let index : UInt32 := 1
  let d := [index.toUInt8, (index >>> 8).toUInt8, (index >>> 16).toUInt8, (index >>> 24).toUInt8] ++
    seed.toList
  let out := hmacSha256 keyMaterial d
  { tweakKey := out.take 16, dataKey := (out.drop 16).take 16 }

/-- The result `false` is `none`. -/
def computeKeys (contentId passcode : List UInt8) (index : UInt32) : Option (List UInt8) :=
  if contentId.length ≠ 36 ∨ passcode.length ≠ 32 then none
  else
    let hIndex := sha256 (stateBytes index)
    let cid := (List.range 48).map fun i => if i < 36 then contentId.getD i 0 else 0
    let hCid := sha256 cid
    some (sha256 (hIndex ++ hCid ++ passcode))

/-! ### One transformation -/

variable {n t : ℕ} {data : ℕ → UInt8} {m : List UInt32}

theorem toNat_shift (hn : n < 32) : ((UInt32.ofNat n).toBitVec % 32).toNat = n := by
  rw [BitVec.toNat_umod, UInt32.toNat_toBitVec,
    UInt32.toNat_ofNat_of_lt' (by rw [UInt32.size]; omega)]
  exact Nat.mod_eq_of_lt hn

theorem shiftRight_eq (x : UInt32) (hn : n < 32) :
    x >>> UInt32.ofNat n = Sha256.shiftRight x n := by
  apply UInt32.toBitVec_inj.mp
  rw [UInt32.toBitVec_shiftRight, BitVec.ushiftRight_eq', toNat_shift hn]
  rfl

theorem rotr_eq (x : UInt32) (hpos : 0 < n) (hn : n < 32) :
    rotr x (UInt32.ofNat n) = Sha256.rotateRight x n := by
  have hdiff : 32 - UInt32.ofNat n = UInt32.ofNat (32 - n) := by
    apply UInt32.toNat_inj.mp
    have htwo : (32 : UInt32).toNat = 32 := rfl
    rw [UInt32.toNat_sub, UInt32.toNat_ofNat', UInt32.toNat_ofNat', htwo]
    omega
  apply UInt32.toBitVec_inj.mp
  rw [rotr, hdiff, UInt32.toBitVec_or, UInt32.toBitVec_shiftRight, UInt32.toBitVec_shiftLeft,
    BitVec.ushiftRight_eq',
    BitVec.shiftLeft_eq', toNat_shift hn, toNat_shift (by omega), Sha256.rotateRight,
      BitVec.rotateRight,
    Nat.mod_eq_of_lt hn]
  rfl

theorem smallSigma0_eq (x : UInt32) :
    rotr x 7 ^^^ rotr x 18 ^^^ (x >>> 3) = Sha256.smallSigma0 x := by
  have h7 : rotr x 7 = Sha256.rotateRight x 7 := rotr_eq x (by decide) (by decide)
  have h18 : rotr x 18 = Sha256.rotateRight x 18 := rotr_eq x (by decide) (by decide)
  have h3 : x >>> 3 = Sha256.shiftRight x 3 := shiftRight_eq x (by decide)
  rw [h7, h18, h3, Sha256.smallSigma0]

theorem smallSigma1_eq (x : UInt32) :
    rotr x 17 ^^^ rotr x 19 ^^^ (x >>> 10) = Sha256.smallSigma1 x := by
  have h17 : rotr x 17 = Sha256.rotateRight x 17 := rotr_eq x (by decide) (by decide)
  have h19 : rotr x 19 = Sha256.rotateRight x 19 := rotr_eq x (by decide) (by decide)
  have h10 : x >>> 10 = Sha256.shiftRight x 10 := shiftRight_eq x (by decide)
  rw [h17, h19, h10, Sha256.smallSigma1]

theorem bigSigma0_eq (x : UInt32) : rotr x 2 ^^^ rotr x 13 ^^^ rotr x 22 = Sha256.bigSigma0 x := by
  have h2 : rotr x 2 = Sha256.rotateRight x 2 := rotr_eq x (by decide) (by decide)
  have h13 : rotr x 13 = Sha256.rotateRight x 13 := rotr_eq x (by decide) (by decide)
  have h22 : rotr x 22 = Sha256.rotateRight x 22 := rotr_eq x (by decide) (by decide)
  rw [h2, h13, h22, Sha256.bigSigma0]

theorem bigSigma1_eq (x : UInt32) : rotr x 6 ^^^ rotr x 11 ^^^ rotr x 25 = Sha256.bigSigma1 x := by
  have h6 : rotr x 6 = Sha256.rotateRight x 6 := rotr_eq x (by decide) (by decide)
  have h11 : rotr x 11 = Sha256.rotateRight x 11 := rotr_eq x (by decide) (by decide)
  have h25 : rotr x 25 = Sha256.rotateRight x 25 := rotr_eq x (by decide) (by decide)
  rw [h6, h11, h25, Sha256.bigSigma1]

/-- The 64 prime numbers that belong to the rounds. -/
def primeTable : List ℕ :=
  [2, 3, 5, 7, 11, 13, 17, 19, 23, 29, 31, 37, 41, 43, 47, 53, 59, 61, 67, 71, 73, 79, 83, 89, 97,
    101, 103, 107,
    109, 113, 127, 131, 137, 139, 149, 151, 157, 163, 167, 173, 179, 181, 191, 193, 197, 199, 211,
      223, 227, 229,
    233, 239, 241, 251, 257, 263, 269, 271, 277, 281, 283, 293, 307, 311]

theorem nth_prime (ht : t < 64) : Nat.nth Nat.Prime t = primeTable.getD t 0 := by
  have hprime : ∀ t < 64, Nat.Prime (primeTable.getD t 0) := by decide +kernel
  have hgap : ∀ t < 63, primeTable.getD t 0 ≤ primeTable.getD (t + 1) 0 ∧
      Nat.count (fun k => Nat.Prime (primeTable.getD t 0 + k))
        (primeTable.getD (t + 1) 0 - primeTable.getD t 0) = 1 := by decide +kernel
  have hcount : Nat.count Nat.Prime (primeTable.getD t 0) = t := by
    induction t with
    | zero => decide +kernel
    | succ t ih =>
      obtain ⟨hle, hone⟩ := hgap t (by omega)
      rw [← Nat.add_sub_cancel' hle, Nat.count_add, ih (by omega), hone]
  calc Nat.nth Nat.Prime t
    _ = Nat.nth Nat.Prime (Nat.count Nat.Prime (primeTable.getD t 0)) := by rw [hcount]
    _ = primeTable.getD t 0 := Nat.nth_count (hprime t ht)

theorem kTable_eq (ht : t < 64) : kTable.getD t 0 = Sha256.roundConstant t := by
  have hroots : ∀ t < 64, ∃ whole < 8,
      (2 ^ 32 * whole + (kTable.getD t 0).toNat) ^ 3 ≤ primeTable.getD t 0 * 2 ^ 96 ∧
        primeTable.getD t 0 * 2 ^ 96 < (2 ^ 32 * whole + (kTable.getD t 0).toNat + 1) ^ 3 := by
          decide +kernel
  obtain ⟨whole, -, hlow, hhigh⟩ := hroots t ht
  rw [Sha256.roundConstant, nth_prime ht]
  exact (Sha256.fractionBits_eq (by decide) whole hlow hhigh).symm

/-- A word of the state at the start has the first bits of a square root. -/
theorem initialWord_eq (ht : t < 64) {word : UInt32} (whole : ℕ)
    (hroot : (2 ^ 32 * whole + word.toNat) ^ 2 ≤ primeTable.getD t 0 * 2 ^ 64 ∧
      primeTable.getD t 0 * 2 ^ 64 < (2 ^ 32 * whole + word.toNat + 1) ^ 2) :
        word = Sha256.initialWord t := by
  rw [Sha256.initialWord, nth_prime ht]
  exact (Sha256.fractionBits_eq (by decide) whole hroot.1 hroot.2).symm

theorem initial_eq : ({} : Sha256Ctx).state = Sha256.initial := by
  apply Words.ext
  · exact initialWord_eq (by decide) 1 (by decide +kernel)
  · exact initialWord_eq (by decide) 1 (by decide +kernel)
  · exact initialWord_eq (by decide) 2 (by decide +kernel)
  · exact initialWord_eq (by decide) 2 (by decide +kernel)
  · exact initialWord_eq (by decide) 3 (by decide +kernel)
  · exact initialWord_eq (by decide) 3 (by decide +kernel)
  · exact initialWord_eq (by decide) 4 (by decide +kernel)
  · exact initialWord_eq (by decide) 4 (by decide +kernel)

theorem toNat_shiftLeft_byte (byte : UInt8) (hn : n ≤ 24) :
    (byte.toUInt32 <<< UInt32.ofNat n).toNat = byte.toNat <<< n := by
  have hbyte := byte.toNat_lt
  have hlt : byte.toNat <<< n < 2 ^ 32 := by
    calc byte.toNat <<< n = byte.toNat * 2 ^ n := Nat.shiftLeft_eq _ _
      _ < 2 ^ 8 * 2 ^ 24 :=
        Nat.mul_lt_mul_of_lt_of_le hbyte (Nat.pow_le_pow_right (by decide) hn) (by decide)
  have hshift : (UInt32.ofNat n).toNat % 32 = n := by
    rw [UInt32.toNat_ofNat_of_lt' (by rw [UInt32.size]; omega)]
    omega
  rw [UInt32.toNat_shiftLeft, hshift, UInt8.toNat_toUInt32, Nat.mod_eq_of_lt hlt]

theorem wordOfBytes_eq (b0 b1 b2 b3 : UInt8) :
    (b0.toUInt32 <<< 24) ||| (b1.toUInt32 <<< 16) ||| (b2.toUInt32 <<< 8) ||| b3.toUInt32 =
      Sha256.wordOfBytes b0 b1 b2 b3 := by
  have h24 : (b0.toUInt32 <<< 24).toNat = b0.toNat <<< 24 := toNat_shiftLeft_byte b0 (by decide)
  have h16 : (b1.toUInt32 <<< 16).toNat = b1.toNat <<< 16 := toNat_shiftLeft_byte b1 (by decide)
  have h8 : (b2.toUInt32 <<< 8).toNat = b2.toNat <<< 8 := toNat_shiftLeft_byte b2 (by decide)
  apply UInt32.toNat_inj.mp
  rw [UInt32.toNat_or, UInt32.toNat_or, UInt32.toNat_or, h24, h16, h8, UInt8.toNat_toUInt32,
    Sha256.wordOfBytes,
    ← UInt32.toNat_toBitVec, BitVec.toNat_append, BitVec.toNat_append, BitVec.toNat_append,
    Nat.shiftLeft_or_distrib, Nat.shiftLeft_or_distrib, Nat.shiftLeft_or_distrib,
      ← Nat.shiftLeft_add,
    ← Nat.shiftLeft_add, ← Nat.shiftLeft_add]
  rfl

/-- Before the second loop the first sixteen words are those of the block. -/
theorem loadWords_getD (data : ℕ → UInt8) (ht : t < 16) :
    (loadWords data).getD t 0 = Sha256.schedule data t := by
  rw [loadWords, List.getD_append _ _ _ _ (by rw [List.length_map, List.length_range]; exact ht),
    List.getD_eq_getElem _ _ (by rw [List.length_map, List.length_range]; exact ht),
      List.getElem_map,
    List.getElem_range, wordOfBytes_eq, Sha256.schedule, if_pos ht]
  rfl

/-- The words below `i` are those of the schedule. -/
structure Scheduled (data : ℕ → UInt8) (i : ℕ) (m : List UInt32) : Prop where
  length : m.length = 64
  words : ∀ t < i, m.getD t 0 = Sha256.schedule data t

theorem extendWords_scheduled {i : ℕ} (h : Scheduled data i m)
    (hlow : 16 ≤ i) (hhigh : i < 64) : Scheduled data (i + 1) (extendWords m i) := by
  have hword : extendWords m i = m.set i (Sha256.schedule data i) := by
    rw [extendWords, h.words _ (by omega), h.words _ (by omega), h.words _ (by omega),
      h.words _ (by omega),
      Sha256.schedule.eq_def data i, if_neg (by omega), smallSigma0_eq, smallSigma1_eq]
    congr 1
    ac_rfl
  refine ⟨?_, fun t ht => ?_⟩
  · rw [hword, List.length_set, h.length]
  · rw [hword, List.getD_eq_getElem?_getD, List.getElem?_set, h.length]
    by_cases heq : i = t
    · rw [if_pos heq, if_pos (by omega), heq]
      rfl
    · rw [if_neg heq, ← List.getD_eq_getElem?_getD, h.words t (by omega)]

theorem expand_scheduled (data : ℕ → UInt8) (n : ℕ) (hn : n ≤ 48) :
    Scheduled data (16 + n)
    ((List.range n).foldl (fun m i => extendWords m (16 + i)) (loadWords data)) := by
  induction n with
  | zero => exact ⟨rfl, fun t ht => loadWords_getD data ht⟩
  | succ n ih =>
    rw [List.range_succ, List.foldl_append]
    exact extendWords_scheduled (i := 16 + n) (ih (by omega)) (by omega) (by omega)

theorem transformRound_eq (h : Scheduled data 64 m) (s : Words) (ht : t < 64) :
    transformRound m s t = Sha256.round (Sha256.roundConstant t) (Sha256.schedule data t) s := by
  rw [transformRound, kTable_eq ht, h.words t ht, bigSigma0_eq, bigSigma1_eq]
  rfl

/-- A transformation is the compression of the standard; nothing but the state changes. -/
theorem sha256Transform_eq (ctx : Sha256Ctx) (data : ℕ → UInt8) :
    sha256Transform ctx data = { ctx with state := Sha256.compress ctx.state data } := by
  have hwords := expand_scheduled data 48 (le_refl _)
  have hrounds : ∀ n ≤ 64, ∀ m, Scheduled data 64 m →
      (List.range n).foldl (transformRound m) ctx.state =
        (List.range n).foldl
          (fun s t => Sha256.round (Sha256.roundConstant t) (Sha256.schedule data t) s)
          ctx.state := by
    intro n hn m hm
    refine List.foldl_ext _ _ _ fun s t ht => ?_
    exact transformRound_eq hm s (by have := List.mem_range.mp ht; omega)
  rw [sha256Transform, hrounds 64 (le_refl _) _ hwords, Sha256.compress, Words.add]
  simp only [UInt32.add_comm]

end PS4Droid.Pkg
