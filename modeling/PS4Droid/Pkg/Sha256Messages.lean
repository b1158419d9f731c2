import PS4Droid.Pkg.Sha256

/-!
# Messages and keys

The context always has the hash value of the full blocks and the bytes behind them. From this
follows that it computes the hash value of the whole message, however it is cut into pieces, and
that the keys of a package are the compositions they are meant to be.
-/

namespace PS4Droid.Pkg

open PS4Droid.Sha256 (hashBlocks pad zeroCount)

/-- What the context has of the bytes pushed so far. -/
structure Absorbed (ctx : Sha256Ctx) (msg : List UInt8) : Prop where
  buflen : ctx.buflen = msg.length % 64
  bitlen : ctx.bitlen = UInt64.ofNat (512 * (msg.length / 64))
  state : ctx.state = hashBlocks msg (msg.length / 64)
  buf : ∀ j < msg.length % 64, ctx.buf j = msg.getD (64 * (msg.length / 64) + j) 0

/-! ### Pushing bytes -/

theorem absorbed_nil : Absorbed {} [] :=
  ⟨rfl, rfl, initial_eq.trans (Sha256.hashBlocks_zero []).symm,
    fun _ hj => absurd hj (Nat.not_lt_zero _)⟩

variable {ctx : Sha256Ctx} {msg : List UInt8} {j n : ℕ}

/-- With the new byte the buffer has the bytes behind the full blocks. -/
theorem buffer_push (h : Absorbed ctx msg) (byte : UInt8) (hj : j ≤ msg.length % 64) :
    Function.update ctx.buf ctx.buflen byte j = (msg ++ [byte]).getD
      (64 * (msg.length / 64) + j) 0 := by
  by_cases hlast : j = msg.length % 64
  · have hend : 64 * (msg.length / 64) + j = msg.length := by omega
    rw [h.buflen, hlast, Function.update_self, ← hlast, hend,
      List.getD_append_right _ _ _ _ (le_refl _), Nat.sub_self]
    rfl
  · rw [h.buflen, Function.update_of_ne hlast, h.buf j (by omega),
      List.getD_append _ _ _ _ (by omega)]

theorem pushByte_absorbed (h : Absorbed ctx msg) (byte : UInt8) :
    Absorbed (pushByte ctx byte) (msg ++ [byte]) := by
  have hlen : (msg ++ [byte]).length = msg.length + 1 := List.length_append
  have hbuf := fun j hj => buffer_push (j := j) h byte hj
  by_cases hfull : ctx.buflen + 1 = 64
  · have hr := h.buflen
    have hdiv : (msg.length + 1) / 64 = msg.length / 64 + 1 := by omega
    have hmod : (msg.length + 1) % 64 = 0 := by omega
    have hblock : ∀ j < 64, Function.update ctx.buf ctx.buflen byte j =
        Sha256.blockOf (msg ++ [byte]) (msg.length / 64) j := fun j hj => hbuf j (by omega)
    simp only [pushByte, if_pos hfull, sha256Transform_eq]
    refine ⟨?_, ?_, ?_, ?_⟩
    · rw [hlen, hmod]
    · rw [hlen, hdiv, h.bitlen, Nat.mul_succ, UInt64.ofNat_add]
      rfl
    · rw [hlen, hdiv, Sha256.hashBlocks_succ, Sha256.hashBlocks_append _ (by omega), h.state,
        Sha256.compress_congr hblock]
    · intro j hj
      rw [hlen, hmod] at hj
      exact absurd hj (Nat.not_lt_zero j)
  · have hr := h.buflen
    have hdiv : (msg.length + 1) / 64 = msg.length / 64 := by omega
    have hmod : (msg.length + 1) % 64 = msg.length % 64 + 1 := by omega
    simp only [pushByte, if_neg hfull]
    refine ⟨?_, ?_, ?_, ?_⟩
    · rw [hlen, hmod, h.buflen]
    · rw [hlen, hdiv, h.bitlen]
    · rw [hlen, hdiv, Sha256.hashBlocks_append _ (by omega), h.state]
    · intro j hj
      rw [hlen, hmod] at hj
      rw [hlen, hdiv]
      exact hbuf j (by omega)

theorem sha256Update_absorbed (h : Absorbed ctx msg) (data : List UInt8) :
    Absorbed (sha256Update ctx data) (msg ++ data) := by
  induction data generalizing ctx msg with
  | nil =>
    rw [List.append_nil]
    exact h
  | cons byte data ih =>
    have hrest := ih (pushByte_absorbed h byte)
    rw [List.append_assoc, List.singleton_append] at hrest
    exact hrest

theorem updates_absorbed (h : Absorbed ctx msg) (chunks : List (List UInt8)) :
    Absorbed (chunks.foldl sha256Update ctx) (msg ++ chunks.flatten) := by
  induction chunks generalizing ctx msg with
  | nil =>
    rw [List.flatten_nil, List.append_nil]
    exact h
  | cons chunk chunks ih =>
    rw [List.flatten_cons, ← List.append_assoc]
    exact ih (sha256Update_absorbed h chunk)

/-! ### The end of a message -/

theorem zeroFill_apply (buf : ℕ → UInt8) (i last j : ℕ) :
    zeroFill buf i last j = if i ≤ j ∧ j < last then 0 else buf j := by
  have hloop : ∀ n, (List.range n).foldl (fun buf j => Function.update buf (i + j) 0) buf j =
      if i ≤ j ∧ j < i + n then 0 else buf j := by
    intro n
    induction n with
    | zero => exact (if_neg (by omega)).symm
    | succ n ih =>
      rw [List.range_succ, List.foldl_append, List.foldl_cons, List.foldl_nil]
      by_cases hlast : j = i + n
      · rw [hlast, Function.update_self, if_pos (by omega)]
      · rw [Function.update_of_ne hlast, ih]
        exact if_congr (by omega) rfl rfl
  rw [zeroFill, hloop]
  exact if_congr (by omega) rfl rfl

theorem byte_of_word (x : UInt64) (hn : n < 8) :
    ((x >>> UInt64.ofNat (8 * n)) &&& 0xff).toUInt8 = UInt8.ofNat (x.toNat / 256 ^ n) := by
  have hshift : (UInt64.ofNat (8 * n)).toNat % 64 = 8 * n := by
    rw [UInt64.toNat_ofNat_of_lt' (by rw [UInt64.size]; omega)]
    omega
  have hmask : (0xff : UInt64).toNat = 2 ^ 8 - 1 := rfl
  apply UInt8.toNat_inj.mp
  rw [UInt64.toNat_toUInt8, UInt64.toNat_and, UInt64.toNat_shiftRight, hshift, hmask,
    Nat.and_two_pow_sub_one_eq_mod,
    Nat.shiftRight_eq_div_pow, UInt8.toNat_ofNat', Nat.pow_mul, Nat.mod_mod]

theorem putLength_apply (buf : ℕ → UInt8) (bitlen : UInt64) (hj : j < 64) :
    putLength buf bitlen j = if 56 ≤ j then UInt8.ofNat (bitlen.toNat / 256 ^ (63 - j))
      else buf j := by
  have hloop : ∀ n ≤ 8, (List.range n).foldl (fun buf j =>
      Function.update buf (63 - j) ((bitlen >>> UInt64.ofNat (8 * j)) &&& 0xff).toUInt8) buf j =
        if 64 - n ≤ j then UInt8.ofNat (bitlen.toNat / 256 ^ (63 - j)) else buf j := by
    intro n hn
    induction n with
    | zero => exact (if_neg (by omega)).symm
    | succ n ih =>
      rw [List.range_succ, List.foldl_append, List.foldl_cons, List.foldl_nil]
      by_cases hlast : j = 63 - n
      · have hplace : 63 - j = n := by omega
        rw [if_pos (by omega), hplace, hlast, Function.update_self, byte_of_word bitlen (by omega)]
      · rw [Function.update_of_ne hlast, ih (by omega)]
        exact if_congr (by omega) rfl rfl
  exact hloop 8 (le_refl _)

/-- The bytes below `i` belong to the last block of the padded message, and the message ends
before. -/
structure Finishing (ctx ctx' : Sha256Ctx) (msg : List UInt8) (i count : ℕ) : Prop where
  blocks : 64 * count + 64 = (pad msg).length
  room : i ≤ 56
  ended : msg.length < 64 * count + i
  bitlen : ctx'.bitlen = ctx.bitlen
  buflen : ctx'.buflen = ctx.buflen
  state : ctx'.state = hashBlocks (pad msg) count
  buf : ∀ j < i, ctx'.buf j = (pad msg).getD (64 * count + j) 0

/-- Up to the bit one the buffer has the bytes of the padded message. -/
theorem buffer_one (h : Absorbed ctx msg) (hj : j ≤ msg.length % 64) :
    Function.update ctx.buf ctx.buflen 0x80 j = (pad msg).getD (64 * (msg.length / 64) + j) 0 := by
  by_cases hlast : j = msg.length % 64
  · have hend : 64 * (msg.length / 64) + j = msg.length := by omega
    rw [h.buflen, hlast, Function.update_self, ← hlast, hend, Sha256.pad_one]
  · rw [h.buflen, Function.update_of_ne hlast, h.buf j (by omega), Sha256.pad_message (by omega)]

theorem hashBlocks_pad (msg : List UInt8) :
    hashBlocks (pad msg) (msg.length / 64) = hashBlocks msg (msg.length / 64) :=
  Sha256.hashBlocks_append _ (by omega)

/-- Either the length fits behind the bit one, or one more block is filled with zeros. -/
theorem finishBlock_spec (h : Absorbed ctx msg) :
    ∃ count, Finishing ctx (finishBlock ctx).1 msg (finishBlock ctx).2 count := by
  have hr := h.buflen
  have hlength := Sha256.length_pad msg
  have hzeros : zeroCount msg.length = (119 - msg.length % 64) % 64 := rfl
  have hone := fun j hj => buffer_one (j := j) h hj
  by_cases hshort : 56 < ctx.buflen + 1
  · refine ⟨msg.length / 64 + 1, ?_⟩
    have hblock : ∀ j < 64,
      zeroFill (Function.update ctx.buf ctx.buflen 0x80) (ctx.buflen + 1) 64 j =
        Sha256.blockOf (pad msg) (msg.length / 64) j := by
      intro j hj
      rw [zeroFill_apply, Sha256.blockOf]
      by_cases hzero : ctx.buflen + 1 ≤ j ∧ j < 64
      · rw [if_pos hzero, Sha256.pad_zero (by omega) (by omega)]
      · rw [if_neg hzero, hone j (by omega)]
    simp only [finishBlock, if_pos hshort, sha256Transform_eq]
    refine ⟨by omega, Nat.zero_le _, by omega, rfl, rfl, ?_,
      fun j hj => absurd hj (Nat.not_lt_zero j)⟩
    rw [Sha256.hashBlocks_succ, hashBlocks_pad, h.state, Sha256.compress_congr hblock]
  · refine ⟨msg.length / 64, ?_⟩
    simp only [finishBlock, if_neg hshort]
    refine ⟨by omega, by omega, by omega, rfl, rfl, ?_, fun j hj => hone j (by omega)⟩
    rw [hashBlocks_pad, h.state]

theorem length_byte (h : Absorbed ctx msg) (hn : n < 8) :
    UInt8.ofNat ((ctx.bitlen + UInt64.ofNat ctx.buflen * 8).toNat / 256 ^ n) =
      UInt8.ofNat (8 * msg.length / 256 ^ n) := by
  have height : (8 : UInt64).toNat = 8 := rfl
  have hbits : (ctx.bitlen + UInt64.ofNat ctx.buflen * 8).toNat = 8 * msg.length % 2 ^ 64 := by
    rw [h.bitlen, h.buflen, UInt64.toNat_add, UInt64.toNat_mul, UInt64.toNat_ofNat',
      UInt64.toNat_ofNat', height]
    omega
  apply UInt8.toNat_inj.mp
  rw [hbits, UInt8.toNat_ofNat', UInt8.toNat_ofNat']
  interval_cases n <;> omega

theorem byte_of_state (x : UInt32) : (x &&& 0xff).toUInt8 = UInt8.ofNat x.toNat := by
  have hmask : (0xff : UInt32).toNat = 2 ^ 8 - 1 := rfl
  apply UInt8.toNat_inj.mp
  rw [UInt32.toNat_toUInt8, UInt32.toNat_and, hmask, Nat.and_two_pow_sub_one_eq_mod,
    UInt8.toNat_ofNat', Nat.mod_mod]

theorem stateBytes_eq (word : UInt32) : stateBytes word = Sha256.wordBytes word := by
  have h24 : (word >>> 24).toNat = word.toNat / 256 ^ 3 := Nat.shiftRight_eq_div_pow _ _
  have h16 : (word >>> 16).toNat = word.toNat / 256 ^ 2 := Nat.shiftRight_eq_div_pow _ _
  have h8 : (word >>> 8).toNat = word.toNat / 256 := Nat.shiftRight_eq_div_pow _ _
  rw [stateBytes, byte_of_state, byte_of_state, byte_of_state, byte_of_state, h24, h16, h8,
    Sha256.wordBytes]

theorem sha256Final_eq (h : Absorbed ctx msg) :
    sha256Final ctx = Sha256.hash msg := by
  obtain ⟨count, hfinish⟩ := finishBlock_spec h
  have hlength := Sha256.length_pad msg
  have hblocks := hfinish.blocks
  have hroom := hfinish.room
  have hended := hfinish.ended
  have hcount : (pad msg).length / 64 = count + 1 := by omega
  have hblock : ∀ j < 64, putLength (zeroFill (finishBlock ctx).1.buf (finishBlock ctx).2 56)
      ((finishBlock ctx).1.bitlen + UInt64.ofNat (finishBlock ctx).1.buflen * 8) j =
        Sha256.blockOf (pad msg) count j := by
    intro j hj
    rw [putLength_apply _ _ hj, Sha256.blockOf, hfinish.bitlen, hfinish.buflen]
    by_cases hlast : 56 ≤ j
    · have hplace : 64 * count + j = msg.length + 1 + zeroCount msg.length + (j - 56) := by omega
      have hdigit : 7 - (j - 56) = 63 - j := by omega
      rw [if_pos hlast, length_byte h (by omega), hplace, Sha256.pad_length (by omega), hdigit]
    · rw [if_neg hlast, zeroFill_apply]
      by_cases hzero : (finishBlock ctx).2 ≤ j ∧ j < 56
      · rw [if_pos hzero, Sha256.pad_zero (by omega) (by omega)]
      · rw [if_neg hzero, hfinish.buf j (by omega)]
  rw [sha256Final]
  simp only [sha256Transform_eq]
  rw [Sha256.compress_congr hblock, hfinish.state, ← Sha256.hashBlocks_succ, funext stateBytes_eq,
    Sha256.hash, hcount, Sha256.digest]

theorem sha256_eq (msg : List UInt8) : sha256 msg = Sha256.hash msg :=
  sha256Final_eq (sha256Update_absorbed absorbed_nil msg)

/-! ### Keys -/

theorem hmacKey_eq (key : List UInt8) :
    (List.range 64).map (hmacKey key) = Sha256.keyBlock key := by
  have hzeros : ∀ (l : List UInt8) (n i : ℕ), (l ++ List.replicate n 0).getD i 0 = l.getD i 0 := by
    intro l n i
    by_cases hi : i < l.length
    · rw [List.getD_append _ _ _ _ hi]
    · rw [List.getD_append_right _ _ _ _ (by omega), List.getD_eq_default l _ (by omega),
        List.getD_eq_getElem?_getD, List.getElem?_getD_replicate_default_eq]
  refine List.ext_getElem ?_ fun i hi hi' => ?_
  · rw [List.length_map, List.length_range, Sha256.length_keyBlock]
  · rw [List.getElem_map, List.getElem_range, ← List.getD_eq_getElem _ 0 hi', Sha256.keyBlock,
      hzeros, hmacKey, sha256_eq]
    by_cases hlong : 64 < key.length
    · rw [if_pos hlong, if_pos hlong]
    · rw [if_neg hlong, if_neg hlong]

theorem hmacSha256_eq (key data : List UInt8) : hmacSha256 key data = Sha256.hmac key data := by
  have hpad : ∀ byte, (List.range 64).map (fun i => hmacKey key i ^^^ byte) =
      (Sha256.keyBlock key).map (· ^^^ byte) := by
    intro byte
    rw [← hmacKey_eq, List.map_map]
    rfl
  have hstart := fun pad => sha256Update_absorbed absorbed_nil pad
  simp only [List.nil_append] at hstart
  rw [hmacSha256, Sha256.hmac, ← hpad, ← hpad,
    ← sha256Final_eq (sha256Update_absorbed (hstart _) _),
    ← sha256Final_eq (sha256Update_absorbed (hstart _) _)]

/-- The keys of the image: both halves of one hash value under the key material. -/
noncomputable def imageKeys (ekpfs : Vector UInt8 32) (seed : Vector UInt8 16) (newCrypt : Bool) :
    CryptoKeys :=
  let material := if newCrypt then Sha256.hmac ekpfs.toList seed.toList else ekpfs.toList
  let value := Sha256.hmac material ([1, 0, 0, 0] ++ seed.toList)
  { tweakKey := value.take 16, dataKey := value.drop 16 }

/-- The key with an index, for a content id and a pass code of the right lengths. -/
noncomputable def packageKey (contentId passcode : List UInt8) (index : UInt32) : List UInt8 :=
  Sha256.hash (Sha256.hash (Sha256.wordBytes index) ++ Sha256.hash
    (contentId ++ List.replicate 12 0) ++ passcode)

theorem pfsGenCryptoKey_eq (ekpfs : Vector UInt8 32) (seed : Vector UInt8 16) (newCrypt : Bool) :
    pfsGenCryptoKey ekpfs seed newCrypt = imageKeys ekpfs seed newCrypt := by
  have hrest : ∀ key msg,
    ((Sha256.hmac key msg).drop 16).take 16 = (Sha256.hmac key msg).drop 16 := by
    intro key msg
    exact List.take_of_length_le (by rw [List.length_drop]; rfl)
  simp only [pfsGenCryptoKey, imageKeys, hmacSha256_eq, hrest]
  rfl

theorem computeKeys_eq {contentId passcode : List UInt8} (hid : contentId.length = 36)
    (hcode : passcode.length = 32)
    (index : UInt32) :
    computeKeys contentId passcode index = some (packageKey contentId passcode index) := by
  have hcid : ((List.range 48).map fun i => if i < 36 then contentId.getD i 0 else 0) =
      contentId ++ List.replicate 12 0 := by
    refine List.ext_getElem ?_ fun i hi hi' => ?_
    · rw [List.length_map, List.length_range, List.length_append, List.length_replicate, hid]
    · rw [List.getElem_map, List.getElem_range]
      by_cases hin : i < 36
      · rw [if_pos hin, List.getElem_append_left (by omega), List.getD_eq_getElem _ _ (by omega)]
      · rw [if_neg hin, List.getElem_append_right (by omega), List.getElem_replicate]
  rw [computeKeys, if_neg (by omega), packageKey]
  simp only [hcid, sha256_eq, stateBytes_eq]

/-- In whatever pieces a message comes, the result is its hash value; and everything built on it is
the composition of the standard functions. -/
theorem hashing_is_standard :
    (∀ chunks : List (List UInt8),
      sha256Final (chunks.foldl sha256Update {}) = Sha256.hash chunks.flatten) ∧
      (∀ key data, hmacSha256 key data = Sha256.hmac key data) ∧
      (∀ ekpfs seed newCrypt, pfsGenCryptoKey ekpfs seed newCrypt = imageKeys ekpfs seed newCrypt) ∧
      ∀ contentId passcode index, computeKeys contentId passcode index =
        if contentId.length = 36 ∧ passcode.length = 32 then
          some (packageKey contentId passcode index)
        else none := by
  refine ⟨fun chunks => ?_, hmacSha256_eq, pfsGenCryptoKey_eq, fun contentId passcode index => ?_⟩
  · have habsorbed := updates_absorbed absorbed_nil chunks
    exact sha256Final_eq habsorbed
  · by_cases hlengths : contentId.length = 36 ∧ passcode.length = 32
    · rw [if_pos hlengths, computeKeys_eq hlengths.1 hlengths.2]
    · rw [if_neg hlengths, computeKeys, if_pos (by omega)]

end PS4Droid.Pkg
