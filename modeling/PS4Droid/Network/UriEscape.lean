import PS4Droid.Network.UriParser

/-!
# Escaping of URI texts

`sceHttpUriEscape` and `sceHttpUriUnescape`. An input string is given by its bytes in front of the
terminator, the output by the mapped bytes of its buffer. Both functions count the bytes in a first
loop and write them in a second one; a byte that is written outside of the buffer is a fault.
-/

namespace PS4Droid.Network.Http

open BoundedBuffers

/-! ### The frame of both functions -/

/-- The status, the output buffer and the required size behind the pointers. -/
structure Conversion where
  status : UriStatus
  out : Option (List UInt8)
  require : Option ℕ
  deriving DecidableEq

/-- The pointers are checked, the size is reported and then, with room for it, the bytes are
written. -/
def convert (count : List UInt8 → ℕ) (write : List UInt8 → List UInt8 → ℕ → Option (List UInt8))
    (out : Option (List UInt8)) (require : Option ℕ) (prepare : ℕ) (input : Option (List UInt8)) :
    Option Conversion :=
  match input with
  | none => some ⟨.invalidValue, out, require⟩
  | some src =>
    let needed := count src + 1
    let require := require.map fun _ => needed
    match out with
    | none => some ⟨.ok, none, require⟩
    | some buffer =>
      if prepare < needed then some ⟨.outOfMemory, some buffer, require⟩
      else (write src buffer 0).map fun buffer => ⟨.ok, some buffer, require⟩

/-! ### Escaping -/

def isUnreserved (c : UInt8) : Bool :=
  (65 ≤ c ∧ c ≤ 90) ∨ (97 ≤ c ∧ c ≤ 122) ∨ (48 ≤ c ∧ c ≤ 57) ∨ c = 45 ∨ c = 95 ∨ c = 46 ∨ c = 126

/-- `0123456789ABCDEF`. -/
def hexChars : List UInt8 := [48, 49, 50, 51, 52, 53, 54, 55, 56, 57, 65, 66, 67, 68, 69, 70]

def hexChar (n : UInt8) : UInt8 := hexChars[n.toNat]?.getD 0

def escapeCount : List UInt8 → ℕ
  | [] => 0
  | c :: rest => (if isUnreserved c then 1 else 3) + escapeCount rest

def escapeLoop : List UInt8 → List UInt8 → ℕ → Option (List UInt8)
  | [], out, dst => store out dst [0]
  | c :: rest, out, dst =>
    if isUnreserved c then do
      let out ← store out dst [c]
      escapeLoop rest out (dst + 1)
    else do
      let out ← store out dst [37]
      let out ← store out (dst + 1) [hexChar ((c >>> 4) &&& 0x0f)]
      let out ← store out (dst + 2) [hexChar (c &&& 0x0f)]
      escapeLoop rest out (dst + 3)

def sceHttpUriEscape (out : Option (List UInt8)) (require : Option ℕ) (prepare : ℕ)
    (input : Option (List UInt8)) :
    Option Conversion :=
  convert escapeCount escapeLoop out require prepare input

/-! ### Unescaping -/

def isHex (c : UInt8) : Bool := (48 ≤ c ∧ c ≤ 57) ∨ (65 ≤ c ∧ c ≤ 70) ∨ (97 ≤ c ∧ c ≤ 102)

def hexToInt (c : UInt8) : UInt8 :=
  if 48 ≤ c ∧ c ≤ 57 then c - 48
  else if 65 ≤ c ∧ c ≤ 70 then c - 65 + 10
  else if 97 ≤ c ∧ c ≤ 102 then c - 97 + 10
  else 0

/-- A percent sign and two digits, in front of the terminator. -/
def isValidPercentSequence : List UInt8 → Bool
  | c :: a :: b :: _ => c = 37 ∧ a ≠ 0 ∧ b ≠ 0 ∧ isHex a ∧ isHex b
  | _ => false

def unescapeCount : List UInt8 → ℕ
  | [] => 0
  | c :: a :: b :: rest =>
    if isValidPercentSequence (c :: a :: b :: rest) then unescapeCount rest + 1
      else unescapeCount (a :: b :: rest) + 1
  | _ :: rest => unescapeCount rest + 1

def unescapeLoop : List UInt8 → List UInt8 → ℕ → Option (List UInt8)
  | [], out, dst => store out dst [0]
  | c :: a :: b :: rest, out, dst =>
    if isValidPercentSequence (c :: a :: b :: rest) then do
      let out ← store out dst [(hexToInt a <<< 4) ||| hexToInt b]
      unescapeLoop rest out (dst + 1)
    else do
      let out ← store out dst [c]
      unescapeLoop (a :: b :: rest) out (dst + 1)
  | c :: rest, out, dst => do
    let out ← store out dst [c]
    unescapeLoop rest out (dst + 1)

def sceHttpUriUnescape (out : Option (List UInt8)) (require : Option ℕ) (prepare : ℕ)
    (input : Option (List UInt8)) :
    Option Conversion :=
  convert unescapeCount unescapeLoop out require prepare input

/-! ### Conversions that measure what they write -/

/-- The function reports the size of the output with its terminator and, with room for it, writes
exactly that. -/
structure Converts (f : Option (List UInt8) → Option ℕ → ℕ → Option (List UInt8) →
    Option Conversion) (input output : List UInt8) : Prop where
  measures : ∀ old prepare,
    f none (some old) prepare (some input) = some ⟨.ok, none, some (output.length + 1)⟩
  writes : ∀ buffer require prepare, output.length + 1 ≤ prepare → prepare ≤ buffer.length →
    f (some buffer) require prepare (some input) =
      some ⟨.ok, some (output ++ 0 :: buffer.drop (output.length + 1)),
        require.map fun _ => output.length + 1⟩
  refuses : ∀ buffer require prepare, prepare < output.length + 1 →
    f (some buffer) require prepare (some input) =
      some ⟨.outOfMemory, some buffer, require.map fun _ => output.length + 1⟩

variable {count : List UInt8 → ℕ} {write : List UInt8 → List UInt8 → ℕ → Option (List UInt8)}
  {input output : List UInt8}

theorem converts_of_loops (hcount : count input = output.length)
    (hwrite : ∀ buffer, write input buffer 0 = store buffer 0 (output ++ [0])) :
    Converts (convert count write) input output := by
  have hlength : (output ++ [0]).length = output.length + 1 := List.length_append
  refine ⟨fun old prepare => ?_, fun buffer require prepare hprepare hroom => ?_,
    fun buffer require prepare hprepare => ?_⟩
  · simp only [convert, hcount, Option.map_some]
  · simp only [convert, hcount, if_neg (Nat.not_lt.mpr hprepare), hwrite]
    rw [store_zero (by omega), hlength, List.append_assoc]
    rfl
  · simp only [convert, hcount, if_pos hprepare]

/-! ### The pieces of a text -/

/-- A byte that stands for itself, or a percent sign with two digits. -/
inductive Piece where
  | byte (c : UInt8)
  | escape (a b : UInt8)
  deriving DecidableEq

def Piece.text : Piece → List UInt8
  | .byte c => [c]
  | .escape a b => [37, a, b]

def Piece.value : Piece → UInt8
  | .byte c => c
  | .escape a b => 16 * hexToInt a + hexToInt b

/-- The text of all pieces. -/
def textOf (pieces : List Piece) : List UInt8 := pieces.flatMap Piece.text

@[simp]
theorem textOf_cons (piece : Piece) (pieces : List Piece) :
    textOf (piece :: pieces) = piece.text ++ textOf pieces :=
  List.flatMap_cons

/-- The pieces as they are read from the left: the escapes are valid and no other byte starts a
valid one. -/
inductive Reads : List Piece → Prop
  | nil : Reads []
  | escape {a b : UInt8} {pieces : List Piece} (ha : isHex a = true) (hb : isHex b = true)
      (rest : Reads pieces) :
      Reads (.escape a b :: pieces)
  | byte {c : UInt8} {pieces : List Piece}
      (plain : isValidPercentSequence (c :: textOf pieces) = false)
      (rest : Reads pieces) : Reads (.byte c :: pieces)

variable {pieces : List Piece} {a b c n : UInt8} {rest : List UInt8}

theorem isHex_ne_zero (h : isHex c = true) : c ≠ 0 := by
  rintro rfl
  revert h
  decide

theorem hexToInt_lt (c : UInt8) : (hexToInt c).toNat < 16 := by
  unfold hexToInt
  split_ifs with hdigit hupper hlower
  all_goals
    simp only [UInt8.le_iff_toNat_le, UInt8.toNat_add, UInt8.toNat_sub, UInt8.reduceToNat] at *
    omega

theorem digits_eq (a b : UInt8) :
    (hexToInt a <<< 4) ||| hexToInt b = 16 * hexToInt a + hexToInt b := by
  have ha := hexToInt_lt a
  have hb := hexToInt_lt b
  apply UInt8.toNat_inj.mp
  rw [UInt8.toNat_or, UInt8.toNat_shiftLeft, UInt8.toNat_add, UInt8.toNat_mul]
  change (hexToInt a).toNat <<< 4 % 256 ||| (hexToInt b).toNat =
    (16 * (hexToInt a).toNat % 256 + (hexToInt b).toNat) % 256
  have hshift : (hexToInt a).toNat <<< 4 = 16 * (hexToInt a).toNat := by
    rw [Nat.shiftLeft_eq, Nat.mul_comm]
  rw [Nat.mod_eq_of_lt (by omega), Nat.mod_eq_of_lt (by omega), Nat.mod_eq_of_lt (by omega),
    ← hshift]
  exact (Nat.shiftLeft_add_eq_or_of_lt hb _).symm

theorem hexChar_mem (n : UInt8) (h : n.toNat < 16) : hexChar n ∈ hexChars := by
  rw [hexChar, List.getElem?_eq_getElem h, Option.getD_some]
  exact List.getElem_mem h

theorem hexToInt_hexChar (h : n.toNat < 16) : hexToInt (hexChar n) = n := by
  have hall : ∀ m : Fin 16, hexToInt (hexChar (UInt8.ofNat m)) = UInt8.ofNat m := by decide
  have hn := hall ⟨n.toNat, h⟩
  rwa [UInt8.ofNat_toNat] at hn

theorem isHex_of_mem (h : c ∈ hexChars) : isHex c = true :=
  List.forall_iff_forall_mem.mp (by decide : hexChars.Forall fun c => isHex c = true) c h

theorem isValidPercentSequence_escape (ha : isHex a = true) (hb : isHex b = true)
    (rest : List UInt8) :
    isValidPercentSequence (37 :: a :: b :: rest) = true :=
  decide_eq_true ⟨rfl, isHex_ne_zero ha, isHex_ne_zero hb, ha, hb⟩

theorem unescapeCount_byte (h : isValidPercentSequence (c :: rest) = false) :
    unescapeCount (c :: rest) = unescapeCount rest + 1 := by
  rcases rest with _ | ⟨a, _ | ⟨b, rest⟩⟩
  · rfl
  · rfl
  · rw [unescapeCount, if_neg (by rw [h]; exact Bool.false_ne_true)]

theorem unescapeLoop_byte (h : isValidPercentSequence (c :: rest) = false) (out : List UInt8)
    (dst : ℕ) :
    unescapeLoop (c :: rest) out dst = (store out dst [c]).bind fun out => unescapeLoop rest out
      (dst + 1) := by
  rcases rest with _ | ⟨a, _ | ⟨b, rest⟩⟩
  · rfl
  · rfl
  · rw [unescapeLoop, if_neg (by rw [h]; exact Bool.false_ne_true)]
    rfl

theorem Reads.unescapeCount_eq (h : Reads pieces) :
    unescapeCount (textOf pieces) = pieces.length := by
  induction h with
  | nil => rfl
  | @escape a b pieces ha hb _ ih =>
    change unescapeCount (37 :: a :: b :: textOf pieces) = _
    rw [unescapeCount, if_pos (isValidPercentSequence_escape ha hb _), ih, List.length_cons]
  | @byte c pieces plain _ ih =>
    change unescapeCount (c :: textOf pieces) = _
    rw [unescapeCount_byte plain, ih, List.length_cons]

theorem Reads.unescapeLoop_eq (h : Reads pieces) (out : List UInt8) (dst : ℕ) :
    unescapeLoop (textOf pieces) out dst = store out dst (pieces.map Piece.value ++ [0]) := by
  induction h generalizing out dst with
  | nil => rfl
  | @escape a b pieces ha hb _ ih =>
    change unescapeLoop (37 :: a :: b :: textOf pieces) out dst = _
    rw [unescapeLoop, if_pos (isValidPercentSequence_escape ha hb _), digits_eq]
    simp only [ih]
    exact store_append out dst [16 * hexToInt a + hexToInt b] (pieces.map Piece.value ++ [0])
  | @byte c pieces plain _ ih =>
    change unescapeLoop (c :: textOf pieces) out dst = _
    rw [unescapeLoop_byte plain]
    simp only [ih]
    exact store_append out dst [c] (pieces.map Piece.value ++ [0])

theorem Reads.converts (h : Reads pieces) :
    Converts sceHttpUriUnescape (textOf pieces) (pieces.map Piece.value) :=
  converts_of_loops (by rw [h.unescapeCount_eq, List.length_map]) fun buffer =>
    h.unescapeLoop_eq buffer 0

/-- Every text can be read, a malformed percent sequence byte by byte. -/
theorem exists_reads (input : List UInt8) : ∃ pieces, Reads pieces ∧ textOf pieces = input := by
  induction hn : input.length using Nat.strong_induction_on generalizing input with
  | _ n ih =>
    cases input with
    | nil => exact ⟨[], .nil, rfl⟩
    | cons c rest =>
      by_cases hvalid : isValidPercentSequence (c :: rest) = true
      · obtain ⟨a, b, rest, rfl⟩ : ∃ a b tail, rest = a :: b :: tail := by
          rcases rest with _ | ⟨a, _ | ⟨b, rest⟩⟩
          · cases hvalid
          · cases hvalid
          · exact ⟨a, b, rest, rfl⟩
        obtain ⟨rfl, -, -, ha, hb⟩ := of_decide_eq_true hvalid
        obtain ⟨pieces, hreads, rfl⟩ :=
          ih rest.length (by simp only [List.length_cons] at hn; omega) rest rfl
        exact ⟨.escape a b :: pieces, .escape ha hb hreads, rfl⟩
      · obtain ⟨pieces, hreads, rfl⟩ :=
          ih rest.length (by rw [List.length_cons] at hn; omega) rest rfl
        exact ⟨.byte c :: pieces, .byte (Bool.eq_false_iff.mpr hvalid) hreads, rfl⟩

/-! ### Escaped texts -/

/-- An unreserved byte, or a percent sign with two upper case digits. -/
def Piece.Escaped : Piece → Prop
  | .byte c => isUnreserved c = true
  | .escape a b => a ∈ hexChars ∧ b ∈ hexChars

def escapeOf (c : UInt8) : Piece :=
  if isUnreserved c then .byte c else .escape (hexChar ((c >>> 4) &&& 0x0f)) (hexChar (c &&& 0x0f))

theorem highDigit_toNat (c : UInt8) : ((c >>> 4) &&& 0x0f).toNat = c.toNat / 16 := by
  have hc := c.toNat_lt
  rw [UInt8.toNat_and, UInt8.toNat_shiftRight]
  change (c.toNat >>> 4) &&& (2 ^ 4 - 1) = _
  rw [Nat.and_two_pow_sub_one_eq_mod, Nat.shiftRight_eq_div_pow, Nat.mod_eq_of_lt (by omega)]

theorem lowDigit_toNat (c : UInt8) : (c &&& 0x0f).toNat = c.toNat % 16 := by
  rw [UInt8.toNat_and]
  exact Nat.and_two_pow_sub_one_eq_mod c.toNat 4

theorem escaped_escapeOf (c : UInt8) : (escapeOf c).Escaped := by
  have hc := c.toNat_lt
  unfold escapeOf
  split_ifs with h
  · exact h
  · exact ⟨hexChar_mem _ (by rw [highDigit_toNat]; omega),
      hexChar_mem _ (by rw [lowDigit_toNat]; omega)⟩

theorem value_escapeOf (c : UInt8) : (escapeOf c).value = c := by
  have hc := c.toNat_lt
  unfold escapeOf
  split_ifs with h
  · rfl
  · rw [Piece.value, hexToInt_hexChar (by rw [highDigit_toNat]; omega),
      hexToInt_hexChar (by rw [lowDigit_toNat]; omega)]
    apply UInt8.toNat_inj.mp
    rw [UInt8.toNat_add, UInt8.toNat_mul, highDigit_toNat, lowDigit_toNat]
    change (16 * (c.toNat / 16) % 256 + c.toNat % 16) % 256 = c.toNat
    omega

/-- A reserved byte is not mistaken for an escape, since a percent sign is reserved. -/
theorem reads_of_escaped (h : ∀ piece ∈ pieces, piece.Escaped) : Reads pieces := by
  induction pieces with
  | nil => exact .nil
  | cons piece pieces ih =>
    have hrest := ih fun other hother => h other (List.mem_cons_of_mem _ hother)
    have hpiece := h piece List.mem_cons_self
    cases piece with
    | escape a b => exact .escape (isHex_of_mem hpiece.1) (isHex_of_mem hpiece.2) hrest
    | byte c =>
      refine .byte ?_ hrest
      have hc : c ≠ 37 := by
        rintro rfl
        exact absurd hpiece (by decide : ¬isUnreserved 37 = true)
      rcases textOf pieces with _ | ⟨a, _ | ⟨b, rest⟩⟩
      · rfl
      · rfl
      · exact decide_eq_false fun hvalid => hc hvalid.1

theorem escapeCount_eq (s : List UInt8) : escapeCount s = (textOf (s.map escapeOf)).length := by
  induction s with
  | nil => rfl
  | cons c rest ih =>
    rw [escapeCount, ih, List.map_cons, textOf_cons, List.length_append, escapeOf]
    split_ifs <;> rfl

theorem escapeLoop_eq (s out : List UInt8) (dst : ℕ) :
    escapeLoop s out dst = store out dst (textOf (s.map escapeOf) ++ [0]) := by
  induction s generalizing out dst with
  | nil => rfl
  | cons c rest ih =>
    rw [escapeLoop, List.map_cons, textOf_cons, escapeOf]
    simp only [ih]
    split_ifs with h
    · exact store_append out dst [c] (textOf (rest.map escapeOf) ++ [0])
    · let tail := textOf (rest.map escapeOf) ++ [0]
      change _ = store out dst (37 :: hexChar ((c >>> 4) &&& 0x0f) :: hexChar (c &&& 0x0f) :: tail)
      rw [store_cons out dst 37 (_ :: _)]
      refine Option.bind_congr fun out _ => ?_
      rw [store_cons out (dst + 1) _ (_ :: _)]
      refine Option.bind_congr fun out _ => ?_
      exact (store_cons out (dst + 2) _ tail).symm

theorem converts_escape (s : List UInt8) : Converts sceHttpUriEscape s (textOf (s.map escapeOf)) :=
  converts_of_loops (escapeCount_eq s) fun buffer => escapeLoop_eq s buffer 0

/-- Every text is escaped and comes back, with exact sizes both times; and whatever is unescaped,
the bytes besides the valid percent sequences stay as they are. -/
theorem uriEscape_roundTrip (s input : List UInt8) :
    (∃ pieces : List Piece, (∀ piece ∈ pieces, piece.Escaped) ∧
      Converts sceHttpUriEscape s (textOf pieces) ∧ Converts sceHttpUriUnescape (textOf pieces) s) ∧
    ∃ pieces : List Piece, Reads pieces ∧ textOf pieces = input ∧
      Converts sceHttpUriUnescape input (pieces.map Piece.value) := by
  constructor
  · have hescaped : ∀ piece ∈ s.map escapeOf, piece.Escaped := by
      intro piece hpiece
      obtain ⟨c, -, rfl⟩ := List.mem_map.mp hpiece
      exact escaped_escapeOf c
    have hvalues : (s.map escapeOf).map Piece.value = s := by
      rw [List.map_map]
      exact (List.map_congr_left fun c _ => value_escapeOf c).trans (List.map_id s)
    have hback := (reads_of_escaped hescaped).converts
    rw [hvalues] at hback
    exact ⟨s.map escapeOf, hescaped, converts_escape s, hback⟩
  · obtain ⟨pieces, hreads, rfl⟩ := exists_reads input
    exact ⟨pieces, hreads, rfl, hreads.converts⟩

/-- `a %` with a malformed end. -/
example : sceHttpUriUnescape (some (List.replicate 5 7)) (some 0) 5 (some [97, 37, 50, 48, 37]) =
    some ⟨.ok, some [97, 32, 37, 0, 7], some 4⟩ := by
  decide +kernel

end PS4Droid.Network.Http
