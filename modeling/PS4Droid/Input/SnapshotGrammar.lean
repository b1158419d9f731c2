import Mathlib.Data.List.TakeWhile
import Mathlib.Data.Nat.Digits.Lemmas
import PS4Droid.Input.FrameText

/-!
# The grammar of controller lines

What texts of numbers denote, which texts a field may have, and the lines that are made of fields
with such texts. The parser takes these lines and gives the denoted values.
-/

namespace PS4Droid.Input

/-! ## Texts of numbers -/

/-- The decimal digits of a natural number, perhaps with zeros in front. -/
structure DecimalText (text : Bytes) (n : ℕ) : Prop where
  nonempty : text ≠ []
  digits : ∀ c ∈ text, c.isDigit = true
  value : Nat.ofDigitChars 10 text 0 = n

/-- A decimal number, or the negation of one behind a minus sign. -/
inductive IntegerText : Bytes → ℤ → Prop where
  | plain {text : Bytes} {n : ℕ} (h : DecimalText text n) : IntegerText text n
  | negative {text : Bytes} {n : ℕ} (h : DecimalText text n) : IntegerText ('-' :: text) (-n)

/-- A digit of base 16, in small or capital letters. -/
def HexDigit (c : Char) (digit : ℕ) : Prop :=
  c.toNat = digit + 48 ∧ digit < 10 ∨ c.toNat = digit + 87 ∧ 10 ≤ digit ∧ digit < 16 ∨
    c.toNat = digit + 55 ∧ 10 ≤ digit ∧ digit < 16

/-- The digits of base 16 of a natural number. -/
def HexText (text : Bytes) (n : ℕ) : Prop :=
  text ≠ [] ∧ ∃ digits, List.Forall₂ HexDigit text digits ∧ Nat.ofDigits 16 digits.reverse = n

/-- A field may have this text, with this value. -/
inductive Denotes : Field → Bytes → ℤ → Prop where
  | number {field : Field} {text : Bytes} {value : ℤ} (hseq : field ≠ .seq)
      (hbuttons : field ≠ .buttons)
      (htext : IntegerText text value) (hmin : 0 ≤ value)
        (hmax : value ≤ field.maximum) : Denotes field text value
  | seq {text : Bytes} {n : ℕ} (htext : DecimalText text n)
      (hmax : n < 2 ^ 64) : Denotes .seq text n
  | buttons {text : Bytes} {n : ℕ} (htext : DecimalText text n)
      (hmax : n < 2 ^ 64) : Denotes .buttons text n
  | buttonsHex {text : Bytes} {n : ℕ} (htext : HexText text n) (hmax : n < 2 ^ 64) :
      Denotes .buttons ('0' :: 'x' :: text) n

section Numbers

variable {text : Bytes} {n : ℕ} {value : ℤ}

theorem parseUnsigned_eq_some : parseUnsigned text = some n ↔ DecimalText text n ∧ n < 2 ^ 64 := by
  unfold parseUnsigned
  constructor
  · intro h
    dsimp only at h
    split_ifs at h with hdigits hlt
    cases h
    exact ⟨⟨hdigits.1, List.all_eq_true.mp hdigits.2, rfl⟩, hlt⟩
  · rintro ⟨⟨hne, hdigits, rfl⟩, hlt⟩
    rw [if_pos ⟨hne, List.all_eq_true.mpr hdigits⟩]
    exact if_pos hlt

variable {c : Char}

theorem isDigit_iff : c.isDigit = true ↔ 48 ≤ c.toNat ∧ c.toNat ≤ 57 := by
  rw [Char.isDigit, Bool.and_eq_true, decide_eq_true_eq, decide_eq_true_eq]
  rfl

theorem hexValue_eq_some {digit : ℕ} : hexValue c = some digit ↔ HexDigit c digit := by
  have hsmall : 'a' ≤ c ∧ c ≤ 'f' ↔ 97 ≤ c.toNat ∧ c.toNat ≤ 102 := Iff.rfl
  have hcapital : 'A' ≤ c ∧ c ≤ 'F' ↔ 65 ≤ c.toNat ∧ c.toNat ≤ 70 := Iff.rfl
  unfold hexValue HexDigit
  simp only [hsmall, hcapital, isDigit_iff]
  split_ifs <;> simp only [Option.some.injEq, false_iff] <;> omega

theorem foldl_hex (digits : List ℕ) (value : ℕ) :
    digits.foldl (fun value digit => 16 * value + digit) value =
      Nat.ofDigits 16 digits.reverse + 16 ^ digits.length * value := by
  induction digits generalizing value with
  | nil => simp
  | cons digit digits ih =>
    rw [List.foldl_cons, ih, List.reverse_cons, Nat.ofDigits_append, Nat.ofDigits_singleton,
      List.length_reverse, List.length_cons, pow_succ]
    ring

theorem mapM_hexValue {digits : List ℕ} :
    text.mapM hexValue = some digits ↔ List.Forall₂ HexDigit text digits := by
  induction text generalizing digits with
  | nil => simp [eq_comm]
  | cons c text ih =>
    rw [List.mapM_cons]
    simp only [Option.bind_eq_bind, Option.bind_eq_some_iff, Option.pure_def, Option.some.injEq]
    rw [List.forall₂_cons_left_iff]
    constructor
    · rintro ⟨digit, hdigit, rest, hrest, rfl⟩
      exact ⟨digit, rest, hexValue_eq_some.mp hdigit, ih.mp hrest, rfl⟩
    · rintro ⟨digit, rest, hdigit, hrest, rfl⟩
      exact ⟨digit, hexValue_eq_some.mpr hdigit, rest, ih.mpr hrest, rfl⟩

theorem parseHex_eq_some : parseHex text = some n ↔ HexText text n ∧ n < 2 ^ 64 := by
  unfold parseHex
  by_cases hempty : text = []
  · simp [hempty, HexText]
  · rw [if_neg hempty]
    cases hdigits : text.mapM hexValue with
    | none =>
      refine ⟨by simp, ?_⟩
      rintro ⟨⟨-, digits, hforall, -⟩, -⟩
      rw [mapM_hexValue.mpr hforall] at hdigits
      cases hdigits
    | some digits =>
      have hvalue : digits.foldl (fun value digit => 16 * value + digit) 0 =
        Nat.ofDigits 16 digits.reverse := by
        rw [foldl_hex, Nat.mul_zero, Nat.add_zero]
      dsimp only
      rw [hvalue]
      constructor
      · intro h
        split_ifs at h with hlt
        cases h
        exact ⟨⟨hempty, digits, mapM_hexValue.mp hdigits, rfl⟩, hlt⟩
      · rintro ⟨⟨-, other, hforall, rfl⟩, hlt⟩
        rw [mapM_hexValue.mpr hforall] at hdigits
        cases hdigits
        exact if_pos hlt

/-- The bounds of an `int`. -/
def asInt (value : ℤ) : Option ℤ := if -2 ^ 31 ≤ value ∧ value < 2 ^ 31 then some value else none

theorem asInt_eq_some {parsed : ℤ} : asInt parsed = some value ↔ parsed = value ∧ -2 ^ 31 ≤ value ∧
    value < 2 ^ 31 := by
  unfold asInt
  split_ifs with h
  · simp only [Option.some.injEq]
    exact ⟨fun heq => ⟨heq, heq ▸ h⟩, And.left⟩
  · refine ⟨nofun, ?_⟩
    rintro ⟨rfl, hbounds⟩
    exact absurd hbounds h

theorem parseInt_minus (rest : Bytes) : parseInt ('-' :: rest) =
    if rest ≠ [] ∧ rest.all Char.isDigit then asInt (-Nat.ofDigitChars 10 rest 0) else none := rfl

theorem parseInt_plain (h : ∀ rest, text ≠ '-' :: rest) : parseInt text =
    if text ≠ [] ∧ text.all Char.isDigit then asInt (Nat.ofDigitChars 10 text 0) else none := by
  unfold parseInt
  split
  rename_i negative digits heq
  split at heq
  · exact absurd rfl (h _)
  · cases heq
    rfl

theorem parseInt_eq_some :
    parseInt text = some value ↔ IntegerText text value ∧ -2 ^ 31 ≤ value ∧ value < 2 ^ 31 := by
  have hminus : ∀ rest n, ¬DecimalText ('-' :: rest) n := by
    intro rest n h
    cases h.digits '-' List.mem_cons_self
  by_cases hsign : ∃ rest, text = '-' :: rest
  · obtain ⟨rest, rfl⟩ := hsign
    rw [parseInt_minus]
    constructor
    · intro h
      split_ifs at h with hdigits
      obtain ⟨rfl, hbounds⟩ := asInt_eq_some.mp h
      exact ⟨.negative ⟨hdigits.1, List.all_eq_true.mp hdigits.2, rfl⟩, hbounds⟩
    · rintro ⟨htext | htext, hbounds⟩
      · exact absurd htext (hminus _ _)
      · rw [if_pos ⟨htext.nonempty, List.all_eq_true.mpr htext.digits⟩, htext.value]
        exact asInt_eq_some.mpr ⟨rfl, hbounds⟩
  · rw [parseInt_plain fun rest heq => hsign ⟨rest, heq⟩]
    constructor
    · intro h
      split_ifs at h with hdigits
      obtain ⟨rfl, hbounds⟩ := asInt_eq_some.mp h
      exact ⟨.plain ⟨hdigits.1, List.all_eq_true.mp hdigits.2, rfl⟩, hbounds⟩
    · rintro ⟨htext | htext, hbounds⟩
      · rw [if_pos ⟨htext.nonempty, List.all_eq_true.mpr htext.digits⟩, htext.value]
        exact asInt_eq_some.mpr ⟨rfl, hbounds⟩
      · exact absurd ⟨_, rfl⟩ hsign

theorem parseRange_eq_some {maximum : ℤ} (hmaximum : maximum < 2 ^ 31) :
    parseRange maximum text = some value ↔ IntegerText text value ∧ 0 ≤ value ∧
      value ≤ maximum := by
  unfold parseRange
  constructor
  · intro h
    split at h
    · cases h
    · rename_i parsed hparsed
      split_ifs at h with hbounds
      cases h
      exact ⟨(parseInt_eq_some.mp hparsed).1, hbounds⟩
  · rintro ⟨htext, hbounds⟩
    rw [parseInt_eq_some.mpr ⟨htext, by omega, by omega⟩]
    exact if_pos hbounds

end Numbers

/-! ## Fields -/

/-- What a snapshot has for a field. -/
def Field.read (snapshot : ControllerSnapshot) : Field → ℤ
  | .slot => snapshot.slot
  | .seq => snapshot.sequence
  | .buttons => snapshot.buttons
  | .lx => snapshot.leftX
  | .ly => snapshot.leftY
  | .rx => snapshot.rightX
  | .ry => snapshot.rightY
  | .l2 => snapshot.leftTrigger
  | .r2 => snapshot.rightTrigger
  | .touch => if snapshot.touchDown then 1 else 0
  | .tx => snapshot.touchX
  | .ty => snapshot.touchY

/-- A field with a text it may have. -/
structure Entry where
  field : Field
  text : Bytes
  value : ℤ
  denotes : Denotes field text value

def Entry.token (entry : Entry) : Bytes := entry.field.key ++ '=' :: entry.text

section Fields

variable {field other : Field} {text : Bytes} {value : ℤ} {result snapshot : ControllerSnapshot}

theorem Field.read_injective (h : ∀ field : Field, field.read result = field.read snapshot) :
    result = snapshot := by
  have hslot := h .slot
  have hseq := h .seq
  have hbuttons := h .buttons
  have hlx := h .lx
  have hly := h .ly
  have hrx := h .rx
  have hry := h .ry
  have hl2 := h .l2
  have hr2 := h .r2
  have htouch := h .touch
  have htx := h .tx
  have hty := h .ty
  cases result
  cases snapshot
  simp only [Field.read, Int.natCast_inj] at *
  subst_vars
  simp only [ControllerSnapshot.mk.injEq, true_and, and_true]
  split_ifs at htouch <;> simp_all

theorem Field.read_store (h : Denotes field text value) :
    field.read (field.store result value) = value := by
  cases h with
  | number hseq hbuttons htext hmin hmax =>
    cases field
    case seq => exact absurd rfl hseq
    case buttons => exact absurd rfl hbuttons
    case touch =>
      have hcases : value = 0 ∨ value = 1 := by
        simp only [Field.maximum] at hmax
        omega
      rcases hcases with rfl | rfl <;> rfl
    all_goals rfl
  | seq => rfl
  | buttons => rfl
  | buttonsHex => rfl

theorem Field.read_store_of_ne (h : field ≠ other) :
    field.read (other.store result value) = field.read result := by
  cases field <;> cases other <;> first | exact absurd rfl h | rfl

theorem parseButtons_hex (text : Bytes) : parseButtons ('0' :: 'x' :: text) = parseHex text :=
  if_pos ⟨text, rfl⟩

theorem parseButtons_plain (h : ∀ rest, text ≠ '0' :: 'x' :: rest) :
    parseButtons text = parseUnsigned text := by
  refine if_neg ?_
  rintro ⟨rest, hrest⟩
  exact h rest hrest.symm

theorem parseButtons_eq_some {n : ℕ} : parseButtons text = some n ↔ Denotes .buttons text n := by
  by_cases hhex : ∃ rest, text = '0' :: 'x' :: rest
  · obtain ⟨rest, rfl⟩ := hhex
    rw [parseButtons_hex, parseHex_eq_some]
    constructor
    · rintro ⟨htext, hmax⟩
      exact .buttonsHex htext hmax
    · generalize hvalue : (n : ℤ) = value
      rintro (⟨-, hbuttons⟩ | ⟨htext, hmax⟩ | ⟨htext, hmax⟩ | ⟨htext, hmax⟩)
      · exact absurd rfl hbuttons
      · cases htext.digits 'x' (by simp)
      · obtain rfl := Int.ofNat_inj.mp hvalue
        exact ⟨htext, hmax⟩
  · rw [parseButtons_plain fun rest heq => hhex ⟨rest, heq⟩, parseUnsigned_eq_some]
    constructor
    · rintro ⟨htext, hmax⟩
      exact .buttons htext hmax
    · generalize hvalue : (n : ℤ) = value
      rintro (⟨-, hbuttons⟩ | ⟨htext, hmax⟩ | ⟨htext, hmax⟩ | ⟨htext, hmax⟩)
      · exact absurd rfl hbuttons
      · obtain rfl := Int.ofNat_inj.mp hvalue
        exact ⟨htext, hmax⟩
      · exact absurd ⟨_, rfl⟩ hhex

theorem setField_number (hseq : field ≠ .seq) (hbuttons : field ≠ .buttons) :
    setField result text field = (parseRange field.maximum text).map (field.store result) := by
  cases field
  case seq => exact absurd rfl hseq
  case buttons => exact absurd rfl hbuttons
  all_goals rfl

theorem denotes_number (hseq : field ≠ .seq) (hbuttons : field ≠ .buttons) :
    parseRange field.maximum text = some value ↔ Denotes field text value := by
  have hmaximum : field.maximum < 2 ^ 31 := by
    cases field
    case seq => exact absurd rfl hseq
    case buttons => exact absurd rfl hbuttons
    all_goals decide
  rw [parseRange_eq_some hmaximum]
  constructor
  · rintro ⟨htext, hmin, hmax⟩
    exact .number hseq hbuttons htext hmin hmax
  · rintro (⟨-, -, htext, hmin, hmax⟩ | _ | _ | _)
    · exact ⟨htext, hmin, hmax⟩
    · exact absurd rfl hseq
    · exact absurd rfl hbuttons
    · exact absurd rfl hbuttons

/-- The parser of a field takes the texts the field may have, and stores the value. -/
theorem setField_eq_some : setField result text field = some snapshot ↔
      ∃ value, Denotes field text value ∧ field.store result value = snapshot := by
  by_cases hseq : field = .seq
  · subst hseq
    simp only [setField, Option.map_eq_some_iff, parseUnsigned_eq_some]
    constructor
    · rintro ⟨n, ⟨htext, hmax⟩, rfl⟩
      exact ⟨n, .seq htext hmax, rfl⟩
    · rintro ⟨value, hvalue | ⟨htext, hmax⟩, rfl⟩
      · contradiction
      · exact ⟨_, ⟨htext, hmax⟩, rfl⟩
  · by_cases hbuttons : field = .buttons
    · subst hbuttons
      simp only [setField, Option.map_eq_some_iff, parseButtons_eq_some]
      constructor
      · rintro ⟨n, hvalue, rfl⟩
        exact ⟨n, hvalue, rfl⟩
      · rintro ⟨value, hvalue, rfl⟩
        obtain ⟨n, rfl⟩ : ∃ n : ℕ, value = n := by
          cases hvalue
          · contradiction
          · exact ⟨_, rfl⟩
          · exact ⟨_, rfl⟩
        exact ⟨n, hvalue, rfl⟩
    · rw [setField_number hseq hbuttons]
      simp only [Option.map_eq_some_iff, denotes_number hseq hbuttons]

end Fields

/-! ## Tokens -/

variable {key token line : Bytes} {tokens : List Bytes} {seen : List Field} {c : Char}

theorem splitToken_cut (hkey : '=' ∉ key) (value : Bytes) :
    splitToken (key ++ '=' :: value) = if key = [] ∨ value = [] then none
      else some (key, value) := by
  have hkeep : ∀ c ∈ key, decide (c ≠ '=') = true := by
    intro c hc
    exact decide_eq_true fun heq => hkey (heq ▸ hc)
  have hdrop : (key ++ '=' :: value).dropWhile (fun c => decide (c ≠ '=')) = '=' :: value := by
    rw [List.dropWhile_append_of_pos hkeep]
    simp
  have htake : (key ++ '=' :: value).takeWhile (fun c => decide (c ≠ '=')) = key := by
    rw [List.takeWhile_append_of_pos hkeep]
    simp
  unfold splitToken
  rw [hdrop]
  simp only [htake]

theorem splitToken_whole (h : '=' ∉ token) : splitToken token = none := by
  have hdrop : token.dropWhile (fun c => decide (c ≠ '=')) = [] := by
    refine List.dropWhile_eq_nil_iff.mpr fun c hc => ?_
    exact decide_eq_true fun heq => h (heq ▸ hc)
  unfold splitToken
  rw [hdrop]

theorem splitToken_eq_some {value : Bytes} :
    splitToken token = some (key, value) ↔ token = key ++ '=' :: value ∧ '=' ∉ key ∧ key ≠ [] ∧
      value ≠ [] := by
  constructor
  · intro h
    by_cases hmem : '=' ∈ token
    · obtain ⟨key', value', rfl, hkey⟩ := List.eq_append_cons_of_mem hmem
      rw [splitToken_cut hkey] at h
      split_ifs at h with hempty
      cases h
      rw [not_or] at hempty
      exact ⟨rfl, hkey, hempty⟩
    · rw [splitToken_whole hmem] at h
      cases h
  · rintro ⟨rfl, hkey, hne, hvalue⟩
    rw [splitToken_cut hkey, if_neg (by simp [hne, hvalue])]

theorem ofKey_eq_some {field : Field} : Field.ofKey key = some field ↔ key = field.key := by
  constructor
  · intro h
    have hkey := List.find?_some h
    exact (of_decide_eq_true hkey).symm
  · rintro rfl
    exact ofKey_key field

theorem Denotes.text_ne_nil {field : Field} {text : Bytes} {value : ℤ}
    (h : Denotes field text value) : text ≠ [] := by
  cases h with
  | number hseq hbuttons htext hmin hmax =>
    cases htext with
    | plain h => exact h.nonempty
    | negative h => exact List.cons_ne_nil _ _
  | seq htext hmax => exact htext.nonempty
  | buttons htext hmax => exact htext.nonempty
  | buttonsHex htext hmax => exact List.cons_ne_nil _ _

theorem splitToken_entry (entry : Entry) :
    splitToken entry.token = some (entry.field.key, entry.text) := by
  have hkey : '=' ∉ entry.field.key ∧ entry.field.key ≠ [] := by cases entry.field <;> decide
  exact splitToken_eq_some.mpr ⟨rfl, hkey.1, hkey.2, entry.denotes.text_ne_nil⟩

/-- The loop takes the tokens of entries with different fields, which it had not seen before. -/
theorem parseTokens_eq_some {result snapshot : ControllerSnapshot} {seen' : List Field} :
    parseTokens result seen tokens = some (snapshot, seen') ↔
      ∃ entries : List Entry, tokens = entries.map Entry.token ∧
        (entries.map Entry.field).Nodup ∧ (∀ entry ∈ entries, entry.field ∉ seen) ∧
        snapshot = entries.foldl (fun result entry => entry.field.store result entry.value) result ∧
        seen' = (entries.map Entry.field).reverse ++ seen := by
  induction tokens generalizing result seen with
  | nil =>
    rw [parseTokens]
    constructor
    · intro h
      cases h
      exact ⟨[], rfl, List.nodup_nil, by simp, rfl, rfl⟩
    · rintro ⟨entries, hnil, -, -, rfl, rfl⟩
      obtain rfl := List.map_eq_nil_iff.mp hnil.symm
      rfl
  | cons token rest ih =>
    constructor
    · intro h
      rw [parseTokens] at h
      cases hsplit : splitToken token with
      | none => simp [hsplit] at h
      | some pair =>
        obtain ⟨key, text⟩ := pair
        simp only [hsplit] at h
        cases hfield : Field.ofKey key with
        | none => simp [hfield] at h
        | some field =>
          simp only [hfield] at h
          cases hset : setField result text field with
          | none => simp [hset] at h
          | some next =>
            simp only [hset] at h
            split_ifs at h with hseen
            obtain ⟨entries, rfl, hnodup, hnew, rfl, rfl⟩ := ih.mp h
            obtain ⟨value, hvalue, rfl⟩ := setField_eq_some.mp hset
            obtain ⟨rfl, -⟩ := splitToken_eq_some.mp hsplit
            obtain rfl := ofKey_eq_some.mp hfield
            refine ⟨⟨field, text, value, hvalue⟩ :: entries, rfl, ?_, ?_, rfl, ?_⟩
            · refine List.nodup_cons.mpr ⟨?_, hnodup⟩
              intro hmem
              obtain ⟨entry, hentry, heq⟩ := List.mem_map.mp hmem
              exact hnew entry hentry (heq ▸ List.mem_cons_self)
            · refine List.forall_mem_cons.mpr ⟨hseen, fun entry hentry hmem => ?_⟩
              exact hnew entry hentry (List.mem_cons_of_mem _ hmem)
            · simp
    · rintro ⟨entries, htokens, hnodup, hnew, rfl, rfl⟩
      obtain ⟨entry, entries, rfl, rfl, rfl⟩ := List.map_eq_cons_iff.mp htokens.symm
      obtain ⟨hfirst, hnodup⟩ := List.nodup_cons.mp hnodup
      obtain ⟨hseen, hnew⟩ := List.forall_mem_cons.mp hnew
      have hset : setField result entry.text entry.field =
        some (entry.field.store result entry.value) :=
        setField_eq_some.mpr ⟨entry.value, entry.denotes, rfl⟩
      rw [parseTokens, splitToken_entry]
      simp only [ofKey_key, hset, if_neg hseen]
      refine ih.mpr ⟨entries, rfl, hnodup, fun other hother hmem => ?_, rfl, by simp⟩
      rcases List.mem_cons.mp hmem with heq | hmem
      · exact hfirst (List.mem_map.mpr ⟨other, hother, heq⟩)
      · exact hnew other hother hmem

/-! ## Lines -/

/-- The line of these tokens. -/
def lineOf (tokens : List Bytes) : Bytes := framePrefix ++ List.intercalate [' '] tokens ++ ['\n']

/-- The line gives every field but the slot exactly once and the slot at most once, and the snapshot
has the values that it gives. -/
structure Describes (entries : List Entry) (line : Bytes) (snapshot : ControllerSnapshot) :
    Prop where
  line_eq : line = lineOf (entries.map Entry.token)
  nodup : (entries.map Entry.field).Nodup
  present : ∀ field : Field, field ≠ .slot → field ∈ entries.map Entry.field
  values : ∀ entry ∈ entries, entry.field.read snapshot = entry.value
  slot : .slot ∉ entries.map Entry.field → snapshot.slot = 0

instance : Fintype Field where
  elems := {.slot, .seq, .buttons, .lx, .ly, .rx, .ry, .l2, .r2, .touch, .tx, .ty}
  complete field := by cases field <;> decide

theorem complete_iff (hnodup : seen.Nodup) :
    complete seen = true ↔ ∀ field : Field, field ≠ .slot → field ∈ seen := by
  have hcard : seen.toFinset.card = seen.length := List.toFinset_card_of_nodup hnodup
  have hothers : (Finset.univ.erase Field.slot).card = 11 := rfl
  rw [complete, decide_eq_true_eq]
  constructor
  · intro hcount field hslot
    by_contra hmissing
    have hsub : seen.toFinset ⊆ Finset.univ.erase field := by
      intro other hother
      refine Finset.mem_erase.mpr ⟨?_, Finset.mem_univ _⟩
      rintro rfl
      exact hmissing (List.mem_toFinset.mp hother)
    have hall := Finset.card_le_card hsub
    rw [Finset.card_erase_of_mem (Finset.mem_univ _), hcard] at hall
    have htwelve : (Finset.univ : Finset Field).card = 12 := rfl
    rcases hcount with hcount | ⟨hcount, hslot'⟩
    · omega
    · have hsub' : seen.toFinset ⊆ (Finset.univ.erase Field.slot).erase field := by
        intro other hother
        refine Finset.mem_erase.mpr ⟨(Finset.mem_erase.mp (hsub hother)).1,
          Finset.mem_erase.mpr ⟨?_, Finset.mem_univ _⟩⟩
        rintro rfl
        exact hslot' (List.mem_toFinset.mp hother)
      have hfew := Finset.card_le_card hsub'
      rw [Finset.card_erase_of_mem (Finset.mem_erase.mpr ⟨hslot, Finset.mem_univ _⟩), hcard] at hfew
      omega
  · intro hall
    by_cases hslot : Field.slot ∈ seen
    · have huniv : seen.toFinset = Finset.univ := by
        refine Finset.eq_univ_of_forall fun field => List.mem_toFinset.mpr ?_
        by_cases heq : field = .slot
        · exact heq ▸ hslot
        · exact hall field heq
      rw [huniv] at hcard
      exact .inl hcard.symm
    · have hrest : seen.toFinset = Finset.univ.erase .slot := by
        ext field
        rw [List.mem_toFinset, Finset.mem_erase]
        exact ⟨fun hmem => ⟨fun heq => hslot (heq ▸ hmem), Finset.mem_univ _⟩,
          fun h => hall field h.1⟩
      rw [hrest] at hcard
      exact .inr ⟨by omega, hslot⟩

/-- After the entries are stored, a snapshot has their values and the rest is as before. -/
theorem read_foldl_store {entries : List Entry} (hnodup : (entries.map Entry.field).Nodup)
    (result : ControllerSnapshot) :
    (∀ entry ∈ entries, entry.field.read
        (entries.foldl (fun result entry => entry.field.store result entry.value) result) =
          entry.value) ∧
      ∀ field ∉ entries.map Entry.field, field.read
        (entries.foldl (fun result entry => entry.field.store result entry.value) result) =
          field.read result := by
  induction entries generalizing result with
  | nil => exact ⟨nofun, fun _ _ => rfl⟩
  | cons entry entries ih =>
    obtain ⟨hfirst, hnodup⟩ := List.nodup_cons.mp hnodup
    obtain ⟨hvalues, hothers⟩ := ih hnodup (entry.field.store result entry.value)
    refine ⟨List.forall_mem_cons.mpr ⟨?_, hvalues⟩, fun field hfield => ?_⟩
    · exact (hothers entry.field hfirst).trans (Field.read_store entry.denotes)
    · rw [List.map_cons, List.mem_cons, not_or] at hfield
      exact (hothers field hfield.2).trans (Field.read_store_of_ne hfield.1)

theorem DecimalText.notin {text : Bytes} {n : ℕ} (h : DecimalText text n) (hc : c.isDigit = false) :
    c ∉ text := by
  intro hmem
  rw [h.digits c hmem] at hc
  cases hc

theorem HexText.notin {text : Bytes} {n : ℕ} (h : HexText text n) (hc : c.toNat < 48) :
    c ∉ text := by
  obtain ⟨-, digits, hdigits, -⟩ := h
  clear n
  induction hdigits with
  | nil => exact List.not_mem_nil
  | cons hdigit _ ih =>
    rw [List.mem_cons, not_or]
    refine ⟨?_, ih⟩
    rintro rfl
    unfold HexDigit at hdigit
    omega

theorem Denotes.space_notin {field : Field} {text : Bytes} {value : ℤ}
    (h : Denotes field text value) : ' ' ∉ text := by
  cases h with
  | number hseq hbuttons htext hmin hmax =>
    cases htext with
    | plain h => exact h.notin rfl
    | negative h => exact List.not_mem_cons_of_ne_of_not_mem (by decide) (h.notin rfl)
  | seq htext hmax => exact htext.notin rfl
  | buttons htext hmax => exact htext.notin rfl
  | buttonsHex htext hmax =>
    exact List.not_mem_cons_of_ne_of_not_mem (by decide)
      (List.not_mem_cons_of_ne_of_not_mem (by decide) (htext.notin (by decide)))

theorem space_notin_token (entry : Entry) : ' ' ∉ entry.token := by
  have hkey : ' ' ∉ entry.field.key := by cases entry.field <;> decide
  rw [Entry.token, List.mem_append, List.mem_cons]
  rintro (h | h | h)
  · exact hkey h
  · cases h
  · exact entry.denotes.space_notin h

/-- The tokens between the single spaces of a text. -/
def tokensOf (body : Bytes) : List Bytes := if body = [] then [] else body.splitOn ' '

theorem intercalate_tokensOf (body : Bytes) : List.intercalate [' '] (tokensOf body) = body := by
  unfold tokensOf
  split_ifs with hempty
  · rw [hempty]
    rfl
  · exact List.intercalate_splitOn ' '

theorem tokensOf_intercalate (hspace : ∀ token ∈ tokens, ' ' ∉ token)
    (hne : tokens ≠ [[]]) : tokensOf (List.intercalate [' '] tokens) = tokens := by
  match tokens with
  | [] => rfl
  | [token] =>
    rw [List.intercalate_singleton, tokensOf, if_neg fun h => hne (by rw [h])]
    simpa using List.splitOn_intercalate ' ' hspace (List.cons_ne_nil _ _)
  | token :: next :: rest =>
    have hbody : List.intercalate [' '] (token :: next :: rest) ≠ [] := by
      rw [List.intercalate_cons_cons]
      simp
    rw [tokensOf, if_neg hbody]
    exact List.splitOn_intercalate ' ' hspace (List.cons_ne_nil _ _)

theorem tokensOf_entries (entries : List Entry) :
    tokensOf (List.intercalate [' '] (entries.map Entry.token)) = entries.map Entry.token := by
  refine tokensOf_intercalate (fun token htoken => ?_) fun heq => ?_
  · obtain ⟨entry, -, rfl⟩ := List.mem_map.mp htoken
    exact space_notin_token entry
  · obtain ⟨entry, -, htoken⟩ :=
      List.mem_map.mp (heq ▸ List.mem_cons_self : [] ∈ entries.map Entry.token)
    exact absurd (List.append_eq_nil_iff.mp htoken).2 (List.cons_ne_nil _ _)

theorem framed_iff : framePrefix <+: line ∧ line.getLast? = some '\n' ↔
      line = framePrefix ++ (line.drop framePrefix.length).dropLast ++ ['\n'] := by
  constructor
  · rintro ⟨⟨rest, rfl⟩, hlast⟩
    rw [List.drop_left, List.append_assoc]
    have hne : rest ≠ [] := by
      rintro rfl
      rw [List.append_nil] at hlast
      cases hlast
    rw [List.getLast?_append_of_ne_nil _ hne, List.getLast?_eq_some_getLast hne,
      Option.some.injEq] at hlast
    rw [← hlast, List.dropLast_append_getLast]
  · intro h
    rw [h]
    exact ⟨⟨_, (List.append_assoc ..).symm⟩, List.getLast?_concat⟩

theorem parseControllerSnapshot_body (body : Bytes) :
    parseControllerSnapshot (framePrefix ++ body ++ ['\n']) =
      (parseTokens {} [] (tokensOf body)).bind fun parsed => if complete parsed.2 then some parsed.1
        else none := by
  have hbody : ((framePrefix ++ body ++ ['\n']).drop framePrefix.length).dropLast = body := by
    rw [List.append_assoc, List.drop_left, List.dropLast_concat]
  rw [parseControllerSnapshot, if_pos ⟨⟨_, (List.append_assoc ..).symm⟩, List.getLast?_concat⟩]
  dsimp only
  rw [hbody, tokensOf]

/-- The parser takes the lines of the grammar, with the values they give. -/
theorem parseControllerSnapshot_eq_some {snapshot : ControllerSnapshot} :
    parseControllerSnapshot line = some snapshot ↔ ∃ entries, Describes entries line snapshot := by
  constructor
  · intro h
    have hframed : framePrefix <+: line ∧ line.getLast? = some '\n' := by
      by_contra hother
      rw [parseControllerSnapshot, if_neg hother] at h
      cases h
    have hline := framed_iff.mp hframed
    generalize (line.drop framePrefix.length).dropLast = body at hline
    subst hline
    rw [parseControllerSnapshot_body, Option.bind_eq_some_iff] at h
    obtain ⟨⟨parsed, seen⟩, hparse, hcomplete⟩ := h
    obtain ⟨entries, htokens, hnodup, -, rfl, rfl⟩ := parseTokens_eq_some.mp hparse
    rw [List.append_nil] at hcomplete
    split_ifs at hcomplete with hall
    cases hcomplete
    have hpresent := (complete_iff (List.nodup_reverse.mpr hnodup)).mp hall
    obtain ⟨hvalues, hothers⟩ := read_foldl_store hnodup {}
    refine ⟨entries, ?_, hnodup, fun field hfield => List.mem_reverse.mp (hpresent field hfield),
      hvalues, hothers .slot⟩
    rw [lineOf, ← htokens, intercalate_tokensOf]
  · rintro ⟨entries, rfl, hnodup, hpresent, hvalues, hslot⟩
    obtain ⟨hstored, hothers⟩ := read_foldl_store hnodup {}
    have hparse : parseTokens {} [] (entries.map Entry.token) = some (snapshot,
      (entries.map Entry.field).reverse ++ []) := by
      refine parseTokens_eq_some.mpr ⟨entries, rfl, hnodup, fun _ _ => List.not_mem_nil, ?_, rfl⟩
      refine Field.read_injective fun field => ?_
      by_cases hfield : field ∈ entries.map Entry.field
      · obtain ⟨entry, hentry, rfl⟩ := List.mem_map.mp hfield
        rw [hvalues entry hentry, hstored entry hentry]
      · obtain rfl : field = .slot := by
          by_contra hother
          exact hfield (hpresent field hother)
        exact (hslot hfield).trans (hothers _ hfield).symm
    rw [lineOf, parseControllerSnapshot_body, tokensOf_entries, hparse, Option.bind_some,
      List.append_nil]
    refine if_pos ?_
    exact (complete_iff (List.nodup_reverse.mpr hnodup)).mpr fun field hfield =>
      List.mem_reverse.mpr (hpresent field hfield)

end PS4Droid.Input
