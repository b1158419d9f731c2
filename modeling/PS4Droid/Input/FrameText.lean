import PS4Droid.Input.ControllerLink

/-!
# The text of a frame

`ParseControllerSnapshot` gets back the numbers that the encoder wrote.
-/

namespace PS4Droid.Input

/-! ## Numbers -/

section Numbers

theorem toText_natCast (n : ℕ) : toText n = Nat.toDigits 10 n := by
  rw [toText, if_neg (by omega), Int.natAbs_natCast]

theorem all_isDigit_toDigits (n : ℕ) : (Nat.toDigits 10 n).all Char.isDigit = true := by
  refine List.all_eq_true.mpr fun c hc => ?_
  exact Nat.isDigit_of_mem_toDigits (by omega) (by omega) hc

variable {value : ℤ}

theorem parseUnsigned_toText (h : 0 ≤ value ∧ value < 2 ^ 64) :
    parseUnsigned (toText value) = some value.toNat := by
  obtain ⟨n, rfl⟩ := Int.eq_ofNat_of_zero_le h.1
  have hlt : n < 2 ^ 64 := by omega
  rw [toText_natCast, parseUnsigned, if_pos ⟨Nat.toDigits_ne_nil, all_isDigit_toDigits n⟩]
  simp only [Nat.ofDigitChars_ten_toDigits, if_pos hlt, Int.toNat_natCast]

theorem parseInt_toText {n : ℕ} (h : n < 2 ^ 31) : parseInt (toText n) = some (n : ℤ) := by
  have hdigits := all_isDigit_toDigits n
  have hvalue : Nat.ofDigitChars 10 (Nat.toDigits 10 n) 0 = n := Nat.ofDigitChars_ten_toDigits
  rw [toText_natCast]
  unfold parseInt
  split
  rename_i negative digits heq
  split at heq
  · rename_i rest hminus
    rw [hminus] at hdigits
    simp at hdigits
  · cases heq
    rw [if_pos ⟨Nat.toDigits_ne_nil, hdigits⟩, hvalue]
    simp only [Bool.false_eq_true, if_false]
    rw [if_pos ⟨by omega, by omega⟩]

theorem parseRange_toText {maximum : ℤ} (h : 0 ≤ value ∧ value ≤ maximum)
    (hmaximum : maximum < 2 ^ 31) : parseRange maximum (toText value) = some value := by
  obtain ⟨n, rfl⟩ := Int.eq_ofNat_of_zero_le h.1
  rw [parseRange, parseInt_toText (by omega)]
  simp only [if_pos h]

theorem parseButtons_toText (h : 0 ≤ value ∧ value < 2 ^ 63) :
    parseButtons (toText value) = some value.toNat := by
  obtain ⟨n, rfl⟩ := Int.eq_ofNat_of_zero_le h.1
  rw [parseButtons, if_neg, parseUnsigned_toText ⟨by omega, by omega⟩]
  rintro ⟨rest, hrest⟩
  have hdigits := all_isDigit_toDigits n
  rw [← toText_natCast, ← hrest] at hdigits
  simp at hdigits

theorem parseUnsigned_toText_of_neg (h : value < 0) : parseUnsigned (toText value) = none := by
  rw [parseUnsigned, if_neg]
  rintro ⟨-, hdigits⟩
  rw [toText, if_pos h] at hdigits
  simp at hdigits

/-- The characters of a number: no space, no `=` and no end of line. -/
theorem notin_toText (value : ℤ) {c : Char} (hc : c.isDigit = false) (hminus : c ≠ '-') :
    c ∉ toText value := by
  have hdigits : c ∉ Nat.toDigits 10 value.natAbs := by
    intro hmem
    rw [Nat.isDigit_of_mem_toDigits (by omega) (by omega) hmem] at hc
    cases hc
  unfold toText
  split
  · exact fun hmem => (List.mem_cons.mp hmem).elim hminus hdigits
  · exact hdigits

theorem toText_ne_nil (value : ℤ) : toText value ≠ [] := by
  unfold toText
  split
  · exact List.cons_ne_nil _ _
  · exact Nat.toDigits_ne_nil

theorem length_toText_le (h : value.natAbs < 10 ^ 20) : (toText value).length ≤ 21 := by
  have hdigits : (Nat.toDigits 10 value.natAbs).length ≤ 20 :=
    (Nat.length_toDigits_le_iff (by omega) (by omega)).mpr h
  unfold toText
  split
  · rw [List.length_cons]
    omega
  · omega

end Numbers

/-! ## Tokens -/

section Tokens

theorem splitToken_token (field : Field) (value : ℤ) :
    splitToken (token field value) = some (field.key, toText value) := by
  have hkey : ∀ c ∈ field.key, decide (c ≠ '=') = true := by
    cases field <;> simp [Field.key]
  have hdrop : (token field value).dropWhile (fun c => decide (c ≠ '=')) = '=' :: toText value := by
    rw [token, List.dropWhile_append_of_pos hkey]
    simp
  have htake : (token field value).takeWhile (fun c => decide (c ≠ '=')) = field.key := by
    rw [token, List.takeWhile_append_of_pos hkey]
    simp
  have hne : field.key ≠ [] := by cases field <;> decide
  unfold splitToken
  rw [hdrop]
  simp only [htake, hne, toText_ne_nil, or_self, if_false]

theorem ofKey_key (field : Field) : Field.ofKey field.key = some field := by
  cases field <;> decide

/-- A largest value of each field that the parser takes. -/
def Field.maximum : Field → ℤ
  | .slot => 3
  | .seq => 2 ^ 64 - 1
  | .buttons => 2 ^ 63 - 1
  | .touch => 1
  | .tx => 1919
  | .ty => 1079
  | _ => 255

/-- The snapshot with a new value of a field. -/
def Field.store (result : ControllerSnapshot) (value : ℤ) : Field → ControllerSnapshot
  | .slot => { result with slot := value }
  | .seq => { result with sequence := value.toNat }
  | .buttons => { result with buttons := value.toNat }
  | .lx => { result with leftX := value }
  | .ly => { result with leftY := value }
  | .rx => { result with rightX := value }
  | .ry => { result with rightY := value }
  | .l2 => { result with leftTrigger := value }
  | .r2 => { result with rightTrigger := value }
  | .touch => { result with touchDown := value = 1 }
  | .tx => { result with touchX := value }
  | .ty => { result with touchY := value }

variable {result : ControllerSnapshot} {field : Field} {value : ℤ}

theorem setField_toText (h : 0 ≤ value ∧ value ≤ field.maximum) :
    setField result (toText value) field = some (field.store result value) := by
  cases field <;> simp only [Field.maximum] at h
  case seq =>
    rw [setField, parseUnsigned_toText ⟨h.1, by omega⟩]
    rfl
  case buttons =>
    rw [setField, parseButtons_toText ⟨h.1, by omega⟩]
    rfl
  all_goals
    rw [setField, parseRange_toText h (by norm_num)]
    rfl

theorem parseTokens_map {entries : List (Field × ℤ)} {seen : List Field}
    (hmaximum : ∀ entry ∈ entries, 0 ≤ entry.2 ∧ entry.2 ≤ entry.1.maximum)
    (hnodup : ((entries.map Prod.fst).reverse ++ seen).Nodup) :
    parseTokens result seen (entries.map fun entry => token entry.1 entry.2) =
      some (entries.foldl (fun result entry => entry.1.store result entry.2) result,
        (entries.map Prod.fst).reverse ++ seen) := by
  induction entries generalizing result seen with
  | nil => rfl
  | cons entry rest ih =>
    obtain ⟨field, value⟩ := entry
    have hentry := hmaximum (field, value) List.mem_cons_self
    have hrest : ∀ entry ∈ rest, 0 ≤ entry.2 ∧ entry.2 ≤ entry.1.maximum :=
      fun entry hmem => hmaximum entry (List.mem_cons_of_mem _ hmem)
    simp only [List.map_cons, List.reverse_cons, List.append_assoc,
      List.singleton_append] at hnodup ⊢
    have hseen : field ∉ seen := (List.nodup_cons.mp (List.nodup_append.mp hnodup).2.1).1
    rw [parseTokens, splitToken_token]
    simp only [ofKey_key, setField_toText hentry, if_neg hseen]
    rw [ih hrest hnodup, List.foldl_cons]

theorem notin_token {c : Char} (hkey : c ∉ field.key) (heq : c ≠ '=')
    (hc : c.isDigit = false) (hminus : c ≠ '-') : c ∉ token field value := by
  rw [token, List.mem_append, List.mem_cons]
  rintro (h | h | h)
  · exact hkey h
  · exact heq h
  · exact notin_toText value hc hminus h

theorem length_token_le (h : value.natAbs < 10 ^ 20) :
    (token field value).length ≤ 29 := by
  have hkey : field.key.length ≤ 7 := by cases field <;> decide
  have htext := length_toText_le h
  rw [token, List.length_append, List.length_cons]
  omega

end Tokens

/-! ## Frames -/

section Frames

/-- The bounds of the numbers of a frame. -/
structure Quantised.InRange (numbers : Quantised) : Prop where
  buttons : 0 ≤ numbers.buttons ∧ numbers.buttons < 2 ^ 63
  leftX : 0 ≤ numbers.leftX ∧ numbers.leftX ≤ 255
  leftY : 0 ≤ numbers.leftY ∧ numbers.leftY ≤ 255
  rightX : 0 ≤ numbers.rightX ∧ numbers.rightX ≤ 255
  rightY : 0 ≤ numbers.rightY ∧ numbers.rightY ≤ 255
  leftTrigger : 0 ≤ numbers.leftTrigger ∧ numbers.leftTrigger ≤ 255
  rightTrigger : 0 ≤ numbers.rightTrigger ∧ numbers.rightTrigger ≤ 255
  touchX : 0 ≤ numbers.touchX ∧ numbers.touchX ≤ 1919
  touchY : 0 ≤ numbers.touchY ∧ numbers.touchY ≤ 1079

/-- The native snapshot with these numbers. -/
def Quantised.native (numbers : Quantised) (slot : ℤ) (sequence : ℕ) : ControllerSnapshot where
  slot := slot
  sequence := sequence
  buttons := numbers.buttons.toNat
  leftX := numbers.leftX
  leftY := numbers.leftY
  rightX := numbers.rightX
  rightY := numbers.rightY
  leftTrigger := numbers.leftTrigger
  rightTrigger := numbers.rightTrigger
  touchDown := numbers.touchDown
  touchX := numbers.touchX
  touchY := numbers.touchY

theorem coerceIn_bounds {value minimum maximum : ℤ} (h : minimum ≤ maximum) :
    minimum ≤ coerceIn value minimum maximum ∧ coerceIn value minimum maximum ≤ maximum := by
  unfold coerceIn
  omega

variable {F : Type} {format : FloatFormat F} {value : F} {byte slot sequence : ℤ}
  {numbers : Quantised} {c : Char} {texts : List Bytes}

theorem stickByte_bounds (h : stickByte format value = some byte) :
    0 ≤ byte ∧ byte ≤ 255 := by
  obtain ⟨x, hx, rfl⟩ := Option.map_eq_some_iff.mp h
  exact coerceIn_bounds (by omega)

theorem triggerByte_bounds (h : triggerByte format value = some byte) :
    0 ≤ byte ∧ byte ≤ 255 := by
  obtain ⟨x, hx, rfl⟩ := Option.map_eq_some_iff.mp h
  exact coerceIn_bounds (by omega)

theorem roundToInt_natCast (n : ℕ) : roundToInt n = n := by
  rw [roundToInt, Int.floor_eq_iff]
  constructor
  · push_cast
    linarith
  · push_cast
    linarith

theorem roundToInt_mono {a b : ℚ} (h : a ≤ b) : roundToInt a ≤ roundToInt b :=
  Int.floor_le_floor (by linarith)

/-- A position within the touch pad stays there when it is rounded. -/
theorem touchCoordinate_bounds {maximum : ℕ} {coordinate : ℤ}
    (hvalue : ∀ x ∈ format.value value, 0 ≤ x ∧ x ≤ 1) (hmaximum : maximum ≤ 2 ^ 24)
    (h : touchCoordinate format value maximum = some coordinate) :
    0 ≤ coordinate ∧ coordinate ≤ maximum := by
  obtain ⟨x, hx, rfl⟩ := Option.map_eq_some_iff.mp h
  obtain ⟨hzero, hone⟩ := hvalue x hx
  have hpos : (0 : ℚ) ≤ maximum := Nat.cast_nonneg maximum
  have hlower : ((0 : ℕ) : ℚ) ≤ x * maximum := by
    rw [Nat.cast_zero]
    exact mul_nonneg hzero hpos
  have hupper : x * maximum ≤ maximum := mul_le_of_le_one_left hpos hone
  have hlower := format.round_mono _ _ hlower
  have hupper := format.round_mono _ _ hupper
  rw [format.round_int _ (by omega)] at hlower hupper
  have hlower := roundToInt_mono hlower
  have hupper := roundToInt_mono hupper
  rw [roundToInt_natCast] at hlower hupper
  exact ⟨hlower, hupper⟩

theorem quantise_inRange {snapshot : Snapshot F format}
    (hbuttons : 0 ≤ snapshot.buttons) (h : quantise snapshot = some numbers) : numbers.InRange := by
  simp only [quantise, Option.bind_eq_bind, Option.bind_eq_some_iff, Option.pure_def,
    Option.some.injEq] at h
  obtain ⟨leftX, hlx, leftY, hly, rightX, hrx, rightY, hry, leftTrigger, hl2, rightTrigger, hr2,
    touchX, htx, touchY, hty, rfl⟩ := h
  exact {
    buttons := ⟨hbuttons, snapshot.buttons_mem.2⟩
    leftX := stickByte_bounds hlx
    leftY := stickByte_bounds hly
    rightX := stickByte_bounds hrx
    rightY := stickByte_bounds hry
    leftTrigger := triggerByte_bounds hl2
    rightTrigger := triggerByte_bounds hr2
    touchX := touchCoordinate_bounds snapshot.touchX_mem (by norm_num) htx
    touchY := touchCoordinate_bounds snapshot.touchY_mem (by norm_num) hty }

theorem fields_maximum (hslot : 0 ≤ slot ∧ slot ≤ 3)
    (hsequence : 0 ≤ sequence ∧ sequence < 2 ^ 64) (hrange : numbers.InRange) :
    ∀ entry ∈ fields slot sequence numbers, 0 ≤ entry.2 ∧ entry.2 ≤ entry.1.maximum := by
  have htouch : (0 : ℤ) ≤ (if numbers.touchDown then 1 else 0) ∧
      (if numbers.touchDown then 1 else 0) ≤ (1 : ℤ) := by
    split <;> omega
  simp only [fields, List.forall_mem_cons, Field.maximum]
  refine ⟨hslot, ⟨hsequence.1, by omega⟩, ⟨hrange.buttons.1, ?_⟩, hrange.leftX, hrange.leftY,
    hrange.rightX, hrange.rightY, hrange.leftTrigger, hrange.rightTrigger, htouch, hrange.touchX,
    hrange.touchY, by simp⟩
  have hbuttons := hrange.buttons.2
  omega

theorem fields_natAbs_lt (hslot : 0 ≤ slot ∧ slot ≤ 3)
    (hsequence : sequence.natAbs < 2 ^ 64) (hrange : numbers.InRange) :
    ∀ entry ∈ fields slot sequence numbers, entry.2.natAbs < 10 ^ 20 := by
  intro entry hentry
  by_cases hseq : entry = (.seq, sequence)
  · subst hseq
    dsimp only
    omega
  · have hother : entry ∈ fields slot 0 numbers := by
      simp only [fields, List.mem_cons, hseq, false_or] at hentry ⊢
      exact hentry.imp_right Or.inr
    have hmaximum : entry.1.maximum < 2 ^ 64 := by cases entry.1 <;> decide
    have hbounds := fields_maximum hslot ⟨le_refl 0, by norm_num⟩ hrange entry hother
    omega

theorem foldl_store_fields (slot sequence : ℤ) (numbers : Quantised) :
    (fields slot sequence numbers).foldl (fun result entry => entry.1.store result entry.2) {} =
      numbers.native slot sequence.toNat := by
  cases htouch : numbers.touchDown <;> simp [fields, Field.store, Quantised.native, htouch]

/-- The line of a frame, without its end. -/
def frameLine (slot sequence : ℤ) (numbers : Quantised) : Bytes :=
  framePrefix ++ List.intercalate [' '] (tokens slot sequence numbers)

theorem frame_eq (slot sequence : ℤ) (numbers : Quantised) :
    frame slot sequence numbers = frameLine slot sequence numbers ++ ['\n'] := rfl

theorem notin_tokens
    (hkey : ∀ field : Field, c ∉ field.key) (heq : c ≠ '=') (hc : c.isDigit = false)
    (hminus : c ≠ '-') : ∀ text ∈ tokens slot sequence numbers, c ∉ text := by
  intro text htext
  obtain ⟨⟨field, value⟩, -, rfl⟩ := List.mem_map.mp htext
  exact notin_token (hkey field) heq hc hminus

theorem splitOn_tokens (slot sequence : ℤ) (numbers : Quantised) :
    (List.intercalate [' '] (tokens slot sequence numbers)).splitOn ' ' =
      tokens slot sequence numbers :=
  List.splitOn_intercalate ' '
    (notin_tokens (fun field => by cases field <;> decide) (by decide) (by decide) (by decide))
    (by simp [tokens, fields])

theorem length_intercalate_le {bound : ℕ} (h : ∀ text ∈ texts, text.length ≤ bound) :
    (List.intercalate [' '] texts).length ≤ texts.length * (bound + 1) := by
  induction texts with
  | nil => simp [List.intercalate]
  | cons text rest ih =>
    have htext := h text List.mem_cons_self
    have hrest := ih fun other hother => h other (List.mem_cons_of_mem _ hother)
    cases rest with
    | nil =>
      simp only [List.intercalate_singleton, List.length_singleton]
      omega
    | cons next rest =>
      rw [List.intercalate_cons_cons, List.length_append, List.length_append, List.length_singleton,
        List.length_cons, Nat.succ_mul]
      omega

theorem notin_intercalate (hc : c ≠ ' ')
    (h : ∀ text ∈ texts, c ∉ text) : c ∉ List.intercalate [' '] texts := by
  induction texts with
  | nil => simp [List.intercalate]
  | cons text rest ih =>
    have htext := h text List.mem_cons_self
    have hrest := ih fun other hother => h other (List.mem_cons_of_mem _ hother)
    cases rest with
    | nil => simpa using htext
    | cons next rest =>
      rw [List.intercalate_cons_cons, List.mem_append, List.mem_append, List.mem_singleton]
      rintro ((h | h) | h)
      · exact htext h
      · exact hc h
      · exact hrest h

theorem newline_notin_frameLine (slot sequence : ℤ) (numbers : Quantised) :
    '\n' ∉ frameLine slot sequence numbers := by
  rw [frameLine, List.mem_append]
  rintro (h | h)
  · exact absurd h (by decide)
  · refine notin_intercalate (by decide) (notin_tokens ?_ (by decide) (by decide) (by decide)) h
    intro field
    cases field <;> decide

theorem length_frameLine_le (h : ∀ entry ∈ fields slot sequence numbers, entry.2.natAbs < 10 ^ 20) :
    (frameLine slot sequence numbers).length ≤ maxInputFrameBytes := by
  have htoken : ∀ text ∈ tokens slot sequence numbers, text.length ≤ 29 := by
    intro text htext
    obtain ⟨⟨field, value⟩, hmem, rfl⟩ := List.mem_map.mp htext
    exact length_token_le (h _ hmem)
  have hlength := length_intercalate_le htoken
  have htokens : (tokens slot sequence numbers).length = 12 := rfl
  have hpre : framePrefix.length = 16 := rfl
  rw [htokens] at hlength
  rw [frameLine, List.length_append, maxInputFrameBytes]
  omega

theorem parseControllerSnapshot_frame_eq (slot sequence : ℤ) (numbers : Quantised) :
    parseControllerSnapshot (frame slot sequence numbers) =
      (parseTokens {} [] (tokens slot sequence numbers)).bind fun parsed =>
        if complete parsed.2 then some parsed.1 else none := by
  have hpre : framePrefix <+: frame slot sequence numbers := by
    rw [frame, List.append_assoc]
    exact List.prefix_append _ _
  have hlast : (frame slot sequence numbers).getLast? = some '\n' := by
    rw [frame_eq, List.getLast?_concat]
  have hbody : ((frame slot sequence numbers).drop framePrefix.length).dropLast =
      List.intercalate [' '] (tokens slot sequence numbers) := by
    rw [frame, List.append_assoc, List.drop_left, List.dropLast_concat]
  have hne : List.intercalate [' '] (tokens slot sequence numbers) ≠ [] := by
    simp [tokens, fields, token, List.intercalate_cons_cons, Field.key]
  unfold parseControllerSnapshot
  rw [if_pos ⟨hpre, hlast⟩]
  dsimp only
  rw [hbody, if_neg hne, splitOn_tokens]

theorem parseControllerSnapshot_frame
    (hslot : 0 ≤ slot ∧ slot ≤ 3) (hsequence : 0 ≤ sequence ∧ sequence < 2 ^ 64)
    (hrange : numbers.InRange) : parseControllerSnapshot (frame slot sequence numbers) =
      some (numbers.native slot sequence.toNat) := by
  have hlength : (((fields slot sequence numbers).map Prod.fst).reverse ++ []).length = 12 := rfl
  rw [parseControllerSnapshot_frame_eq, tokens,
    parseTokens_map (fields_maximum hslot hsequence hrange)]
  · simp only [Option.bind_some, foldl_store_fields, complete, hlength, true_or, decide_true,
      if_true]
  · simp [fields]

theorem parseControllerSnapshot_frame_of_neg
    (hslot : 0 ≤ slot ∧ slot ≤ 3) (hsequence : sequence < 0) :
    parseControllerSnapshot (frame slot sequence numbers) = none := by
  rw [parseControllerSnapshot_frame_eq]
  have hset : ∀ result, setField result (toText slot) .slot = some (Field.slot.store result slot) :=
    fun result => setField_toText hslot
  simp only [tokens, fields, List.map_cons]
  rw [parseTokens, splitToken_token]
  simp only [ofKey_key, hset, List.not_mem_nil, if_false]
  rw [parseTokens, splitToken_token]
  simp only [ofKey_key, setField, parseUnsigned_toText_of_neg hsequence, Option.map_none,
    Option.bind_none]

end Frames

end PS4Droid.Input
