import Mathlib.Data.List.TakeWhile
import Mathlib.Data.UInt

/-!
# The status line of a response

`sceHttpParseStatusLine`. The memory is the list of its bytes from the line on, as far as it is
mapped; a result is none if the parser reads behind it. Which lines the parser leaves is decided by
where the line ends.
-/

namespace PS4Droid.Network.Http

/-! ### The parser -/

def invalidResponse : ℤ := 0x80432060 - 2 ^ 32

def invalidValue : ℤ := 0x804321fe - 2 ^ 32

def isAsciiDigit (c : UInt8) : Bool := 48 ≤ c ∧ c ≤ 57

def newline : UInt8 := 10

def carriageReturn : UInt8 := 13

/-- `HTTP/`. -/
def httpPrefix : List UInt8 := [72, 84, 84, 80, 47]

/-- The result and what is written through the pointers; the phrase is given by its offset in the
line. -/
structure Outcome where
  result : ℤ
  httpMajorVer : Option ℤ := none
  httpMinorVer : Option ℤ := none
  responseCode : Option ℤ := none
  reasonPhrase : Option ℕ := none
  phraseLen : Option ℕ := none
  deriving DecidableEq

/-- A rejected line. -/
def invalid (major minor : BitVec 32) (code : Option ℤ) : Outcome where
  result := invalidResponse
  httpMajorVer := some major.toInt
  httpMinorVer := some minor.toInt
  responseCode := code

inductive VersionLoop where
  | invalid (ver : BitVec 32)
  | stopped (bytes : List UInt8) (ver : BitVec 32)

def addDigit (ver : BitVec 32) (c : UInt8) : BitVec 32 := ver * 10 + BitVec.ofNat 32 (c.toNat - 48)

/-- The loop over the digits of a version; the first byte is the one that was read last. -/
def versionLoop : List UInt8 → BitVec 32 → Option VersionLoop
  | [], _ => none
  | [c], ver => if isAsciiDigit c then none else some (.stopped [c] ver)
  | c :: next :: rest, ver =>
    if ¬isAsciiDigit c then some (.stopped (c :: next :: rest) ver)
    else if 0x80 ≤ next then some (.invalid (addDigit ver c))
    else versionLoop (next :: rest) (addDigit ver c)

/-- A version and the byte behind it, then what follows. -/
def parseVersion (separator : UInt8) (onInvalid : BitVec 32 → Outcome)
    (next : List UInt8 → BitVec 32 → Option Outcome) (bytes : List UInt8) : Option Outcome :=
  match bytes with
  | [] => none
  | first :: _ =>
    if ¬isAsciiDigit first then some (onInvalid 0)
    else
      match versionLoop bytes 0 with
      | none => none
      | some (.invalid ver) => some (onInvalid ver)
      | some (.stopped [] _) => none
      | some (.stopped (c :: rest) ver) => if c ≠ separator then some (onInvalid ver)
          else next rest ver

/-- Are the first bytes digits? Nothing is read behind one that is not. -/
def areDigits : ℕ → List UInt8 → Option Bool
  | 0, _ => some true
  | _ + 1, [] => none
  | n + 1, c :: rest => if isAsciiDigit c then areDigits n rest else some false

/-- The newline among the first bytes. -/
def scanNewline : ℕ → List UInt8 → Option (Option ℕ)
  | 0, _ => some none
  | _ + 1, [] => none
  | n + 1, c :: rest => if c = newline then some (some 0)
      else (scanNewline n rest).map (Option.map (· + 1))

def digitAt (bytes : List UInt8) (i : ℕ) : ℤ := ((bytes[i]?.getD 0).toNat : ℤ) - 48

/-- The response code and the phrase, from the byte at `index` on. The remaining length is an
unsigned difference. -/
def parseCode (lineLen index : ℕ) (major minor : BitVec 32) (bytes : List UInt8) : Option Outcome :=
  let remaining := if index ≤ lineLen then lineLen - index else lineLen + 2 ^ 64 - index
  if remaining < 3 then some (invalid major minor none)
  else
    match areDigits 3 bytes with
    | none => none
    | some false => some (invalid major minor none)
    | some true =>
      let responseCode := digitAt bytes 0 * 100 + digitAt bytes 1 * 10 + digitAt bytes 2
      let phrase := bytes.drop 3
      match scanNewline (remaining - 3 + 1) phrase with
      | none => none
      | some none => some (invalid major minor (some responseCode))
      | some (some scanLen) => some {
          result := (BitVec.ofNat 32 (index + 3 + scanLen + 1)).toInt
          httpMajorVer := some major.toInt
          httpMinorVer := some minor.toInt
          responseCode := some responseCode
          reasonPhrase := some (index + 3)
          phraseLen := some (if scanLen = 0 then 0
            else scanLen - if phrase[scanLen - 1]? = some carriageReturn then 1 else 0) }

def parseMinor (lineLen total : ℕ) (bytes : List UInt8) (major : BitVec 32) : Option Outcome :=
  parseVersion 32 (fun minor => invalid major minor none)
    (fun rest minor => parseCode lineLen (total - rest.length) major minor rest) bytes

def parseMajor (lineLen total : ℕ) (bytes : List UInt8) : Option Outcome :=
  parseVersion 46 (fun major => invalid major 0 none) (parseMinor lineLen total) bytes

/-- The parser with all pointers. -/
def parseLine (memory : List UInt8) (lineLen : ℕ) : Option Outcome :=
  if lineLen < 8 then some (invalid 0 0 none)
  else if memory.take 5 ≠ httpPrefix then some (invalid 0 0 none)
  else parseMajor lineLen memory.length (memory.drop 5)

def sceHttpParseStatusLine (statusLine : Option (List UInt8)) (lineLen : ℕ) (outputs : Bool) :
    Option Outcome :=
  match statusLine with
  | none => some { result := invalidResponse }
  | some memory => if ¬outputs then some { result := invalidValue } else parseLine memory lineLen

/-! ### The grammar -/

def Digits (text : List UInt8) : Prop := ∀ c ∈ text, isAsciiDigit c

/-- The number that digits denote. -/
def value (digits : List UInt8) : ℕ := digits.foldl (fun n c => n * 10 + (c.toNat - 48)) 0

/-- A line with its versions, its code, its phrase up to the newline, and more bytes. -/
structure StatusLine (line major minor code phrase rest : List UInt8) : Prop where
  split :
    line = httpPrefix ++ (major ++ 46 :: (minor ++ 32 :: (code ++ (phrase ++ newline :: rest))))
  major : Digits major ∧ major ≠ []
  minor : Digits minor ∧ minor ≠ []
  code : Digits code ∧ code.length = 3
  phrase : newline ∉ phrase

/-- The bytes up to the newline. -/
def consumed (major minor phrase : List UInt8) : ℕ :=
  5 + major.length + 1 + minor.length + 1 + 3 + phrase.length + 1

def phraseLength (phrase : List UInt8) : ℕ :=
  if phrase.getLast? = some carriageReturn then phrase.length - 1 else phrase.length

/-- What a line denotes. -/
def denoted (major minor code phrase : List UInt8) : Outcome where
  result := consumed major minor phrase
  httpMajorVer := some (value major)
  httpMinorVer := some (value minor)
  responseCode := some (value code)
  reasonPhrase := some (consumed major minor phrase - 1 - phrase.length)
  phraseLen := some (phraseLength phrase)

/-- The outcome is what the line denotes, or the line is not in the grammar and rejected. -/
def Right (line : List UInt8) (outcome : Outcome) : Prop :=
  (∀ major minor code phrase rest, StatusLine line major minor code phrase rest →
    outcome = denoted major minor code phrase) ∧
    ((¬∃ major minor code phrase rest, StatusLine line major minor code phrase rest) →
      outcome.result = invalidResponse)

/-- The bytes of the line decide the outcome, whatever stands behind them or nothing; and it is
right. -/
def Meets (line : List UInt8) : Prop :=
  ∃ outcome, (∀ more, sceHttpParseStatusLine (some (line ++ more)) line.length true =
    some outcome) ∧ Right line outcome

/-- The line ends in a version, behind the dot or, with a complete code, before a newline. -/
def Cut (line : List UInt8) : Prop :=
  8 ≤ line.length ∧
    ((∃ major, Digits major ∧ line = httpPrefix ++ major) ∨
      (∃ major minor, Digits major ∧ major ≠ [] ∧ Digits minor ∧
        line = httpPrefix ++ (major ++ 46 :: minor)) ∨
      ∃ major minor code phrase, Digits major ∧ major ≠ [] ∧ Digits minor ∧ minor ≠ [] ∧
        Digits code ∧ code.length = 3 ∧
        newline ∉ phrase ∧ line = httpPrefix ++ (major ++ 46 :: (minor ++ 32 :: (code ++ phrase))))

/-- The numbers of a line that is in the grammar fit an `int`. -/
def InRange (line : List UInt8) : Prop :=
  ∀ major minor code phrase rest, StatusLine line major minor code phrase rest →
    value major < 2 ^ 31 ∧ value minor < 2 ^ 31 ∧ consumed major minor phrase < 2 ^ 31

/-! ### Versions -/

section Versions

variable {digits rest : List UInt8} {c : UInt8} {ver : BitVec 32}

theorem digit_lt (h : isAsciiDigit c) : ¬0x80 ≤ c := by
  rw [isAsciiDigit, decide_eq_true_eq, UInt8.le_iff_toNat_le, UInt8.le_iff_toNat_le] at h
  rw [UInt8.le_iff_toNat_le]
  have hnine : (57 : UInt8).toNat = 57 := rfl
  have hhigh : (0x80 : UInt8).toNat = 128 := rfl
  omega

theorem versionLoop_digits (hdigits : Digits digits) (ver : BitVec 32) :
    versionLoop digits ver = none := by
  induction digits generalizing ver with
  | nil => rfl
  | cons d tail ih =>
    obtain ⟨hd, htail⟩ := List.forall_mem_cons.mp hdigits
    cases tail with
    | nil => rw [versionLoop, if_pos hd]
    | cons next tail =>
      rw [versionLoop, if_neg (not_not.mpr hd), if_neg (digit_lt (List.forall_mem_cons.mp htail).1)]
      exact ih htail _

/-- Behind digits the loop stops, or rejects a byte that is no ASCII. -/
theorem versionLoop_stop (hdigits : Digits digits) (hc : ¬isAsciiDigit c) (ver : BitVec 32)
    (rest : List UInt8) :
    versionLoop (digits ++ c :: rest) ver =
      some (if digits ≠ [] ∧ 0x80 ≤ c then .invalid (digits.foldl addDigit ver)
        else .stopped (c :: rest) (digits.foldl addDigit ver)) := by
  induction digits generalizing ver with
  | nil =>
    rw [List.nil_append, if_neg fun h => h.1 rfl]
    cases rest with
    | nil => exact if_neg hc
    | cons next rest => exact if_pos hc
  | cons d tail ih =>
    obtain ⟨hd, htail⟩ := List.forall_mem_cons.mp hdigits
    cases tail with
    | nil =>
      rw [List.cons_append, List.nil_append, versionLoop, if_neg (not_not.mpr hd)]
      by_cases hhigh : 0x80 ≤ c
      · rw [if_pos hhigh, if_pos ⟨List.cons_ne_nil _ _, hhigh⟩]
        rfl
      · rw [if_neg hhigh, if_neg fun h => hhigh h.2]
        cases rest with
        | nil => exact if_neg hc
        | cons next rest => exact if_pos hc
    | cons next tail =>
      rw [List.cons_append, List.cons_append, versionLoop, if_neg (not_not.mpr hd),
        if_neg (digit_lt (List.forall_mem_cons.mp htail).1), ← List.cons_append, ih htail]
      simp

variable {separator : UInt8} {onInvalid : BitVec 32 → Outcome}
  {next : List UInt8 → BitVec 32 → Option Outcome}

theorem parseVersion_separator (hdigits : Digits digits) (hne : digits ≠ [])
    (hseparator : separator < 48) (rest : List UInt8) :
    parseVersion separator onInvalid next (digits ++ separator :: rest) =
      next rest (digits.foldl addDigit 0) := by
  have hlt : separator.toNat < 48 := UInt8.lt_iff_toNat_lt.mp hseparator
  have hnot : ¬isAsciiDigit separator := by
    rw [isAsciiDigit, decide_eq_true_eq, UInt8.le_iff_toNat_le]
    have hzero : (48 : UInt8).toNat = 48 := rfl
    omega
  have hlow : ¬0x80 ≤ separator := by
    rw [UInt8.le_iff_toNat_le]
    have hhigh : (0x80 : UInt8).toNat = 128 := rfl
    omega
  have hloop := versionLoop_stop hdigits hnot 0 rest
  rw [if_neg fun h => hlow h.2] at hloop
  obtain ⟨first, tail, rfl⟩ := List.exists_cons_of_ne_nil hne
  rw [List.cons_append] at hloop ⊢
  rw [parseVersion, if_neg (not_not.mpr (List.forall_mem_cons.mp hdigits).1)]
  simp only [hloop]
  exact if_neg (not_not.mpr rfl)

theorem parseVersion_digits (hdigits : Digits digits) :
    parseVersion separator onInvalid next digits = none := by
  cases digits with
  | nil => rfl
  | cons first tail =>
    rw [parseVersion, if_neg (not_not.mpr (List.forall_mem_cons.mp hdigits).1),
      versionLoop_digits hdigits]

/-- Bytes are digits, digits and the separator, or no version in any memory. -/
theorem parseVersion_cases (separator : UInt8) (bytes : List UInt8) :
    Digits bytes ∨
      (∃ digits rest, Digits digits ∧ digits ≠ [] ∧ bytes = digits ++ separator :: rest) ∨
      ∃ ver, ∀ onInvalid next more,
        parseVersion separator onInvalid next (bytes ++ more) = some (onInvalid ver) := by
  cases htail : bytes.dropWhile isAsciiDigit with
  | nil => exact .inl (List.dropWhile_eq_nil_iff.mp htail)
  | cons c rest =>
    refine .inr ?_
    have hc : ¬isAsciiDigit c := by
      have hhead := List.head_dropWhile_not isAsciiDigit (l := bytes)
        (by rw [htail]; exact List.cons_ne_nil _ _)
      simp only [htail, List.head_cons] at hhead
      simp [hhead]
    have hdigits : Digits (bytes.takeWhile isAsciiDigit) := fun d hd => List.mem_takeWhile_imp hd
    have hsplit : bytes = bytes.takeWhile isAsciiDigit ++ c :: rest := by
      rw [← htail, List.takeWhile_append_dropWhile]
    generalize bytes.takeWhile isAsciiDigit = digits at hdigits hsplit
    subst hsplit
    cases digits with
    | nil =>
      refine .inr ⟨0, fun onInvalid next more => ?_⟩
      exact if_pos hc
    | cons first tail =>
      have hfirst := (List.forall_mem_cons.mp hdigits).1
      have hloop := fun more => versionLoop_stop hdigits hc 0 (rest ++ more)
      simp only [List.cons_append] at hloop
      by_cases hhigh : 0x80 ≤ c
      · refine .inr ⟨(first :: tail).foldl addDigit 0, fun onInvalid next more => ?_⟩
        rw [List.append_assoc, List.cons_append, List.cons_append, parseVersion,
          if_neg (not_not.mpr hfirst)]
        simp only [hloop,
          if_pos (⟨List.cons_ne_nil first tail, hhigh⟩ : first :: tail ≠ [] ∧ 0x80 ≤ c)]
      · by_cases hseparator : c = separator
        · exact .inl ⟨first :: tail, rest, hdigits, List.cons_ne_nil _ _, by rw [hseparator]⟩
        · refine .inr ⟨(first :: tail).foldl addDigit 0, fun onInvalid next more => ?_⟩
          rw [List.append_assoc, List.cons_append, List.cons_append, parseVersion,
            if_neg (not_not.mpr hfirst)]
          simp only [hloop, if_neg fun h : first :: tail ≠ [] ∧ 0x80 ≤ c => hhigh h.2]
          exact if_pos hseparator

end Versions

/-! ### The code and the phrase -/

section Code

variable {code phrase bytes : List UInt8}

theorem areDigits_append : ∀ (n : ℕ) (bytes more : List UInt8), n ≤ bytes.length →
    areDigits n (bytes ++ more) = some ((bytes.take n).all isAsciiDigit)
  | 0, _, _, _ => rfl
  | n + 1, c :: bytes, more, h => by
    rw [List.cons_append, areDigits, List.take_succ_cons, List.all_cons]
    by_cases hc : isAsciiDigit c
    · rw [if_pos hc, areDigits_append n bytes more (Nat.le_of_succ_le_succ h), hc, Bool.true_and]
    · rw [if_neg hc, Bool.eq_false_iff.mpr hc, Bool.false_and]

theorem scanNewline_found (hphrase : newline ∉ phrase) (extra : ℕ) (more : List UInt8) :
    scanNewline (phrase.length + 1 + extra) (phrase ++ newline :: more) =
      some (some phrase.length) := by
  induction phrase with
  | nil =>
      rw [List.nil_append, List.length_nil, Nat.zero_add, Nat.add_comm, scanNewline, if_pos rfl]
  | cons c phrase ih =>
    obtain ⟨hc, hrest⟩ := not_or.mp (mt List.mem_cons.mpr hphrase)
    rw [List.cons_append, List.length_cons, Nat.add_right_comm _ 1 extra, scanNewline,
      if_neg (Ne.symm hc), ih hrest]
    rfl

theorem scanNewline_end (hphrase : newline ∉ phrase) :
    scanNewline (phrase.length + 1) phrase = none := by
  induction phrase with
  | nil => rfl
  | cons c phrase ih =>
    obtain ⟨hc, hrest⟩ := not_or.mp (mt List.mem_cons.mpr hphrase)
    rw [List.length_cons, scanNewline, if_neg (Ne.symm hc), ih hrest]
    rfl

theorem toNat_digit {c : UInt8} (h : isAsciiDigit c) : 48 ≤ c.toNat := by
  rw [isAsciiDigit, decide_eq_true_eq, UInt8.le_iff_toNat_le] at h
  exact h.1

theorem digitAt_value (hcode : Digits code) (hlength : code.length = 3) (more : List UInt8) :
    digitAt (code ++ more) 0 * 100 + digitAt (code ++ more) 1 * 10 + digitAt (code ++ more) 2 =
      value code := by
  obtain ⟨a, b, c, rfl⟩ := List.length_eq_three.mp hlength
  have ha := toNat_digit (hcode a (by simp))
  have hb := toNat_digit (hcode b (by simp))
  have hc := toNat_digit (hcode c (by simp))
  simp only [digitAt, value, List.cons_append, List.getElem?_cons_zero, List.getElem?_cons_succ,
    Option.getD_some, List.foldl_cons, List.foldl_nil]
  omega

/-- What the parser gives for a code and a phrase at `index`. -/
def computed (index : ℕ) (major minor : BitVec 32) (code phrase : List UInt8) : Outcome where
  result := (BitVec.ofNat 32 (index + 3 + phrase.length + 1)).toInt
  httpMajorVer := some major.toInt
  httpMinorVer := some minor.toInt
  responseCode := some (value code)
  reasonPhrase := some (index + 3)
  phraseLen := some (phraseLength phrase)

variable {index : ℕ} {major minor : BitVec 32}

theorem phraseLen_eq (phrase more : List UInt8) : (if phrase.length = 0 then 0
      else phrase.length - if (phrase ++ more)[phrase.length - 1]? = some carriageReturn then 1
        else 0) =
      phraseLength phrase := by
  rw [phraseLength, List.getLast?_eq_getElem?]
  by_cases hempty : phrase.length = 0
  · rw [if_pos hempty, hempty]
    simp
  · rw [if_neg hempty,
      List.getElem?_append_left (Nat.sub_lt (Nat.pos_of_ne_zero hempty) Nat.one_pos)]
    by_cases hlast : phrase[phrase.length - 1]? = some carriageReturn
    · rw [if_pos hlast, if_pos hlast]
    · rw [if_neg hlast, if_neg hlast, Nat.sub_zero]

/-- The parser behind the versions, in a line with at least three more bytes that are digits. -/
theorem parseCode_digits (hcode : Digits code) (hlength : code.length = 3)
    (phrase more : List UInt8) :
    parseCode (index + (code ++ phrase).length) index major minor (code ++ phrase ++ more) =
      match scanNewline (phrase.length + 1) (phrase ++ more) with
      | none => none
      | some none => some (invalid major minor (some (value code)))
      | some (some scanLen) => some {
          result := (BitVec.ofNat 32 (index + 3 + scanLen + 1)).toInt
          httpMajorVer := some major.toInt
          httpMinorVer := some minor.toInt
          responseCode := some (value code)
          reasonPhrase := some (index + 3)
          phraseLen := some (if scanLen = 0 then 0
            else scanLen - if (phrase ++ more)[scanLen - 1]? = some carriageReturn then 1
              else 0) } := by
  have hremaining : index + (code ++ phrase).length - index = phrase.length + 3 := by
    rw [Nat.add_sub_cancel_left, List.length_append, hlength, Nat.add_comm]
  have hare : areDigits 3 (code ++ phrase ++ more) = some true := by
    rw [areDigits_append 3 _ _ (by rw [List.length_append]; omega),
      List.take_append_of_le_length hlength.ge,
      List.take_of_length_le hlength.le, List.all_eq_true.mpr hcode]
  have hdrop : (code ++ phrase ++ more).drop 3 = phrase ++ more := by
    rw [List.append_assoc, ← hlength, List.drop_left]
  rw [parseCode, if_pos (Nat.le_add_right _ _), hremaining, if_neg (by omega), hare,
    Nat.add_sub_cancel]
  simp only [hdrop]
  rw [List.append_assoc, digitAt_value hcode hlength]

theorem parseCode_complete (hcode : Digits code) (hlength : code.length = 3)
    (hphrase : newline ∉ phrase) (rest more : List UInt8) :
    parseCode (index + (code ++ (phrase ++ newline :: rest)).length) index major minor
      (code ++ (phrase ++ newline :: rest) ++ more) =
        some (computed index major minor code phrase) := by
  have hscan : scanNewline ((phrase ++ newline :: rest).length + 1)
    (phrase ++ newline :: (rest ++ more)) = some (some phrase.length) := by
    rw [List.length_append, List.length_cons, ← Nat.add_assoc, Nat.add_right_comm phrase.length,
      Nat.add_assoc _ _ 1]
    exact scanNewline_found hphrase _ _
  rw [parseCode_digits hcode hlength, List.append_assoc, List.cons_append, hscan]
  simp only [phraseLen_eq]
  rfl

theorem parseCode_cut (hcode : Digits code) (hlength : code.length = 3)
    (hphrase : newline ∉ phrase) :
    parseCode (index + (code ++ phrase).length) index major minor (code ++ phrase) = none := by
  have hrun := @parseCode_digits code index major minor hcode hlength phrase []
  rw [List.append_nil, List.append_nil, scanNewline_end hphrase] at hrun
  exact hrun

/-- Bytes are a code with a newline behind it, a code without one, or no code in any memory. -/
theorem parseCode_cases (index : ℕ) (major minor : BitVec 32) (bytes : List UInt8) :
    (∃ code phrase rest, Digits code ∧ code.length = 3 ∧ newline ∉ phrase ∧
      bytes = code ++ (phrase ++ newline :: rest)) ∨
      (∃ code phrase, Digits code ∧ code.length = 3 ∧ newline ∉ phrase ∧ bytes = code ++ phrase) ∨
      ∀ more, parseCode (index + bytes.length) index major minor (bytes ++ more) =
        some (invalid major minor none) := by
  by_cases hshort : bytes.length < 3
  · refine .inr (.inr fun more => ?_)
    rw [parseCode, if_pos (Nat.le_add_right _ _), Nat.add_sub_cancel_left, if_pos hshort]
  have hthree : 3 ≤ bytes.length := Nat.le_of_not_lt hshort
  cases hall : (bytes.take 3).all isAsciiDigit with
  | false =>
    refine .inr (.inr fun more => ?_)
    rw [parseCode, if_pos (Nat.le_add_right _ _), Nat.add_sub_cancel_left, if_neg hshort,
      areDigits_append 3 bytes more hthree, hall]
  | true =>
    have hcode : Digits (bytes.take 3) := List.all_eq_true.mp hall
    have hlength : (bytes.take 3).length = 3 := List.length_take_of_le hthree
    by_cases hnewline : newline ∈ bytes.drop 3
    · obtain ⟨phrase, rest, hsplit, hphrase⟩ := List.eq_append_cons_of_mem hnewline
      exact .inl ⟨_, phrase, rest, hcode, hlength, hphrase, by rw [← hsplit, List.take_append_drop]⟩
    · exact .inr (.inl ⟨_, _, hcode, hlength, hnewline, (List.take_append_drop 3 bytes).symm⟩)

end Code

/-! ### Whole lines -/

section Lines

variable {line major minor code phrase rest : List UInt8}

theorem sceHttpParseStatusLine_eq (hlength : 8 ≤ (httpPrefix ++ rest).length) (more : List UInt8) :
    sceHttpParseStatusLine (some (httpPrefix ++ rest ++ more)) (httpPrefix ++ rest).length true =
      parseMajor (httpPrefix ++ rest).length (httpPrefix ++ rest ++ more).length
        (rest ++ more) := by
  have hprefix : (httpPrefix ++ rest ++ more).take 5 = httpPrefix := rfl
  rw [sceHttpParseStatusLine, if_neg (not_not.mpr rfl), parseLine, if_neg (Nat.not_lt.mpr hlength),
    hprefix, if_neg (not_not.mpr rfl)]
  rfl

theorem sceHttpParseStatusLine_major (hmajor : Digits major) (hne : major ≠ [])
    (hlength : 8 ≤ (httpPrefix ++ (major ++ 46 :: rest)).length) (more : List UInt8) :
    sceHttpParseStatusLine (some (httpPrefix ++ (major ++ 46 :: rest) ++ more))
        (httpPrefix ++ (major ++ 46 :: rest)).length true =
      parseMinor (httpPrefix ++ (major ++ 46 :: rest)).length
        (httpPrefix ++ (major ++ 46 :: rest) ++ more).length
        (rest ++ more) (major.foldl addDigit 0) := by
  rw [sceHttpParseStatusLine_eq hlength, parseMajor, List.append_assoc major, List.cons_append,
    parseVersion_separator hmajor hne (by decide)]

/-- The index of the response code. -/
def codeIndex (major minor : List UInt8) : ℕ := 5 + major.length + 1 + minor.length + 1

theorem sceHttpParseStatusLine_versions (hmajor : Digits major) (hmajorne : major ≠ [])
    (hminor : Digits minor)
    (hminorne : minor ≠ [])
    (hlength : 8 ≤ (httpPrefix ++ (major ++ 46 :: (minor ++ 32 :: rest))).length)
    (more : List UInt8) :
    sceHttpParseStatusLine (some (httpPrefix ++ (major ++ 46 :: (minor ++ 32 :: rest)) ++ more))
        (httpPrefix ++ (major ++ 46 :: (minor ++ 32 :: rest))).length true =
      parseCode (codeIndex major minor + rest.length) (codeIndex major minor)
      (major.foldl addDigit 0) (minor.foldl addDigit 0) (rest ++ more) := by
  have hline : (httpPrefix ++ (major ++ 46 :: (minor ++ 32 :: rest))).length =
    codeIndex major minor + rest.length := by
    simp only [httpPrefix, codeIndex, List.length_append, List.length_cons, List.length_nil]
    omega
  have hindex : (httpPrefix ++ (major ++ 46 :: (minor ++ 32 :: rest)) ++ more).length -
    (rest ++ more).length = codeIndex major minor := by
    rw [List.length_append, hline, List.length_append, Nat.add_assoc, Nat.add_sub_cancel]
  rw [sceHttpParseStatusLine_major hmajor hmajorne hlength, parseMinor, List.append_assoc minor,
    List.cons_append, parseVersion_separator hminor hminorne (by decide), hindex, hline]

theorem StatusLine.outcome (h : StatusLine line major minor code phrase rest) (more : List UInt8) :
    sceHttpParseStatusLine (some (line ++ more)) line.length true =
      some (computed (codeIndex major minor) (major.foldl addDigit 0)
        (minor.foldl addDigit 0) code phrase) := by
  have hlength : 8 ≤ line.length := by
    have hmajor := List.length_pos_iff.mpr h.major.2
    have hminor := List.length_pos_iff.mpr h.minor.2
    rw [h.split]
    simp only [httpPrefix, List.length_append, List.length_cons, List.length_nil]
    omega
  have hsplit := h.split
  subst hsplit
  rw [sceHttpParseStatusLine_versions h.major.1 h.major.2 h.minor.1 h.minor.2 hlength]
  exact parseCode_complete h.code.1 h.code.2 h.phrase rest more

/-- The parser leaves a cut line that is not followed by more bytes. -/
theorem Cut.outcome (h : Cut line) :
    sceHttpParseStatusLine (some line) line.length true = none := by
  obtain ⟨hlength, ⟨major, hmajor, rfl⟩ | ⟨major, minor, hmajor, hmajorne, hminor, rfl⟩ |
    ⟨major, minor, code, phrase, hmajor, hmajorne, hminor, hminorne, hcode, hcodelength, hphrase,
      rfl⟩⟩ := h
  · have hrun := sceHttpParseStatusLine_eq hlength []
    rw [List.append_nil, List.append_nil] at hrun
    rw [hrun, parseMajor, parseVersion_digits hmajor]
  · have hrun := sceHttpParseStatusLine_major hmajor hmajorne hlength []
    rw [List.append_nil, List.append_nil] at hrun
    rw [hrun, parseMinor, parseVersion_digits hminor]
  · have hrun := sceHttpParseStatusLine_versions hmajor hmajorne hminor hminorne hlength []
    rw [List.append_nil, List.append_nil] at hrun
    rw [hrun, parseCode_cut hcode hcodelength hphrase]

theorem line_cases (line : List UInt8) :
    (∃ major minor code phrase rest, StatusLine line major minor code phrase rest) ∨ Cut line ∨
      ∃ outcome, outcome.result = invalidResponse ∧
        ∀ more, sceHttpParseStatusLine (some (line ++ more)) line.length true = some outcome := by
  by_cases hshort : line.length < 8
  · refine .inr (.inr ⟨invalid 0 0 none, rfl, fun more => ?_⟩)
    rw [sceHttpParseStatusLine, if_neg (not_not.mpr rfl), parseLine, if_pos hshort]
  have hlength : 8 ≤ line.length := Nat.le_of_not_lt hshort
  by_cases hprefix : line.take 5 = httpPrefix
  · have hline : line = httpPrefix ++ line.drop 5 := by rw [← hprefix, List.take_append_drop]
    generalize line.drop 5 = bytes at hline
    subst hline
    obtain hmajor | ⟨major, bytes, hmajor, hmajorne, rfl⟩ | ⟨ver, hver⟩ :=
      parseVersion_cases 46 bytes
    · exact .inr (.inl ⟨hlength, .inl ⟨bytes, hmajor, rfl⟩⟩)
    · obtain hminor | ⟨minor, bytes, hminor, hminorne, rfl⟩ | ⟨ver, hver⟩ :=
        parseVersion_cases 32 bytes
      · exact .inr (.inl ⟨hlength, .inr (.inl ⟨major, bytes, hmajor, hmajorne, hminor, rfl⟩)⟩)
      · obtain ⟨code, phrase, rest, hcode, hcodelength, hphrase, rfl⟩ | ⟨code, phrase, hcode,
          hcodelength, hphrase, rfl⟩ |
          hinvalid := parseCode_cases (codeIndex major minor) (major.foldl addDigit 0)
            (minor.foldl addDigit 0) bytes
        · exact .inl ⟨major, minor, code, phrase, rest, rfl, ⟨hmajor, hmajorne⟩, ⟨hminor, hminorne⟩,
            ⟨hcode, hcodelength⟩, hphrase⟩
        · exact .inr (.inl ⟨hlength,
            .inr (.inr ⟨major, minor, code, phrase, hmajor, hmajorne, hminor, hminorne, hcode,
            hcodelength, hphrase, rfl⟩)⟩)
        · refine .inr (.inr ⟨invalid (major.foldl addDigit 0) (minor.foldl addDigit 0) none, rfl,
            fun more => ?_⟩)
          rw [sceHttpParseStatusLine_versions hmajor hmajorne hminor hminorne hlength, hinvalid]
      · refine .inr (.inr ⟨invalid (major.foldl addDigit 0) ver none, rfl, fun more => ?_⟩)
        rw [sceHttpParseStatusLine_major hmajor hmajorne hlength, parseMinor, hver]
    · refine .inr (.inr ⟨invalid ver 0 none, rfl, fun more => ?_⟩)
      rw [sceHttpParseStatusLine_eq hlength, parseMajor, hver]
  · refine .inr (.inr ⟨invalid 0 0 none, rfl, fun more => ?_⟩)
    rw [sceHttpParseStatusLine, if_neg (not_not.mpr rfl), parseLine, if_neg hshort,
      List.take_append_of_le_length (Nat.le_trans (by decide) hlength), if_pos hprefix]

/-! ### The numbers -/

theorem foldl_addDigit (digits : List UInt8) (start : ℕ) :
    digits.foldl addDigit (BitVec.ofNat 32 start) =
      BitVec.ofNat 32 (digits.foldl (fun n c => n * 10 + (c.toNat - 48)) start) := by
  induction digits generalizing start with
  | nil => rfl
  | cons c digits ih =>
    rw [List.foldl_cons, List.foldl_cons, addDigit, ← ih, BitVec.ofNat_add, BitVec.ofNat_mul]
    rfl

theorem foldl_addDigit_zero (digits : List UInt8) :
    digits.foldl addDigit 0 = BitVec.ofNat 32 (value digits) :=
  foldl_addDigit digits 0

theorem toInt_ofNat_iff (n : ℕ) : (BitVec.ofNat 32 n).toInt = n ↔ n < 2 ^ 31 := by
  rw [BitVec.toInt_eq_toNat_bmod, BitVec.toNat_ofNat]
  constructor
  · intro h
    have hlt := @Int.bmod_lt (n % 2 ^ 32 : ℕ) (2 ^ 32) (by decide)
    omega
  · intro h
    rw [Nat.mod_eq_of_lt (by omega), Int.bmod_eq_of_le (by omega) (by omega)]

theorem computed_eq_denoted_iff :
    computed (codeIndex major minor) (major.foldl addDigit 0) (minor.foldl addDigit 0) code
      phrase = denoted major minor code phrase ↔
    value major < 2 ^ 31 ∧ value minor < 2 ^ 31 ∧ consumed major minor phrase < 2 ^ 31 := by
  have hphrase : codeIndex major minor + 3 = consumed major minor phrase - 1 - phrase.length := by
    rw [codeIndex, consumed]
    omega
  have hconsumed : codeIndex major minor + 3 + phrase.length + 1 = consumed major minor phrase :=
    rfl
  rw [computed, denoted, foldl_addDigit_zero, foldl_addDigit_zero, hconsumed, hphrase]
  simp only [Outcome.mk.injEq, Option.some.injEq, toInt_ofNat_iff, and_true]
  tauto

end Lines

/-- The parser stays in its line, whatever stands behind it, and does what the grammar says exactly
for the lines that are not cut off at a byte that it still wants, with numbers that fit. -/
theorem meets_iff (line : List UInt8) : Meets line ↔ ¬Cut line ∧ InRange line := by
  constructor
  · rintro ⟨outcome, hrun, hright, _⟩
    refine ⟨fun hcut => ?_, fun major minor code phrase rest hline => ?_⟩
    · have hsome := hrun []
      rw [List.append_nil, hcut.outcome] at hsome
      cases hsome
    · have hcomputed := Option.some.inj ((hrun []).symm.trans (hline.outcome []))
      rw [← @computed_eq_denoted_iff major minor code, ← hcomputed]
      exact hright major minor code phrase rest hline
  · rintro ⟨hcut, hrange⟩
    obtain ⟨major, minor, code, phrase, rest, hline⟩ | hcut' | ⟨outcome, hinvalid, hrun⟩ :=
      line_cases line
    · refine ⟨_, hline.outcome, fun major' minor' code' phrase' rest' hline' => ?_, fun hno => ?_⟩
      · rw [← computed_eq_denoted_iff.mpr (hrange major' minor' code' phrase' rest' hline')]
        exact Option.some.inj ((hline.outcome []).symm.trans (hline'.outcome []))
      · exact absurd ⟨major, minor, code, phrase, rest, hline⟩ hno
    · exact absurd hcut' hcut
    · refine ⟨outcome, hrun, fun major minor code phrase rest hline => ?_, fun _ => hinvalid⟩
      rw [← computed_eq_denoted_iff.mpr (hrange major minor code phrase rest hline)]
      exact Option.some.inj ((hrun []).symm.trans (hline.outcome []))

/-- `HTTP/1.1 200 OK` with and without a newline behind it. -/
theorem newline_behind_line :
    let line : List UInt8 := [72, 84, 84, 80, 47, 49, 46, 49, 32, 50, 48, 48, 32, 79, 75]
    ¬Meets line ∧
      (sceHttpParseStatusLine (some (line ++ [newline])) line.length true).map Outcome.result =
        some 16 ∧
      (sceHttpParseStatusLine (some (line ++ [0])) line.length true).map Outcome.result =
        some invalidResponse := by
  intro line
  have hfound : (sceHttpParseStatusLine (some (line ++ [newline])) line.length true).map
    Outcome.result = some 16 := by
    decide
  have hrejected :
    (sceHttpParseStatusLine (some (line ++ [0])) line.length true).map Outcome.result =
      some invalidResponse := by
    decide
  refine ⟨?_, hfound, hrejected⟩
  rintro ⟨outcome, hrun, -⟩
  rw [hrun, Option.map_some, Option.some.injEq] at hfound hrejected
  exact absurd (hfound.symm.trans hrejected) (by decide)

end PS4Droid.Network.Http
