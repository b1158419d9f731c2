import PS4Droid.Input.SnapshotGrammar

/-!
# The event lines of the runtime

`ParseRuntimeFrame` of `runtime_client.cpp` and the lines that `RuntimeClient` sends. A line is read
word by word, as `std::istringstream` does. An `int` that overflows wraps around.
-/

namespace PS4Droid.Runtime

open Input (Bytes DecimalText IntegerText toText)

inductive RuntimeEvent where
  | hello
  | starting
  | running
  | stopped
  | error
  deriving DecidableEq

def runtimeProtocolVersion : ℕ := 1

structure RuntimeFrame where
  event : RuntimeEvent
  version : ℕ := runtimeProtocolVersion
  exitCode : ℤ := 0
  code : Bytes := []
  deriving DecidableEq

/-! ### Lines -/

/-- `BACHATA/1` and a space. -/
def linePrefix : Bytes := ['B', 'A', 'C', 'H', 'A', 'T', 'A', '/', '1', ' ']

def helloWord : Bytes := ['H', 'E', 'L', 'L', 'O']

def eventWord : Bytes := ['E', 'V', 'E', 'N', 'T']

def errorWord : Bytes := ['E', 'R', 'R', 'O', 'R']

def startingWord : Bytes := ['S', 't', 'a', 'r', 't', 'i', 'n', 'g']

def runningWord : Bytes := ['R', 'u', 'n', 'n', 'i', 'n', 'g']

def stoppedWord : Bytes := ['S', 't', 'o', 'p', 'p', 'e', 'd']

def frameWord : Bytes := ['F', 'r', 'a', 'm', 'e']

def versionKey : Bytes := ['v', 'e', 'r', 's', 'i', 'o', 'n', '=']

def codeKey : Bytes := ['c', 'o', 'd', 'e', '=']

def exitCodeKey : Bytes := ['e', 'x', 'i', 't', '_', 'c', 'o', 'd', 'e', '=']

/-- `std::isspace` in the classic locale. -/
def isSpace (c : Char) : Bool := c.toNat = 32 ∨ 9 ≤ c.toNat ∧ c.toNat ≤ 13

/-- `input >> word`: the word and what is left of the input. -/
def readWord (input : Bytes) : Bytes × Bytes :=
  let rest := input.dropWhile isSpace
  (rest.takeWhile fun c => !isSpace c, rest.dropWhile fun c => !isSpace c)

/-- An `int`. -/
def wrap (value : ℤ) : ℤ := Int.bmod value (2 ^ 32)

/-- The loop of `ParseInt`. -/
def parseDigits (parsed : ℤ) : Bytes → Option ℤ
  | [] => some parsed
  | c :: rest =>
    if c.toNat < 48 ∨ 57 < c.toNat then none
      else parseDigits (wrap (wrap (parsed * 10) + (c.toNat - 48))) rest

def parseInt (value : Bytes) : Option ℤ := if value = [] then none else parseDigits 0 value

/-- The input behind the prefix, without the end of the line. -/
def payload (line : Bytes) : Option Bytes :=
  let line := if line.getLast? = some '\n' then line.dropLast else line
  if linePrefix <+: line then some (line.drop linePrefix.length) else none

def parsePayload (input : Bytes) : Option RuntimeFrame :=
  let (kind, input) := readWord input
  if kind = helloWord then
    let (version, _) := readWord input
    if versionKey <+: version then
      match parseInt (version.drop 8) with
      | none => none
      | some parsed => if parsed ≠ (runtimeProtocolVersion : ℤ) then none
          else some { event := .hello }
    else none
  else if kind ≠ eventWord ∧ kind ≠ errorWord then none
  else
    let (value, input) := readWord input
    if kind = errorWord then
      if ¬codeKey <+: value ∨ value.length = 5 then none
        else some { event := .error, code := value.drop 5 }
    else if value = startingWord then some { event := .starting }
    else if value = runningWord then some { event := .running }
    else if value = stoppedWord then
      let (exitCode, _) := readWord input
      if exitCodeKey <+: exitCode then
        match parseInt (exitCode.drop 10) with
        | none => none
        | some parsed => some { event := .stopped, exitCode := parsed }
      else none
    else none

def parseRuntimeFrame (line : Bytes) : Option RuntimeFrame := (payload line).bind parsePayload

/-! ### What is sent -/

/-- A code as callers give it: not empty and without white space. -/
structure ErrorCode where
  text : Bytes
  nonempty : text ≠ []
  word : ∀ c ∈ text, isSpace c = false

/-- The calls of `RuntimeClient` that send a line, the greeting with its own version. -/
inductive Sent where
  | hello
  | starting
  | running
  | framePresented
  | stopped (exitCode : Int32)
  | error (code : ErrorCode)

def Sent.line : Sent → Bytes
  | hello =>
      linePrefix ++ helloWord ++ ' ' :: (versionKey ++ toText runtimeProtocolVersion) ++ ['\n']
  | starting => linePrefix ++ eventWord ++ ' ' :: startingWord ++ ['\n']
  | running => linePrefix ++ eventWord ++ ' ' :: runningWord ++ ['\n']
  | framePresented => linePrefix ++ eventWord ++ ' ' :: frameWord ++ ['\n']
  | stopped exitCode =>
    linePrefix ++ eventWord ++
      ' ' :: (stoppedWord ++ ' ' :: (exitCodeKey ++ toText exitCode.toInt)) ++ ['\n']
  | error code => linePrefix ++ errorWord ++ ' ' :: (codeKey ++ code.text) ++ ['\n']

/-- The kind of frame that is meant. There is none for a presented frame. -/
def Sent.event : Sent → Option RuntimeEvent
  | hello => some .hello
  | starting => some .starting
  | running => some .running
  | framePresented => none
  | stopped _ => some .stopped
  | error _ => some .error

/-- The line comes back as a frame of its kind, with what was sent. -/
def RoundTrips (sent : Sent) : Prop :=
  ∃ frame, parseRuntimeFrame sent.line = some frame ∧ sent.event = some frame.event ∧
    (∀ exitCode, sent = .stopped exitCode → frame.exitCode = exitCode.toInt) ∧
    ∀ code, sent = .error code → frame.code = code.text

/-- The lines that can be read back: no presented frame and no negative exit code. -/
def Sent.Readable : Sent → Prop
  | framePresented => False
  | stopped exitCode => 0 ≤ exitCode.toInt
  | _ => True

/-! ### What is read -/

/-- The word with the given number. -/
def wordAt (n : ℕ) (input : Bytes) : Bytes :=
  (readWord ((fun input => (readWord input).2)^[n] input)).1

/-- The line is a greeting with this version text. -/
def HelloText (line text : Bytes) : Prop :=
  ∃ input, payload line = some input ∧ wordAt 0 input = helloWord ∧
    wordAt 1 input = versionKey ++ text

/-- The line tells the end of the run with this text of the exit code. -/
def StoppedText (line text : Bytes) : Prop :=
  ∃ input, payload line = some input ∧ wordAt 0 input = eventWord ∧ wordAt 1 input = stoppedWord ∧
    wordAt 2 input = exitCodeKey ++ text

/-- A greeting has the version in its text and an end of the run the exit code in its text. -/
def ReadsRight (line : Bytes) : Prop :=
  ∀ frame, parseRuntimeFrame line = some frame →
    (frame.event = .hello → ∃ text, HelloText line text ∧ IntegerText text runtimeProtocolVersion) ∧
    (frame.event = .stopped → ∃ text, StoppedText line text ∧ IntegerText text frame.exitCode)

/-- An exit code fits into an `int`, and a version is not the right one only after wrapping
around. -/
def NumbersFit (line : Bytes) : Prop :=
  ∀ text n, DecimalText text n →
    (HelloText line text → n < 2 ^ 32 ∨ n % 2 ^ 32 ≠ 1) ∧ (StoppedText line text → n < 2 ^ 31)

/-! ### Numbers -/

section Numbers

theorem wrap_step (parsed digit : ℤ) :
    wrap (wrap (wrap parsed * 10) + digit) = wrap (parsed * 10 + digit) := by
  unfold wrap
  rw [Int.bmod_mul_bmod, Int.bmod_add_bmod]

theorem parseDigits_eq (text : Bytes) (m : ℕ) : parseDigits (wrap m) text =
      if text.all Char.isDigit then some (wrap (Nat.ofDigitChars 10 text m)) else none := by
  induction text generalizing m with
  | nil => rfl
  | cons c rest ih =>
    have hdigit := Input.isDigit_iff (c := c)
    rw [parseDigits, List.all_cons]
    by_cases hc : c.isDigit = true
    · have hrange := hdigit.mp hc
      have hnext : (m : ℤ) * 10 + ((c.toNat : ℤ) - 48) =
        ((10 * m + (c.toNat - '0'.toNat) : ℕ) : ℤ) := by
        have hzero : '0'.toNat = 48 := rfl
        omega
      rw [if_neg (by omega), wrap_step, hnext, ih, hc, Bool.true_and, Nat.ofDigitChars_cons]
    · rw [if_pos (by rw [hdigit] at hc; omega), Bool.eq_false_iff.mpr hc, Bool.false_and,
        if_neg (by decide)]

theorem parseInt_eq_some {text : Bytes} {value : ℤ} :
    parseInt text = some value ↔ ∃ n : ℕ, DecimalText text n ∧ value = wrap n := by
  have hzero : wrap (0 : ℕ) = 0 := Int.zero_bmod
  have hdigits := parseDigits_eq text 0
  rw [hzero] at hdigits
  rw [parseInt, hdigits]
  constructor
  · intro h
    split_ifs at h with hne hall
    exact ⟨_, ⟨hne, List.all_eq_true.mp hall, rfl⟩, (Option.some.inj h).symm⟩
  · rintro ⟨n, ⟨hne, hall, hn⟩, hvalue⟩
    rw [if_neg hne, if_pos (List.all_eq_true.mpr hall), hn, hvalue]

variable {n : ℕ}

theorem wrap_of_lt (h : n < 2 ^ 31) : wrap n = n := by
  unfold wrap
  rw [Int.bmod_def]
  omega

theorem wrap_lt (value : ℤ) : wrap value < 2 ^ 31 := by
  unfold wrap
  rw [Int.bmod_def]
  omega

theorem wrap_eq_one : wrap n = 1 ↔ n % 2 ^ 32 = 1 := by
  unfold wrap
  rw [Int.bmod_def]
  omega

theorem value_unique {text : Bytes} {value : ℤ} (h : DecimalText text n)
    (hvalue : IntegerText text value) :
    value = n := by
  cases hvalue with
  | plain h' => rw [← h.value, ← h'.value]
  | negative h' => cases h.digits '-' List.mem_cons_self

end Numbers

/-! ### Words -/

section Words

theorem readWord_word {spaces word rest : Bytes} (hspaces : ∀ c ∈ spaces, isSpace c = true)
    (hne : word ≠ [])
    (hword : ∀ c ∈ word, isSpace c = false) (hrest : ∀ c ∈ rest.head?, isSpace c = true) :
    readWord (spaces ++ word ++ rest) = (word, rest) := by
  obtain ⟨first, others, rfl⟩ := List.exists_cons_of_ne_nil hne
  have hfirst : isSpace first = false := hword first List.mem_cons_self
  have hkeep : ∀ c ∈ first :: others, (!isSpace c) = true :=
    fun c hc => by rw [hword c hc, Bool.not_false]
  have hskip : (spaces ++ (first :: others) ++ rest).dropWhile isSpace = first :: others ++
    rest := by
    rw [List.append_assoc, List.dropWhile_append_of_pos hspaces, List.cons_append,
      List.dropWhile_cons_of_neg (by simp [hfirst])]
  have hstop : rest.takeWhile (fun c => !isSpace c) = [] ∧
    rest.dropWhile (fun c => !isSpace c) = rest := by
    cases rest with
    | nil => exact ⟨rfl, rfl⟩
    | cons c rest =>
      have hc : isSpace c = true := hrest c rfl
      exact ⟨List.takeWhile_cons_of_neg (by simp [hc]), List.dropWhile_cons_of_neg (by simp [hc])⟩
  rw [readWord, hskip, List.takeWhile_append_of_pos hkeep, List.dropWhile_append_of_pos hkeep,
    hstop.1, hstop.2, List.append_nil]

/-- The decision by the first three words. -/
def parseWords (kind value exitCode : Bytes) : Option RuntimeFrame :=
  if kind = helloWord then
    if versionKey <+: value then
      match parseInt (value.drop 8) with
      | none => none
      | some parsed => if parsed ≠ (runtimeProtocolVersion : ℤ) then none
          else some { event := .hello }
    else none
  else if kind ≠ eventWord ∧ kind ≠ errorWord then none
  else
    if kind = errorWord then
      if ¬codeKey <+: value ∨ value.length = 5 then none
        else some { event := .error, code := value.drop 5 }
    else if value = startingWord then some { event := .starting }
    else if value = runningWord then some { event := .running }
    else if value = stoppedWord then
      if exitCodeKey <+: exitCode then
        match parseInt (exitCode.drop 10) with
        | none => none
        | some parsed => some { event := .stopped, exitCode := parsed }
      else none
    else none

theorem parsePayload_eq (input : Bytes) :
    parsePayload input = parseWords (wordAt 0 input) (wordAt 1 input) (wordAt 2 input) := rfl

theorem parseWords_hello (text exitCode : Bytes) :
    parseWords helloWord (versionKey ++ text) exitCode =
      if parseInt text = some 1 then some { event := .hello } else none := by
  have hdrop : (versionKey ++ text).drop 8 = text := List.drop_left' rfl
  rw [parseWords, if_pos rfl, if_pos (List.prefix_append _ _), hdrop]
  cases hparsed : parseInt text with
  | none => rfl
  | some parsed =>
    have hversion : (runtimeProtocolVersion : ℤ) = 1 := rfl
    by_cases hone : parsed = 1
    · simp only [hone, hversion, ne_eq, not_true_eq_false, if_false, if_true]
    · simp only [hone, hversion, ne_eq, not_false_eq_true, if_true, Option.some.injEq, if_false]

theorem parseWords_stopped (text : Bytes) : parseWords eventWord stoppedWord (exitCodeKey ++ text) =
      (parseInt text).map fun exitCode => { event := .stopped, exitCode := exitCode } := by
  have hdrop : (exitCodeKey ++ text).drop 10 = text := List.drop_left' rfl
  rw [parseWords, if_neg (by decide), if_neg (by decide), if_neg (by decide), if_neg (by decide),
    if_neg (by decide), if_pos rfl, if_pos (List.prefix_append _ _), hdrop]
  cases parseInt text <;> rfl

variable {kind value exitCode : Bytes} {frame : RuntimeFrame}

theorem parseWords_cases (h : parseWords kind value exitCode = some frame) :
    kind = helloWord ∧ (∃ text, value = versionKey ++ text) ∧ frame.event = .hello ∨
      kind = errorWord ∧ frame.event = .error ∨
      kind = eventWord ∧ value = startingWord ∧ frame.event = .starting ∨
      kind = eventWord ∧ value = runningWord ∧ frame.event = .running ∨
      kind = eventWord ∧ value = stoppedWord ∧ (∃ text, exitCode = exitCodeKey ++ text) ∧
        frame.event = .stopped := by
  by_cases hhello : kind = helloWord
  · by_cases hkey : versionKey <+: value
    · obtain ⟨text, rfl⟩ := hkey
      rw [hhello, parseWords_hello] at h
      split_ifs at h
      cases h
      exact .inl ⟨hhello, ⟨text, rfl⟩, rfl⟩
    · rw [parseWords, if_pos hhello, if_neg hkey] at h
      cases h
  · by_cases hother : kind ≠ eventWord ∧ kind ≠ errorWord
    · rw [parseWords, if_neg hhello, if_pos hother] at h
      cases h
    · by_cases herror : kind = errorWord
      · rw [parseWords, if_neg hhello, if_neg hother, if_pos herror] at h
        split_ifs at h
        cases h
        exact .inr (.inl ⟨herror, rfl⟩)
      · have hevent : kind = eventWord := by
          by_contra hne
          exact hother ⟨hne, herror⟩
        rw [parseWords, if_neg hhello, if_neg hother, if_neg herror] at h
        by_cases hstarting : value = startingWord
        · rw [if_pos hstarting] at h
          cases h
          exact .inr (.inr (.inl ⟨hevent, hstarting, rfl⟩))
        · by_cases hrunning : value = runningWord
          · rw [if_neg hstarting, if_pos hrunning] at h
            cases h
            exact .inr (.inr (.inr (.inl ⟨hevent, hrunning, rfl⟩)))
          · by_cases hstopped : value = stoppedWord
            · rw [if_neg hstarting, if_neg hrunning, if_pos hstopped] at h
              by_cases hkey : exitCodeKey <+: exitCode
              · obtain ⟨text, rfl⟩ := hkey
                rw [if_pos (List.prefix_append _ _)] at h
                split at h
                · cases h
                · cases h
                  exact .inr (.inr (.inr (.inr ⟨hevent, hstopped, ⟨text, rfl⟩, rfl⟩)))
              · rw [if_neg hkey] at h
                cases h
            · rw [if_neg hstarting, if_neg hrunning, if_neg hstopped] at h
              cases h

end Words

/-! ### Reading -/

section Reading

variable {line text text' : Bytes}

theorem helloText_unique (h : HelloText line text) (h' : HelloText line text') : text' = text := by
  obtain ⟨input, hinput, -, hvalue⟩ := h
  obtain ⟨input', hinput', -, hvalue'⟩ := h'
  rw [hinput, Option.some.injEq] at hinput'
  rw [← hinput', hvalue] at hvalue'
  exact (List.append_cancel_left hvalue').symm

theorem stoppedText_unique (h : StoppedText line text) (h' : StoppedText line text') :
    text' = text := by
  obtain ⟨input, hinput, -, -, hvalue⟩ := h
  obtain ⟨input', hinput', -, -, hvalue'⟩ := h'
  rw [hinput, Option.some.injEq] at hinput'
  rw [← hinput', hvalue] at hvalue'
  exact (List.append_cancel_left hvalue').symm

theorem parse_hello (h : HelloText line text) :
    parseRuntimeFrame line = if parseInt text = some 1 then some { event := .hello } else none := by
  obtain ⟨input, hinput, hkind, hvalue⟩ := h
  rw [parseRuntimeFrame, hinput, Option.bind_some, parsePayload_eq, hkind, hvalue, parseWords_hello]

theorem parse_stopped (h : StoppedText line text) :
    parseRuntimeFrame line = (parseInt text).map fun exitCode =>
      { event := .stopped, exitCode := exitCode } := by
  obtain ⟨input, hinput, hkind, hvalue, hcode⟩ := h
  rw [parseRuntimeFrame, hinput, Option.bind_some, parsePayload_eq, hkind, hvalue, hcode,
    parseWords_stopped]

theorem text_of_frame {frame : RuntimeFrame} (h : parseRuntimeFrame line = some frame) :
    (frame.event = .hello → ∃ text, HelloText line text) ∧
      (frame.event = .stopped → ∃ text, StoppedText line text) := by
  obtain ⟨input, hinput, hframe⟩ := Option.bind_eq_some_iff.mp h
  rw [parsePayload_eq] at hframe
  rcases parseWords_cases hframe with ⟨hkind, ⟨text, hvalue⟩, hevent⟩ | ⟨-, hevent⟩ | ⟨-, -,
    hevent⟩ | ⟨-, -, hevent⟩ |
    ⟨hkind, hvalue, ⟨text, hcode⟩, hevent⟩
  · refine ⟨fun _ => ⟨text, input, hinput, hkind, hvalue⟩, fun hother => ?_⟩
    rw [hevent] at hother
    cases hother
  · rw [hevent]
    exact ⟨nofun, nofun⟩
  · rw [hevent]
    exact ⟨nofun, nofun⟩
  · rw [hevent]
    exact ⟨nofun, nofun⟩
  · refine ⟨fun hother => ?_, fun _ => ⟨text, input, hinput, hkind, hvalue, hcode⟩⟩
    rw [hevent] at hother
    cases hother

/-- The numbers of a line are read as they stand exactly if they fit. -/
theorem readsRight_iff (line : Bytes) : ReadsRight line ↔ NumbersFit line := by
  constructor
  · intro h text n hn
    have hparsed : parseInt text = some (wrap n) := parseInt_eq_some.mpr ⟨n, hn, rfl⟩
    refine ⟨fun htext => ?_, fun htext => ?_⟩
    · by_contra hbad
      rw [not_or, not_not] at hbad
      have hframe := parse_hello htext
      rw [hparsed, wrap_eq_one.mpr hbad.2, if_pos rfl] at hframe
      obtain ⟨text', htext', hone⟩ := (h _ hframe).1 rfl
      rw [helloText_unique htext htext'] at hone
      have hvalue := value_unique hn hone
      have hone : (runtimeProtocolVersion : ℤ) = 1 := rfl
      omega
    · have hframe := parse_stopped htext
      rw [hparsed, Option.map_some] at hframe
      obtain ⟨text', htext', hcode⟩ := (h _ hframe).2 rfl
      rw [stoppedText_unique htext htext'] at hcode
      have hvalue := value_unique hn hcode
      have hlt := wrap_lt n
      dsimp only at hvalue
      omega
  · intro h frame hframe
    obtain ⟨hhello, hstopped⟩ := text_of_frame hframe
    refine ⟨fun hevent => ?_, fun hevent => ?_⟩
    · obtain ⟨text, htext⟩ := hhello hevent
      rw [parse_hello htext] at hframe
      split_ifs at hframe with hone
      obtain ⟨n, hn, hvalue⟩ := parseInt_eq_some.mp hone
      have hmod := wrap_eq_one.mp hvalue.symm
      have hfits := (h text n hn).1 htext
      obtain rfl : n = 1 := by omega
      exact ⟨text, htext, .plain hn⟩
    · obtain ⟨text, htext⟩ := hstopped hevent
      rw [parse_stopped htext] at hframe
      obtain ⟨value, hparsed, rfl⟩ := Option.map_eq_some_iff.mp hframe
      obtain ⟨n, hn, hvalue⟩ := parseInt_eq_some.mp hparsed
      rw [wrap_of_lt ((h text n hn).2 htext)] at hvalue
      rw [hvalue]
      exact ⟨text, htext, .plain hn⟩

end Reading

/-! ### Sending and reading -/

section Sending

/-- Characters that are read as one word. -/
structure IsWord (word : Bytes) : Prop where
  nonempty : word ≠ []
  inside : ∀ c ∈ word, isSpace c = false

theorem payload_line (body : Bytes) : payload (linePrefix ++ body ++ ['\n']) = some body := by
  have hpre : linePrefix <+: linePrefix ++ body := List.prefix_append _ _
  rw [payload, List.getLast?_concat, if_pos rfl, List.dropLast_concat, if_pos hpre, List.drop_left]

theorem isSpace_head (rest : Bytes) : ∀ c ∈ (' ' :: rest).head?, isSpace c = true := by
  intro c hc
  obtain rfl : c = ' ' := by simpa [eq_comm] using hc
  rfl

variable {word first second : Bytes}

theorem readWord_space (h : IsWord word) (rest : Bytes) :
    readWord (word ++ ' ' :: rest) = (word, ' ' :: rest) :=
  @readWord_word [] word _ nofun h.nonempty h.inside (isSpace_head rest)

theorem readWord_after {rest : Bytes} (h : IsWord word) :
    readWord (' ' :: word) = (word, []) ∧
      readWord (' ' :: (word ++ ' ' :: rest)) = (word, ' ' :: rest) := by
  have hspaces : ∀ c ∈ [' '], isSpace c = true := List.forall_iff_forall_mem.mp (by decide)
  refine ⟨?_, readWord_word hspaces h.nonempty h.inside (isSpace_head rest)⟩
  have hlast := @readWord_word [' '] word [] hspaces h.nonempty h.inside nofun
  rw [List.append_nil] at hlast
  exact hlast

theorem wordAt_two (hfirst : IsWord first) (hsecond : IsWord second) :
    wordAt 0 (first ++ ' ' :: second) = first ∧ wordAt 1 (first ++ ' ' :: second) = second := by
  constructor
  · change (readWord (first ++ ' ' :: second)).1 = first
    rw [readWord_space hfirst]
  · change (readWord (readWord (first ++ ' ' :: second)).2).1 = second
    rw [readWord_space hfirst, (@readWord_after _ [] hsecond).1]

theorem wordAt_three {third : Bytes} (hfirst : IsWord first) (hsecond : IsWord second)
    (hthird : IsWord third) : wordAt 0 (first ++ ' ' :: (second ++ ' ' :: third)) = first ∧
      wordAt 1 (first ++ ' ' :: (second ++ ' ' :: third)) = second ∧
      wordAt 2 (first ++ ' ' :: (second ++ ' ' :: third)) = third := by
  refine ⟨?_, ?_, ?_⟩
  · change (readWord (first ++ ' ' :: (second ++ ' ' :: third))).1 = first
    rw [readWord_space hfirst]
  · change (readWord (readWord (first ++ ' ' :: (second ++ ' ' :: third))).2).1 = second
    rw [readWord_space hfirst, (readWord_after hsecond).2]
  · change (readWord (readWord (readWord (first ++ ' ' :: (second ++ ' ' :: third))).2).2).1 = third
    rw [readWord_space hfirst, (readWord_after hsecond).2, (@readWord_after _ [] hthird).1]

theorem isWord_number {key : Bytes} (hkey : ∀ c ∈ key, isSpace c = false) (value : ℤ) :
    IsWord (key ++ toText value) := by
  refine ⟨fun hnil => Input.toText_ne_nil value (List.append_eq_nil_iff.mp hnil).2, fun c hc => ?_⟩
  rcases List.mem_append.mp hc with hc | hc
  · exact hkey c hc
  · by_contra hspace
    rw [Bool.not_eq_false] at hspace
    have hrange : c.toNat = 32 ∨ 9 ≤ c.toNat ∧ c.toNat ≤ 13 := by simpa [isSpace] using hspace
    refine Input.notin_toText value (c := c) ?_ ?_ hc
    · rw [Bool.eq_false_iff, ne_eq, Input.isDigit_iff]
      omega
    · rintro rfl
      revert hrange
      decide

theorem isWord_event : IsWord eventWord := ⟨by decide, List.forall_iff_forall_mem.mp (by decide)⟩

theorem isWord_stopped : IsWord stoppedWord :=
  ⟨by decide, List.forall_iff_forall_mem.mp (by decide)⟩

theorem exitCodeKey_inside : ∀ c ∈ exitCodeKey, isSpace c = false :=
  List.forall_iff_forall_mem.mp (by decide)

theorem stoppedText_line (exitCode : Int32) :
    StoppedText (Sent.stopped exitCode).line (toText exitCode.toInt) := by
  obtain ⟨hkind, hvalue, hcode⟩ := wordAt_three isWord_event isWord_stopped
    (isWord_number exitCodeKey_inside exitCode.toInt)
  refine ⟨_, ?_, hkind, hvalue, hcode⟩
  rw [Sent.line, List.append_assoc linePrefix]
  exact payload_line _

theorem decimalText_toText (n : ℕ) : DecimalText (toText n) n := by
  rw [Input.toText_natCast]
  exact ⟨Nat.toDigits_ne_nil, List.all_eq_true.mp (Input.all_isDigit_toDigits n),
    Nat.ofDigitChars_ten_toDigits⟩

theorem roundTrips_stopped (exitCode : Int32) : RoundTrips (.stopped exitCode) ↔
    0 ≤ exitCode.toInt := by
  have hframe := parse_stopped (stoppedText_line exitCode)
  constructor
  · rintro ⟨frame, hparse, -, -⟩
    rw [hframe] at hparse
    obtain ⟨value, hvalue, -⟩ := Option.map_eq_some_iff.mp hparse
    obtain ⟨n, hn, -⟩ := parseInt_eq_some.mp hvalue
    by_contra hnegative
    have hminus : '-' ∈ toText exitCode.toInt := by
      rw [toText, if_pos (by omega)]
      exact List.mem_cons_self
    cases hn.digits '-' hminus
  · intro hpos
    obtain ⟨n, hn⟩ := Int.eq_ofNat_of_zero_le hpos
    have hlt : n < 2 ^ 31 := by
      have := exitCode.toInt_lt
      omega
    have hparsed : parseInt (toText exitCode.toInt) = some exitCode.toInt := by
      rw [hn]
      exact parseInt_eq_some.mpr ⟨n, decimalText_toText n, (wrap_of_lt hlt).symm⟩
    rw [hparsed, Option.map_some] at hframe
    refine ⟨_, hframe, rfl, fun other heq => ?_, by simp⟩
    cases heq
    rfl

theorem roundTrips_error (code : ErrorCode) : RoundTrips (.error code) := by
  have hkey : ∀ c ∈ codeKey, isSpace c = false := List.forall_iff_forall_mem.mp (by decide)
  have hword : IsWord (codeKey ++ code.text) := by
    refine ⟨fun hnil => code.nonempty (List.append_eq_nil_iff.mp hnil).2, fun c hc => ?_⟩
    exact (List.mem_append.mp hc).elim (hkey c) (code.word c)
  have hfirst : IsWord errorWord := ⟨by decide, List.forall_iff_forall_mem.mp (by decide)⟩
  obtain ⟨hkind, hvalue⟩ := wordAt_two hfirst hword
  have hlength : (codeKey ++ code.text).length ≠ 5 := by
    have := List.length_pos_iff.mpr code.nonempty
    rw [List.length_append]
    exact fun h => by simp only [codeKey, List.length_cons, List.length_nil] at h; omega
  have hdrop : (codeKey ++ code.text).drop 5 = code.text := List.drop_left' rfl
  have hpayload : payload (Sent.error code).line =
    some (errorWord ++ ' ' :: (codeKey ++ code.text)) := by
    rw [Sent.line, List.append_assoc linePrefix]
    exact payload_line _
  refine ⟨{ event := .error, code := code.text }, ?_, rfl, nofun, fun other heq => ?_⟩
  · rw [parseRuntimeFrame, hpayload, Option.bind_some, parsePayload_eq, hkind, hvalue, parseWords,
      if_neg (by decide), if_neg (by decide), if_pos rfl, if_neg, hdrop]
    rw [not_or, not_not]
    exact ⟨List.prefix_append _ _, hlength⟩
  · cases heq
    rfl

theorem roundTrips_iff_readable (sent : Sent) : RoundTrips sent ↔ sent.Readable := by
  cases sent with
  | hello => exact iff_of_true ⟨{ event := .hello }, by decide +kernel, rfl, nofun, nofun⟩ trivial
  | starting =>
    exact iff_of_true ⟨{ event := .starting }, by decide +kernel, rfl, nofun, nofun⟩ trivial
  | running =>
    exact iff_of_true ⟨{ event := .running }, by decide +kernel, rfl, nofun, nofun⟩ trivial
  | framePresented =>
    refine iff_of_false ?_ id
    rintro ⟨frame, -, hevent, -⟩
    cases hevent
  | stopped exitCode => exact roundTrips_stopped exitCode
  | error code => exact iff_of_true (roundTrips_error code) trivial

end Sending

/-- Which lines come back as what was sent, and which lines have their numbers read as they
stand. -/
theorem frames_right_iff (sent : Sent) (line : Bytes) :
    (RoundTrips sent ↔ sent.Readable) ∧ (ReadsRight line ↔ NumbersFit line) :=
  ⟨roundTrips_iff_readable sent, readsRight_iff line⟩

/-- A greeting of a version far too high. -/
def wrappedGreeting : Bytes :=
  linePrefix ++ helloWord ++ ' ' :: (versionKey ++ toText (4294967297 : ℕ)) ++ ['\n']

/-- A negative exit code and a presented frame are lost, and a wrong version is taken for the right
one. -/
theorem frames_lost :
    parseRuntimeFrame (Sent.stopped (-1)).line = none ∧
      parseRuntimeFrame Sent.framePresented.line = none ∧
      ¬RoundTrips (.stopped (-1)) ∧ ¬RoundTrips .framePresented ∧ ¬ReadsRight wrappedGreeting := by
  have hstopped : parseRuntimeFrame (Sent.stopped (-1)).line = none := by decide +kernel
  have hframe : parseRuntimeFrame Sent.framePresented.line = none := by decide +kernel
  refine ⟨hstopped, hframe, ?_, ?_, fun h => ?_⟩
  · rintro ⟨frame, hparse, -⟩
    rw [hstopped] at hparse
    cases hparse
  · rintro ⟨frame, hparse, -⟩
    rw [hframe] at hparse
    cases hparse
  · have hgreeting : parseRuntimeFrame wrappedGreeting = some { event := .hello } := by
      decide +kernel
    have htext : HelloText wrappedGreeting (toText (4294967297 : ℕ)) :=
      ⟨helloWord ++ ' ' :: (versionKey ++ toText (4294967297 : ℕ)),
        by decide +kernel, by decide +kernel, by decide +kernel⟩
    obtain ⟨text, hother, hone⟩ := (h _ hgreeting).1 rfl
    rw [helloText_unique htext hother] at hone
    have hvalue := value_unique (decimalText_toText 4294967297) hone
    revert hvalue
    decide

end PS4Droid.Runtime
