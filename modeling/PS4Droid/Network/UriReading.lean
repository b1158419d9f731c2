import PS4Droid.Network.UriSweep

/-!
# The parts of a URI

The strings that `sceHttpUriParse` finds in its input, without a pool. The size query does the same
on offsets.
-/

namespace PS4Droid.Network.Http

open Lockstep

/-- What an element stands for. -/
structure UriParts where
  isOpaque : Bool := false
  scheme : List UInt8 := []
  username : List UInt8 := []
  password : List UInt8 := []
  hostname : List UInt8 := []
  port : UInt16 := 0
  path : List UInt8 := []
  query : List UInt8 := []
  fragment : List UInt8 := []
  deriving DecidableEq

/-- What is still to be read, the bytes that the strings take, and the parts so far. -/
structure UriReading where
  rest : List UInt8
  size : ℕ := 0
  parts : UriParts := {}

abbrev UriRead := Option (Step UriStatus UriReading)

def UriReading.advance (r : UriReading) (used consumed : ℕ) (parts : UriParts) : UriReading :=
  ⟨r.rest.drop consumed, r.size + used, parts⟩

def readScheme (r : UriReading) : UriRead :=
  match schemeLen r.rest with
  | some n => some (.goesOn (r.advance (n + 1) (n + 1) { r.parts with scheme := r.rest.take n }))
  | none => some (.goesOn (r.advance 1 0 { r.parts with scheme := [] }))

def readSlashes (r : UriReading) : UriRead :=
  let slashCount := (BitVec.ofNat 32 (r.rest.takeWhile (· = 47)).length).toInt
  if 2 ≤ slashCount then some (.goesOn (r.advance 0 2 r.parts))
  else some (.goesOn (r.advance 0 0 { r.parts with isOpaque := true }))

def readUserinfo (r : UriReading) : UriRead :=
  match scanAuthority r.rest 0 none with
  | (some colonPos, some atPos) =>
    let passOffset := colonPos + 1
    let passLen := atPos - passOffset
    some (.goesOn (r.advance (passOffset + passLen + 1) (atPos + 1)
      { r.parts with username := r.rest.take colonPos, password :=
        (r.rest.drop passOffset).take passLen }))
  | (none, some atPos) =>
    some (.goesOn (r.advance (atPos + 1 + 0 + 1) (atPos + 1)
      { r.parts with username := r.rest.take atPos, password := [] }))
  | (_, none) => some (.goesOn (r.advance 2 0 { r.parts with username := [], password := [] }))

def readHost (r : UriReading) : UriRead :=
  match hostSpan r.rest with
  | none => some (.stopped .invalidUrl r)
  | some host =>
    some (.goesOn (r.advance (host.storedHostLen + 1) host.hostScanLen
      { r.parts with hostname := (r.rest.drop host.copyStart).take host.storedHostLen }))

def readDefaultPort (r : UriReading) : UInt16 :=
  (schemeDefaultPort r.parts.scheme).getD r.parts.port

def readPort (r : UriReading) : UriRead :=
  match r.rest with
  | 58 :: digits =>
    let (digitsLen, port32) := scanPort 5 digits 0
    if 0x10000 < port32 then some (.stopped .invalidUrl r)
    else if (digits.drop digitsLen).head?.any (· ≠ 47) then some (.stopped .invalidUrl r)
    else some (.goesOn (r.advance 0 (1 + digitsLen)
      { r.parts with port := if 0 < digitsLen then UInt16.ofNat port32 else readDefaultPort r }))
  | _ => some (.goesOn (r.advance 0 0 { r.parts with port := readDefaultPort r }))

def readPath (r : UriReading) : UriRead :=
  match scanUntil (fun c => c = 63 ∨ c = 35) r.rest 0 with
  | none => some (.stopped .invalidUrl r)
  | some n => some
      (.goesOn (r.advance (n + 1) n { r.parts with path := sweptPath (r.rest.take n) }))

def readMarked (mark : UInt8) (stops : UInt8 → Bool) (setPart : UriParts → List UInt8 → UriParts)
    (r : UriReading) : UriRead :=
  match if r.rest.head? = some mark then scanUntil stops r.rest.tail 1 else some 0 with
  | none => some (.stopped .invalidUrl r)
  | some n => some (.goesOn (r.advance (n + 1) n (setPart r.parts (r.rest.take n))))

def readQuery (r : UriReading) : UriRead :=
  readMarked 63 (· = 35) (fun parts text => { parts with query := text }) r

def readFragment (r : UriReading) : UriRead :=
  readMarked 35 (fun _ => false) (fun parts text => { parts with fragment := text }) r

def readParts (srcUri : List UInt8) : UriRead :=
  andThen
    (andThen (andThen
    (andThen (andThen (andThen (andThen (readScheme { rest := srcUri }) readSlashes) readUserinfo)
    readHost) readPort) readPath) readQuery) readFragment

/-! ### Behind the host -/

section Port

variable {r : UriReading} {call : UriCall} {s : UriState} {digits : List UInt8}

theorem readPort_colon (h : r.rest = 58 :: digits) : readPort r =
    if 0x10000 < (scanPort 5 digits 0).2 then some (.stopped .invalidUrl r)
    else if (digits.drop (scanPort 5 digits 0).1).head?.any (· ≠ 47) then
      some (.stopped .invalidUrl r)
    else some (.goesOn (r.advance 0 (1 + (scanPort 5 digits 0).1) { r.parts with
      port := if 0 < (scanPort 5 digits 0).1 then UInt16.ofNat (scanPort 5 digits 0).2
        else readDefaultPort r })) := by
  rw [readPort, h]
  rfl

theorem readPort_other (h : ∀ digits, r.rest ≠ 58 :: digits) :
    readPort r = some (.goesOn (r.advance 0 0 { r.parts with port := readDefaultPort r })) := by
  rw [readPort]
  split
  · exact absurd ‹_› (h _)
  · rfl

theorem parsePort_colon (h : call.input s = 58 :: digits) : parsePort call s =
    if 0x10000 < (scanPort 5 digits 0).2 then some (.stopped .invalidUrl s)
    else if (digits.drop (scanPort 5 digits 0).1).head?.any (· ≠ 47) then
      some (.stopped .invalidUrl s)
    else setPort call (if 0 < (scanPort 5 digits 0).1 then
      some (UInt16.ofNat (scanPort 5 digits 0).2) else none) (1 + (scanPort 5 digits 0).1) s := by
  rw [parsePort, h]
  rfl

theorem parsePort_other (h : ∀ digits, call.input s ≠ 58 :: digits) :
    parsePort call s = setPort call none 0 s := by
  rw [parsePort]
  split
  · exact absurd ‹_› (h _)
  · rfl

end Port

/-! ### Each part takes room -/

theorem goesOn_grows {slack slack' used consumed : ℕ} {r : UriReading} {parts : UriParts}
    (h : slack ≤ used + slack') :
    (∃ status r',
      (some (.goesOn (r.advance used consumed parts)) : UriRead) = some (.stopped status r')) ∨
      ∃ r', (some (.goesOn (r.advance used consumed parts)) : UriRead) = some (.goesOn r') ∧
        r.size + slack ≤ r'.size + slack' :=
  .inr ⟨_, rfl, by dsimp only [UriReading.advance]; omega⟩

theorem readSlashes_grows : Grows UriReading.size 1 1 readSlashes := by
  intro r
  rw [readSlashes]
  dsimp only
  split
  · exact goesOn_grows (by omega)
  · exact goesOn_grows (by omega)

theorem readUserinfo_grows : Grows UriReading.size 1 0 readUserinfo := by
  intro r
  rw [readUserinfo]
  split
  · exact goesOn_grows (by omega)
  · exact goesOn_grows (by omega)
  · exact goesOn_grows (by omega)

theorem readHost_grows : Grows UriReading.size 0 0 readHost := by
  intro r
  rw [readHost]
  split
  · exact .inl ⟨_, _, rfl⟩
  · exact goesOn_grows (Nat.zero_le _)

theorem readPort_grows : Grows UriReading.size 0 0 readPort := by
  intro r
  by_cases hcolon : ∃ digits, r.rest = 58 :: digits
  · obtain ⟨digits, hrest⟩ := hcolon
    rw [readPort_colon hrest]
    split_ifs
    · exact .inl ⟨_, _, rfl⟩
    · exact .inl ⟨_, _, rfl⟩
    · exact goesOn_grows (Nat.zero_le _)
    · exact goesOn_grows (Nat.zero_le _)
  · rw [readPort_other fun digits hrest => hcolon ⟨digits, hrest⟩]
    exact goesOn_grows (Nat.zero_le _)

theorem readPath_grows : Grows UriReading.size 0 0 readPath := by
  intro r
  rw [readPath]
  split
  · exact .inl ⟨_, _, rfl⟩
  · exact goesOn_grows (Nat.zero_le _)

theorem readMarked_grows (mark : UInt8) (stops : UInt8 → Bool)
    (setPart : UriParts → List UInt8 → UriParts) :
    Grows UriReading.size 0 0 (readMarked mark stops setPart) := by
  intro r
  rw [readMarked]
  split
  · exact .inl ⟨_, _, rfl⟩
  · exact goesOn_grows (Nat.zero_le _)

/-! ### The reading stops at what is no URI -/

theorem goesOn_stopsWith (r : UriReading) :
    StopsWith (· = .invalidUrl) (some (.goesOn r) : UriRead) :=
  fun _ _ h => by cases h

theorem stopped_stopsWith (r : UriReading) :
    StopsWith (· = .invalidUrl) (some (.stopped .invalidUrl r) : UriRead) :=
  fun _ _ h => (Step.stopped.inj (Option.some.inj h)).1.symm

theorem readScheme_stops (r : UriReading) : StopsWith (· = .invalidUrl) (readScheme r) := by
  rw [readScheme]
  split <;> exact goesOn_stopsWith _

theorem readSlashes_stops (r : UriReading) : StopsWith (· = .invalidUrl) (readSlashes r) := by
  rw [readSlashes]
  dsimp only
  split <;> exact goesOn_stopsWith _

theorem readUserinfo_stops (r : UriReading) : StopsWith (· = .invalidUrl) (readUserinfo r) := by
  rw [readUserinfo]
  split <;> exact goesOn_stopsWith _

theorem readHost_stops (r : UriReading) : StopsWith (· = .invalidUrl) (readHost r) := by
  rw [readHost]
  split
  · exact stopped_stopsWith r
  · exact goesOn_stopsWith _

theorem readPort_stops (r : UriReading) : StopsWith (· = .invalidUrl) (readPort r) := by
  by_cases hcolon : ∃ digits, r.rest = 58 :: digits
  · obtain ⟨digits, hrest⟩ := hcolon
    rw [readPort_colon hrest]
    split
    · exact stopped_stopsWith r
    split
    · exact stopped_stopsWith r
    · exact goesOn_stopsWith _
  · rw [readPort_other fun digits hrest => hcolon ⟨digits, hrest⟩]
    exact goesOn_stopsWith _

theorem readPath_stops (r : UriReading) : StopsWith (· = .invalidUrl) (readPath r) := by
  rw [readPath]
  split
  · exact stopped_stopsWith r
  · exact goesOn_stopsWith _

theorem readMarked_stops (mark : UInt8) (stops : UInt8 → Bool)
    (setPart : UriParts → List UInt8 → UriParts) (r : UriReading) :
    StopsWith (· = .invalidUrl) (readMarked mark stops setPart r) := by
  rw [readMarked]
  split
  · exact stopped_stopsWith r
  · exact goesOn_stopsWith _

theorem readParts_stops (srcUri : List UInt8) : StopsWith (· = .invalidUrl) (readParts srcUri) :=
  (((((((readScheme_stops _).andThen readSlashes_stops).andThen readUserinfo_stops).andThen
    readHost_stops).andThen
    readPort_stops).andThen readPath_stops).andThen (readMarked_stops _ _ _)).andThen
      (readMarked_stops _ _ _)

/-! ### The size query -/

/-- The query has come as far. -/
structure Mirrors (srcUri : List UInt8) (r : UriReading) (s : UriState) : Prop where
  used : s.poolUsed = r.size
  rest : srcUri.drop s.inputOffset = r.rest

section Query

variable {srcUri : List UInt8} {r : UriReading} {s : UriState} {prepare : ℕ}

theorem Mirrors.advance (h : Mirrors srcUri r s) (used consumed : ℕ) (parts : UriParts) :
    Mirrors srcUri (r.advance used consumed parts) (s.advance used consumed) :=
  ⟨congrArg (· + used) h.used, by rw [UriReading.advance, UriState.advance, ← h.rest,
    List.drop_drop]⟩

theorem component_alike (h : Mirrors srcUri r s) (needed used consumed : ℕ)
    (fill : UriState → Option UriState) (parts : UriParts) :
    Alike (Mirrors srcUri) (some (.goesOn (r.advance used consumed parts)) : UriRead)
      (component ⟨srcUri, false, prepare⟩ needed used consumed fill s) :=
  .goesOn (h.advance used consumed parts)

theorem setPort_alike (h : Mirrors srcUri r s) (explicitPort : Option UInt16) (consumed : ℕ)
    (parts : UriParts) :
    Alike (Mirrors srcUri) (some (.goesOn (r.advance 0 consumed parts)) : UriRead)
      (setPort ⟨srcUri, false, prepare⟩ explicitPort consumed s) :=
  .goesOn (h.advance 0 consumed parts)

theorem parseSlashes_alike (h : Mirrors srcUri r s) :
    Alike (Mirrors srcUri) (readSlashes r) (parseSlashes ⟨srcUri, false, prepare⟩ s) := by
  rw [readSlashes, parseSlashes, UriCall.input, h.rest]
  dsimp only
  split
  · exact .goesOn (h.advance 0 2 _)
  · exact .goesOn (h.advance 0 0 _)

theorem parseUserinfo_alike (h : Mirrors srcUri r s) :
    Alike (Mirrors srcUri) (readUserinfo r) (parseUserinfo ⟨srcUri, false, prepare⟩ s) := by
  rw [readUserinfo, parseUserinfo, UriCall.input, h.rest]
  rcases scanAuthority r.rest 0 none with ⟨_ | colonPos, _ | atPos⟩
  · exact component_alike h _ _ _ _ _
  · exact component_alike h _ _ _ _ _
  · exact component_alike h _ _ _ _ _
  · exact component_alike h _ _ _ _ _

theorem parseHost_alike (h : Mirrors srcUri r s) :
    Alike (Mirrors srcUri) (readHost r) (parseHost ⟨srcUri, false, prepare⟩ s) := by
  rw [readHost, parseHost, UriCall.input, h.rest]
  cases hostSpan r.rest with
  | none => exact .stopped
  | some host => exact component_alike h _ _ _ _ _

theorem parsePort_alike (h : Mirrors srcUri r s) :
    Alike (Mirrors srcUri) (readPort r) (parsePort ⟨srcUri, false, prepare⟩ s) := by
  have hinput : UriCall.input ⟨srcUri, false, prepare⟩ s = r.rest := h.rest
  by_cases hcolon : ∃ digits, r.rest = 58 :: digits
  · obtain ⟨digits, hrest⟩ := hcolon
    rw [readPort_colon hrest, parsePort_colon (hinput.trans hrest)]
    split_ifs
    · exact .stopped
    · exact .stopped
    · exact setPort_alike h _ _ _
    · exact setPort_alike h _ _ _
  · have hother : ∀ digits, r.rest ≠ 58 :: digits := fun digits hrest => hcolon ⟨digits, hrest⟩
    rw [readPort_other hother, parsePort_other fun digits hcolon =>
      hother digits (hinput.symm.trans hcolon)]
    exact setPort_alike h _ _ _

theorem parsePath_alike (h : Mirrors srcUri r s) :
    Alike (Mirrors srcUri) (readPath r) (parsePath ⟨srcUri, false, prepare⟩ s) := by
  rw [readPath, parsePath, UriCall.input, h.rest]
  cases scanUntil (fun c => c = 63 ∨ c = 35) r.rest 0 with
  | none => exact .stopped
  | some n => exact component_alike h _ _ _ _ _

theorem parseMarked_alike (mark : UInt8) (stops : UInt8 → Bool)
    (setPart : UriParts → List UInt8 → UriParts)
    (setField : OrbisHttpUriElement → ℕ → OrbisHttpUriElement) (h : Mirrors srcUri r s) :
    Alike (Mirrors srcUri) (readMarked mark stops setPart r)
      (parseMarked mark stops setField ⟨srcUri, false, prepare⟩ s) := by
  rw [readMarked, parseMarked, UriCall.input, h.rest]
  cases if r.rest.head? = some mark then scanUntil stops r.rest.tail 1 else some 0 with
  | none => exact .stopped
  | some n => exact component_alike h _ _ _ _ _

theorem parseParts_alike (srcUri pool : List UInt8) (prepare : ℕ) (out : OrbisHttpUriElement) :
    Alike (Mirrors srcUri) (readParts srcUri)
      (parseParts ⟨srcUri, false, prepare⟩ { poolUsed := 0, inputOffset := 0, pool, out }) := by
  have hstart : Mirrors srcUri { rest := srcUri } { poolUsed := 0, inputOffset := 0, pool, out } :=
    ⟨rfl, rfl⟩
  have hscheme : Alike (Mirrors srcUri) (readScheme { rest := srcUri })
      (parseScheme ⟨srcUri, false, prepare⟩ { poolUsed := 0, inputOffset := 0, pool, out }) := by
    rw [readScheme, parseScheme]
    dsimp only
    cases schemeLen srcUri with
    | none | some n => exact component_alike hstart _ _ _ _ _
  exact ((((((hscheme.andThen fun _ _ => parseSlashes_alike).andThen fun _ _ =>
    parseUserinfo_alike).andThen
    fun _ _ => parseHost_alike).andThen fun _ _ => parsePort_alike).andThen fun _ _ =>
      parsePath_alike).andThen
    fun _ _ => parseMarked_alike _ _ _ _).andThen fun _ _ => parseMarked_alike _ _ _ _

end Query

end PS4Droid.Network.Http
