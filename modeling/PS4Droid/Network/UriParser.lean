import PS4Droid.Foundations.BoundedBuffers
import PS4Droid.Foundations.Lockstep

/-!
# Parsing a URI

`sceHttpUriParse` and `sceHttpUriSweepPath`. An input string is given by its bytes in front of the
terminator, the pool by its mapped bytes and a pointer into the pool by its offset. Every access
outside of a buffer is a fault: the result is none.
-/

namespace PS4Droid.Network.Http

open ByteStrings BoundedBuffers Lockstep

inductive UriStatus where
  | ok
  | invalidUrl
  | invalidValue
  | outOfMemory
  deriving DecidableEq

/-- The element; a null pointer is none. -/
structure OrbisHttpUriElement where
  isOpaque : Bool := false
  scheme : Option ℕ := none
  username : Option ℕ := none
  password : Option ℕ := none
  hostname : Option ℕ := none
  path : Option ℕ := none
  query : Option ℕ := none
  fragment : Option ℕ := none
  port : UInt16 := 0
  deriving DecidableEq

/-! ### Characters -/

def isdigit (c : UInt8) : Bool := 48 ≤ c ∧ c ≤ 57

def isalpha (c : UInt8) : Bool := (65 ≤ c ∧ c ≤ 90) ∨ (97 ≤ c ∧ c ≤ 122)

def isalnum (c : UInt8) : Bool := isalpha c ∨ isdigit c

def tolower (c : UInt8) : UInt8 := if 65 ≤ c ∧ c ≤ 90 then c + 32 else c

def isUserinfoPunct (c : UInt8) : Bool :=
  c ∈ [0x21, 0x24, 0x25, 0x26, 0x27, 0x28, 0x29, 0x2a, 0x2b, 0x2c, 0x2d, 0x2e, 0x3a, 0x3b, 0x3d,
    0x5f, 0x7e]

/-! ### C strings -/

/-- `memcpy` of `n` bytes of a source from an offset on. -/
def memcpy (pool : List UInt8) (dest : ℕ) (source : List UInt8) (offset n : ℕ) :
    Option (List UInt8) := do
  let bytes ← slice source offset n
  store pool dest bytes

/-- The first place of a byte in front of the terminator, in a buffer that holds it. -/
def strchr : List UInt8 → UInt8 → Option (Option ℕ)
  | [], _ => none
  | b :: rest, c =>
    if b = c then some (some 0) else if b = 0 then some none
      else (strchr rest c).map (Option.map (· + 1))

def lastIndex (c : UInt8) : List UInt8 → Option ℕ
  | [] => none
  | b :: rest =>
    match lastIndex c rest with
    | some i => some (i + 1)
    | none => if b = c then some 0 else none

/-- The last place of a byte in the string at `start`. -/
def strrchr (pool : List UInt8) (start : ℕ) (c : UInt8) : Option (Option ℕ) :=
  (cString pool start).map fun text => (lastIndex c text).map (start + ·)

/-! ### Sweeping a path -/

/-- What stands at a position of a path. -/
inductive Segment where
  | current
  | parent
  | text

/-- `./`, `../` or something else; later bytes are read only where the ones before match. -/
def segmentAt (src : List UInt8) (srcPos : ℕ) : Option Segment := do
  let first ← src[srcPos]?
  if first ≠ 46 then some .text
  else
    let second ← src[srcPos + 1]?
    if second = 47 then some .current
    else if second ≠ 46 then some .text
    else
      let third ← src[srcPos + 2]?
      some (if third = 47 then .parent else .text)

/-- The path without its last segment, and the new end. -/
def dropSegment (pool : List UInt8) (dst : ℕ) (segmentEnd : Option ℕ) :
    Option (List UInt8 × Option ℕ) :=
  if segmentEnd = some dst then some (pool, some dst)
  else do
    let stop ← segmentEnd
    let pool ← store pool stop [0]
    match ← strrchr pool dst 47 with
    | none => some (pool, none)
    | some prevSlash =>
      let pool ← store pool (prevSlash + 1) [0]
      some (pool, some prevSlash)

/-- Up to the next slash, or all that remains: how many bytes are copied. -/
def copyLength (src : List UInt8) (srcSize srcPos : ℕ) : Option ℕ := do
  let nextSlash ← strchr (src.drop srcPos) 47
  let remaining := srcSize - srcPos - 1
  match nextSlash with
  | none => some remaining
  | some i => some (if i + 1 ≤ remaining then i + 1 else remaining)

def sweepLoop (dst : ℕ) (src : List UInt8) (srcSize : ℕ) : ℕ → List UInt8 → ℕ → Option ℕ →
    Option (List UInt8)
  | 0, _, _, _ => none
  | fuel + 1, pool, srcPos, segmentEnd =>
    if srcPos < srcSize - 1 then
      match segmentAt src srcPos with
      | none => none
      | some .current => sweepLoop dst src srcSize fuel pool (srcPos + 2) segmentEnd
      | some .parent =>
        match dropSegment pool dst segmentEnd with
        | none => none
        | some (pool, newSegmentEnd) =>
            sweepLoop dst src srcSize fuel pool (srcPos + 3) newSegmentEnd
      | some .text => do
        let copyLen ← copyLength src srcSize srcPos
        let stop ← segmentEnd
        let pool ← memcpy pool (stop + 1) src srcPos copyLen
        let pool ← store pool (stop + copyLen + 1) [0]
        sweepLoop dst src srcSize fuel pool (srcPos + copyLen) (some (stop + copyLen))
    else some pool

def sweepBytes (pool : List UInt8) (dst : ℕ) (src : List UInt8) (srcSize : ℕ) :
    Option (List UInt8) := do
  let first ← src[0]?
  if first ≠ 47 then
    let pool ← memcpy pool dst src 0 (srcSize - 1)
    store pool (dst + (srcSize - 1)) [0]
  else
    let pool ← store pool dst [47]
    let pool ← store pool (dst + 1) [0]
    if srcSize - 1 ≤ 1 then some pool else sweepLoop dst src srcSize srcSize pool 1 (some dst)

def sceHttpUriSweepPath (pool : List UInt8) (dst : Option ℕ) (src : Option (List UInt8))
    (srcSize : ℕ) :
    Option (UriStatus × List UInt8) :=
  if srcSize = 0 then some (.ok, pool)
  else
    match dst, src with
    | some dst, some src => (sweepBytes pool dst src srcSize).map (.ok, ·)
    | _, _ => some (.invalidValue, pool)

/-! ### Scans of the input -/

/-- The characters that may stand in a scheme. -/
def scanScheme : ℕ → List UInt8 → ℕ
  | 0, _ => 0
  | _, [] => 0
  | n + 1, c :: rest =>
    if c = 58 then 0
    else if ¬isalnum c ∧ c ≠ 43 ∧ c ≠ 45 ∧ c ≠ 46 then 0
    else scanScheme n rest + 1

/-- The length of the scheme, if there is one. -/
def schemeLen (srcUri : List UInt8) : Option ℕ :=
  let i := scanScheme 0x20 srcUri
  if 0 < i ∧ srcUri[i]? = some 58 ∧ srcUri.head?.any isalpha then some i else none

/-- The scan of the user information: where the first colon and where the `@` stands. -/
def scanAuthority : List UInt8 → ℕ → Option ℕ → Option ℕ × Option ℕ
  | [], _, colonPos => (colonPos, none)
  | c :: rest, scanPos, colonPos =>
    if c = 64 then (colonPos, some scanPos)
    else if colonPos = none ∧ c = 58 then scanAuthority rest (scanPos + 1) (some scanPos)
    else if 0x80 ≤ c then (colonPos, none)
    else if ¬isalnum c ∧ ¬isUserinfoPunct c then (colonPos, none)
    else scanAuthority rest (scanPos + 1) colonPos

/-- The scan of a host, none where it is too long. -/
def scanHost (ipv6 : Bool) : List UInt8 → ℕ → Option ℕ
  | [], hostScanLen => if hostScanLen = 0xff then none else some hostScanLen
  | c :: rest, hostScanLen =>
    if hostScanLen = 0xff then none
    else if 0x80 ≤ c then some hostScanLen
    else if ¬isalnum c ∧ c ≠ 45 ∧ c ≠ 46 ∧ c ≠ 95 ∧ ¬(ipv6 ∧ c = 58) then some hostScanLen
    else scanHost ipv6 rest (hostScanLen + 1)

/-- A host in the input: how many bytes are scanned, where its text starts and how many are
stored. -/
structure HostSpan where
  hostScanLen : ℕ
  copyStart : ℕ
  storedHostLen : ℕ

def hostSpan (hostStart : List UInt8) : Option HostSpan :=
  match hostStart with
  | 46 :: _ => some ⟨0, 0, 0⟩
  | 91 :: rest =>
    match scanHost true rest 1 with
    | none => none
    | some n => if hostStart[n]? ≠ some 93 then none else some ⟨n + 1, 1, n - 1⟩
  | _ => (scanHost false hostStart 0).map fun n => ⟨n, 0, n⟩

/-- The digits of a port, five at most: how many and their value. -/
def scanPort : ℕ → List UInt8 → ℕ → ℕ × ℕ
  | 0, _, port32 => (0, port32)
  | _, [], port32 => (0, port32)
  | n + 1, c :: rest, port32 =>
    if isdigit c then
      let scanned := scanPort n rest (port32 * 10 + (c.toNat - 48))
      (scanned.1 + 1, scanned.2)
    else (0, port32)

/-- The scan of a path, a query or a fragment, none where it is too long. -/
def scanUntil (stops : UInt8 → Bool) : List UInt8 → ℕ → Option ℕ
  | [], n => some n
  | c :: rest, n => if stops c then some n else if 0x3fff ≤ n then none
      else scanUntil stops rest (n + 1)

/-! ### The parser -/

/-- What a stage of the parser works on. -/
structure UriState where
  poolUsed : ℕ
  inputOffset : ℕ
  pool : List UInt8
  out : OrbisHttpUriElement

/-- The arguments that all stages read. -/
structure UriCall where
  srcUri : List UInt8
  writeOutput : Bool
  prepare : ℕ

abbrev UriRun := Option (Step UriStatus UriState)

/-- The unsigned difference of two sizes. -/
def sizeLeft (prepare poolUsed : ℕ) : ℕ :=
  if poolUsed ≤ prepare then prepare - poolUsed else prepare + 2 ^ 64 - poolUsed

def UriState.advance (s : UriState) (used consumed : ℕ) : UriState :=
  { s with poolUsed := s.poolUsed + used, inputOffset := s.inputOffset + consumed }

/-- A part of the URI that needs room in the pool: it is checked and filled if output is written. -/
def component (call : UriCall) (needed used consumed : ℕ) (fill : UriState → Option UriState)
    (s : UriState) : UriRun :=
  if call.writeOutput then
    if sizeLeft call.prepare s.poolUsed < needed then some (.stopped .outOfMemory s)
    else (fill s).map fun s => .goesOn (s.advance used consumed)
  else some (.goesOn (s.advance used consumed))

/-- One string of the input with a terminator. -/
def copyString (input : List UInt8) (offset n : ℕ)
    (setField : OrbisHttpUriElement → ℕ → OrbisHttpUriElement)
    (s : UriState) : Option UriState := do
  let pool ← memcpy s.pool s.poolUsed input offset n
  let pool ← store pool (s.poolUsed + n) [0]
  some { s with pool, out := setField s.out s.poolUsed }

def UriCall.input (call : UriCall) (s : UriState) : List UInt8 := call.srcUri.drop s.inputOffset

def setScheme (out : OrbisHttpUriElement) (p : ℕ) : OrbisHttpUriElement :=
  { out with scheme := some p }

/-- Without a scheme two bytes are asked for and one is used. -/
def parseScheme (call : UriCall) (s : UriState) : UriRun :=
  match schemeLen call.srcUri with
  | some n => component call (n + 1) (n + 1) (n + 1) (copyString call.srcUri 0 n setScheme) s
  | none => component call 2 1 0 (copyString [] 0 0 setScheme) s

def parseSlashes (call : UriCall) (s : UriState) : UriRun :=
  let slashCount := (BitVec.ofNat 32 ((call.input s).takeWhile (· = 47)).length).toInt
  if 2 ≤ slashCount then some (.goesOn (s.advance 0 2))
  else if call.writeOutput then some (.goesOn { s with out := { s.out with isOpaque := true } })
  else some (.goesOn s)

/-- User and password, with the separator's byte as the terminator of the user. -/
def copyUserinfo (authStart : List UInt8) (userLen passOffset passLen : ℕ) (s : UriState) :
    Option UriState := do
  let userDest := s.poolUsed
  let pool ← memcpy s.pool userDest authStart 0 userLen
  let pool ← store pool (userDest + userLen) [0]
  let pool ← memcpy pool (userDest + passOffset) authStart passOffset passLen
  let pool ← store pool (userDest + (passOffset + passLen)) [0]
  some { s with pool, out :=
    { s.out with username := some userDest, password := some (userDest + passOffset) } }

def emptyUserinfo (s : UriState) : Option UriState := do
  let userDest := s.poolUsed
  let pool ← store s.pool userDest [0]
  let pool ← store pool (userDest + 1) [0]
  some { s with
    pool, out := { s.out with username := some userDest, password := some (userDest + 1) } }

def parseUserinfo (call : UriCall) (s : UriState) : UriRun :=
  let authStart := call.input s
  match scanAuthority authStart 0 none with
  | (some colonPos, some atPos) =>
    let passOffset := colonPos + 1
    let passLen := atPos - passOffset
    component call (passOffset + passLen + 1) (passOffset + passLen + 1) (atPos + 1)
      (copyUserinfo authStart colonPos passOffset passLen) s
  | (none, some atPos) =>
    component call (atPos + 1 + 0 + 1) (atPos + 1 + 0 + 1) (atPos + 1)
      (copyUserinfo authStart atPos (atPos + 1) 0) s
  | (_, none) => component call 2 2 0 emptyUserinfo s

def parseHost (call : UriCall) (s : UriState) : UriRun :=
  let hostStart := call.input s
  match hostSpan hostStart with
  | none => some (.stopped .invalidUrl s)
  | some host =>
    component call (host.storedHostLen + 1) (host.storedHostLen + 1) host.hostScanLen
      (copyString hostStart host.copyStart host.storedHostLen fun out p => { out with
        hostname := some p }) s

/-- Does a text start with a target, in any case? -/
def prefixCaseEq (scheme target : List UInt8) : Bool :=
  target.length ≤ scheme.length ∧ (scheme.take target.length).map tolower = target.map tolower

/-- The port of `https`, `http` and `ttp`. -/
def schemeDefaultPort (scheme : List UInt8) : Option UInt16 :=
  if 0x20 < scheme.length then none
  else if prefixCaseEq scheme [72, 84, 84, 80, 83] then some 443
  else if prefixCaseEq scheme [72, 84, 84, 80] then some 80
  else if prefixCaseEq scheme [84, 84, 80] then some 80
  else none

def setPort (call : UriCall) (explicitPort : Option UInt16) (consumed : ℕ) (s : UriState) :
    UriRun :=
  if call.writeOutput then
    match explicitPort, s.out.scheme with
    | some port, _ => some (.goesOn ({ s with out := { s.out with port } }.advance 0 consumed))
    | none, none => some (.goesOn (s.advance 0 consumed))
    | none, some scheme =>
      match cString s.pool scheme with
      | none => none
      | some text =>
        some (.goesOn
          ({ s with out := { s.out with port := (schemeDefaultPort text).getD s.out.port } }.advance
          0 consumed))
  else some (.goesOn (s.advance 0 consumed))

def parsePort (call : UriCall) (s : UriState) : UriRun :=
  match call.input s with
  | 58 :: digits =>
    let (digitsLen, port32) := scanPort 5 digits 0
    if 0x10000 < port32 then some (.stopped .invalidUrl s)
    else if (digits.drop digitsLen).head?.any (· ≠ 47) then some (.stopped .invalidUrl s)
    else setPort call (if 0 < digitsLen then some (UInt16.ofNat port32) else none) (1 + digitsLen) s
  | _ => setPort call none 0 s

/-- The path is copied and then swept in place, from a copy of its own. -/
def copyPath (pathStart : List UInt8) (pathLen : ℕ) (s : UriState) : Option UriState := do
  let pathDest := s.poolUsed
  let pool ← memcpy s.pool pathDest pathStart 0 pathLen
  let pool ← store pool (pathDest + pathLen) [0]
  let bytes ← slice pathStart 0 pathLen
  let (_, pool) ← sceHttpUriSweepPath pool (some pathDest) (some (bytes ++ [0])) (pathLen + 1)
  some { s with pool, out := { s.out with path := some pathDest } }

def parsePath (call : UriCall) (s : UriState) : UriRun :=
  let pathStart := call.input s
  match scanUntil (fun c => c = 63 ∨ c = 35) pathStart 0 with
  | none => some (.stopped .invalidUrl s)
  | some pathLen =>
      component call (pathLen + 1) (pathLen + 1) pathLen (copyPath pathStart pathLen) s

/-- A part that starts with its mark and goes on up to a byte, or is empty. -/
def parseMarked (mark : UInt8) (stops : UInt8 → Bool)
    (setField : OrbisHttpUriElement → ℕ → OrbisHttpUriElement)
    (call : UriCall) (s : UriState) : UriRun :=
  let input := call.input s
  match if input.head? = some mark then scanUntil stops input.tail 1 else some 0 with
  | none => some (.stopped .invalidUrl s)
  | some n => component call (n + 1) (n + 1) n (copyString input 0 n setField) s

def parseQuery (call : UriCall) (s : UriState) : UriRun :=
  parseMarked 63 (· = 35) (fun out p => { out with query := some p }) call s

def parseFragment (call : UriCall) (s : UriState) : UriRun :=
  parseMarked 35 (fun _ => false) (fun out p => { out with fragment := some p }) call s

/-- The parts in the order of the input. -/
def parseParts (call : UriCall) (s : UriState) : UriRun :=
  andThen
    (andThen (andThen (andThen (andThen (andThen (andThen (parseScheme call s) (parseSlashes call))
    (parseUserinfo call)) (parseHost call)) (parsePort call)) (parsePath call)) (parseQuery call))
      (parseFragment call)

/-- The status and what stands behind the pointers. -/
structure UriOutcome where
  status : UriStatus
  out : Option OrbisHttpUriElement
  pool : Option (List UInt8)
  require : Option ℕ

def sceHttpUriParse (out : Option OrbisHttpUriElement) (srcUri : Option (List UInt8))
    (pool : Option (List UInt8)) (require : Option ℕ) (prepare : ℕ) : Option UriOutcome :=
  match srcUri with
  | none => some ⟨.invalidUrl, out, pool, require⟩
  | some srcUri =>
    let writeOutput := out.isSome && pool.isSome
    if ¬writeOutput ∧ require = none then some ⟨.invalidValue, out, pool, require⟩
    else
      let given (s : UriState) := if writeOutput then (some s.out, some s.pool) else (out, pool)
      match parseParts { srcUri, writeOutput, prepare }
        { poolUsed := 0, inputOffset := 0, pool := pool.getD [], out := {} } with
      | none => none
      | some (.stopped status s) => some ⟨status, (given s).1, (given s).2, require⟩
      | some (.goesOn s) => some ⟨.ok, (given s).1, (given s).2, require.map fun _ => s.poolUsed⟩

end PS4Droid.Network.Http
