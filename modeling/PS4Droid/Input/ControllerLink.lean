import Mathlib.Data.Rat.Floor
import PS4Droid.Input.ControllerSnapshot

/-!
# The controller link

Both ends of the connection that carries controller snapshots: `ControllerFrameEncoder` on the
Android side and the loop of `RuntimeClient::StartInputReader` on the native side. The reader takes
one byte at a time, so the chunks in which the bytes arrive do not matter.

The snapshots of the Android side hold single-precision numbers. What the encoder needs of their
arithmetic is a `FloatFormat`.
-/

namespace PS4Droid.Input

/-- Single-precision numbers: their values, and the rounding of exact results. Small integers are
exact, and NaN has no value. -/
structure FloatFormat (F : Type) where
  value : F → Option ℚ
  round : ℚ → ℚ
  round_mono : ∀ a b, a ≤ b → round a ≤ round b
  round_int : ∀ n : ℕ, n ≤ 2 ^ 24 → round n = n

/-- `roundToInt` of a number; it throws on NaN. -/
def roundToInt (x : ℚ) : ℤ := ⌊x + 1 / 2⌋

def coerceIn (value minimum maximum : ℤ) : ℤ := max minimum (min value maximum)

/-- `ControllerSnapshot` of the Android side, as `normalized` makes it: the touch position is within
the touch pad, unless it is NaN. -/
structure Snapshot (F : Type) (format : FloatFormat F) where
  buttons : ℤ
  leftX : F
  leftY : F
  rightX : F
  rightY : F
  leftTrigger : F
  rightTrigger : F
  touchDown : Bool
  touchX : F
  touchY : F
  buttons_mem : -2 ^ 63 ≤ buttons ∧ buttons < 2 ^ 63
  touchX_mem : ∀ x ∈ format.value touchX, 0 ≤ x ∧ x ≤ 1
  touchY_mem : ∀ y ∈ format.value touchY, 0 ≤ y ∧ y ≤ 1
  deriving DecidableEq

/-- The numbers of a frame. -/
structure Quantised where
  buttons : ℤ
  leftX : ℤ
  leftY : ℤ
  rightX : ℤ
  rightY : ℤ
  leftTrigger : ℤ
  rightTrigger : ℤ
  touchDown : Bool
  touchX : ℤ
  touchY : ℤ

/-- The text of a number. -/
def toText (value : ℤ) : Bytes :=
  if value < 0 then '-' :: Nat.toDigits 10 value.natAbs else Nat.toDigits 10 value.natAbs

def token (field : Field) (value : ℤ) : Bytes := field.key ++ '=' :: toText value

/-- The fields of a frame. -/
def fields (slot sequence : ℤ) (numbers : Quantised) : List (Field × ℤ) := [
  (.slot, slot),
  (.seq, sequence),
  (.buttons, numbers.buttons),
  (.lx, numbers.leftX),
  (.ly, numbers.leftY),
  (.rx, numbers.rightX),
  (.ry, numbers.rightY),
  (.l2, numbers.leftTrigger),
  (.r2, numbers.rightTrigger),
  (.touch, if numbers.touchDown then 1 else 0),
  (.tx, numbers.touchX),
  (.ty, numbers.touchY)]

def tokens (slot sequence : ℤ) (numbers : Quantised) : List Bytes :=
  (fields slot sequence numbers).map fun entry => token entry.1 entry.2

/-- The line for a snapshot. -/
def frame (slot sequence : ℤ) (numbers : Quantised) : Bytes :=
  framePrefix ++ List.intercalate [' '] (tokens slot sequence numbers) ++ ['\n']

section Encoder

variable {F : Type} {format : FloatFormat F}

def stickByte (format : FloatFormat F) (value : F) : Option ℤ :=
  (format.value value).map fun x =>
    coerceIn (roundToInt (format.round (format.round (x + 1) * (255 / 2)))) 0 255

def triggerByte (format : FloatFormat F) (value : F) : Option ℤ :=
  (format.value value).map fun x => coerceIn (roundToInt (format.round (x * 255))) 0 255

def touchCoordinate (format : FloatFormat F) (value : F) (maximum : ℕ) : Option ℤ :=
  (format.value value).map fun x => roundToInt (format.round (x * maximum))

/-- The numbers that `encode` writes, in the order of their computation. -/
def quantise (snapshot : Snapshot F format) : Option Quantised := do
  let leftX ← stickByte format snapshot.leftX
  let leftY ← stickByte format snapshot.leftY
  let rightX ← stickByte format snapshot.rightX
  let rightY ← stickByte format snapshot.rightY
  let leftTrigger ← triggerByte format snapshot.leftTrigger
  let rightTrigger ← triggerByte format snapshot.rightTrigger
  let touchX ← touchCoordinate format snapshot.touchX 1919
  let touchY ← touchCoordinate format snapshot.touchY 1079
  return {
    buttons := snapshot.buttons
    leftX := leftX
    leftY := leftY
    rightX := rightX
    rightY := rightY
    leftTrigger := leftTrigger
    rightTrigger := rightTrigger
    touchDown := snapshot.touchDown
    touchX := touchX
    touchY := touchY }

variable [DecidableEq F]

/-- `ControllerFrameEncoder`; the arrays have the indices 0 to 3. -/
structure Encoder (F : Type) (format : FloatFormat F) where
  sequence : ℤ → ℤ
  previous : ℤ → Option (Snapshot F format)

def Encoder.create : Encoder F format where
  sequence _ := 0
  previous _ := none

/-- `encode`; `none` is an exception. On NaN the exception comes after the two assignments. -/
def Encoder.encode (encoder : Encoder F format) (slot : ℤ) (snapshot : Snapshot F format) :
    Encoder F format × Option Bytes :=
  if ¬ (0 ≤ slot ∧ slot ≤ 3) then (encoder, none)
  else if encoder.previous slot = some snapshot then (encoder, some [])
  else
    let sequence := (encoder.sequence slot + 1).bmod (2 ^ 64)
    ({ previous := Function.update encoder.previous slot (some snapshot)
       sequence := Function.update encoder.sequence slot sequence },
      (quantise snapshot).map (frame slot sequence))

/-- One call of `encode`. -/
structure Submission (F : Type) (format : FloatFormat F) where
  slot : ℤ
  snapshot : Snapshot F format
  deriving DecidableEq

/-- The bytes that a sequence of calls sends. -/
def Encoder.send (encoder : Encoder F format) : List (Submission F format) → Bytes
  | [] => []
  | submission :: rest =>
    let (encoder, bytes) := encoder.encode submission.slot submission.snapshot
    bytes.getD [] ++ Encoder.send encoder rest

end Encoder

def maxInputFrameBytes : ℕ := 512

/-- The variables of the input loop. -/
structure Reader where
  line : Bytes
  overflow : Bool
  lastSequence : ℤ → ℕ
  received : ℤ → Bool
  handled : List ControllerSnapshot

namespace Reader

def create : Reader where
  line := []
  overflow := false
  lastSequence _ := 0
  received _ := false
  handled := []

/-- A complete line: the handler is called if it is a new snapshot of its slot. -/
def accept (reader : Reader) (snapshot : ControllerSnapshot) : Reader :=
  if reader.received snapshot.slot = false ∨
    reader.lastSequence snapshot.slot < snapshot.sequence then
    { reader with
      handled := reader.handled ++ [snapshot]
      lastSequence := Function.update reader.lastSequence snapshot.slot snapshot.sequence
      received := Function.update reader.received snapshot.slot true }
  else reader

def endLine (reader : Reader) : Reader :=
  let reader' :=
    if reader.overflow then reader
    else
      match parseControllerSnapshot (reader.line ++ ['\n']) with
      | none => reader
      | some snapshot => reader.accept snapshot
  { reader' with line := [], overflow := false }

/-- One byte comes in. -/
def receive (reader : Reader) (value : Char) : Reader :=
  if value ≠ '\n' then
    if reader.line.length < maxInputFrameBytes then { reader with line := reader.line ++ [value] }
    else { reader with overflow := true }
  else reader.endLine

def run (reader : Reader) (bytes : Bytes) : Reader := bytes.foldl receive reader

/-- What the handler gets for a slot at the end of the connection. -/
def neutral (reader : Reader) (slot : ℤ) : ControllerSnapshot :=
  { slot := slot
    sequence :=
      if reader.lastSequence slot = 2 ^ 64 - 1 then reader.lastSequence slot
      else reader.lastSequence slot + 1 }

/-- The calls of the handler after the connection has ended. -/
def disconnect (reader : Reader) : List ControllerSnapshot :=
  ([0, 1, 2, 3].filter reader.received).map reader.neutral

end Reader

end PS4Droid.Input
