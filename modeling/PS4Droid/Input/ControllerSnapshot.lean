import Mathlib.Algebra.Ring.Int.Defs
import Mathlib.Algebra.Ring.Nat
import Mathlib.Data.List.Basic

/-!
# Controller snapshots as text

`ParseControllerSnapshot` of `controller_snapshot.cpp`. A byte is the character with its code.
-/

namespace PS4Droid.Input

abbrev Bytes := List Char

structure ControllerSnapshot where
  slot : ℤ := 0
  sequence : ℕ := 0
  buttons : ℕ := 0
  leftX : ℤ := 128
  leftY : ℤ := 128
  rightX : ℤ := 128
  rightY : ℤ := 128
  leftTrigger : ℤ := 0
  rightTrigger : ℤ := 0
  touchDown : Bool := false
  touchX : ℤ := 0
  touchY : ℤ := 0
  deriving DecidableEq

/-- The keys of a line, in the order of their indices. -/
inductive Field where
  | slot
  | seq
  | buttons
  | lx
  | ly
  | rx
  | ry
  | l2
  | r2
  | touch
  | tx
  | ty
  deriving DecidableEq

namespace Field

def all : List Field := [slot, seq, buttons, lx, ly, rx, ry, l2, r2, touch, tx, ty]

def key : Field → Bytes
  | slot => ['s', 'l', 'o', 't']
  | seq => ['s', 'e', 'q']
  | buttons => ['b', 'u', 't', 't', 'o', 'n', 's']
  | lx => ['l', 'x']
  | ly => ['l', 'y']
  | rx => ['r', 'x']
  | ry => ['r', 'y']
  | l2 => ['l', '2']
  | r2 => ['r', '2']
  | touch => ['t', 'o', 'u', 'c', 'h']
  | tx => ['t', 'x']
  | ty => ['t', 'y']

def ofKey (key : Bytes) : Option Field := all.find? fun field => field.key = key

end Field

/-- The text before the fields. -/
def framePrefix : Bytes :=
  ['B', 'A', 'C', 'H', 'A', 'T', 'A', '/', '1', ' ', 'I', 'N', 'P', 'U', 'T', ' ']

/-- `std::from_chars` of an unsigned number that takes the whole text. -/
def parseUnsigned (text : Bytes) : Option ℕ :=
  if text ≠ [] ∧ text.all Char.isDigit then
    let value := Nat.ofDigitChars 10 text 0
    if value < 2 ^ 64 then some value else none
  else none

def hexValue (c : Char) : Option ℕ :=
  if c.isDigit then some (c.toNat - 48)
  else if 'a' ≤ c ∧ c ≤ 'f' then some (c.toNat - 87)
  else if 'A' ≤ c ∧ c ≤ 'F' then some (c.toNat - 55)
  else none

/-- The same in base 16. -/
def parseHex (text : Bytes) : Option ℕ :=
  if text = [] then none
  else
    match text.mapM hexValue with
    | none => none
    | some digits =>
      let value := digits.foldl (fun value digit => 16 * value + digit) 0
      if value < 2 ^ 64 then some value else none

/-- `std::from_chars` of an `int` that takes the whole text. -/
def parseInt (text : Bytes) : Option ℤ :=
  let (negative, digits) := match text with
    | '-' :: rest => (true, rest)
    | rest => (false, rest)
  if digits ≠ [] ∧ digits.all Char.isDigit then
    let magnitude : ℤ := Nat.ofDigitChars 10 digits 0
    let value := if negative then -magnitude else magnitude
    if -2 ^ 31 ≤ value ∧ value < 2 ^ 31 then some value else none
  else none

/-- An `int` between zero and `maximum`. -/
def parseRange (maximum : ℤ) (text : Bytes) : Option ℤ :=
  match parseInt text with
  | none => none
  | some value => if 0 ≤ value ∧ value ≤ maximum then some value else none

def parseButtons (text : Bytes) : Option ℕ :=
  if ['0', 'x'] <+: text then parseHex (text.drop 2) else parseUnsigned text

/-- The value of one field goes into the snapshot. -/
def setField (result : ControllerSnapshot) (value : Bytes) : Field → Option ControllerSnapshot
  | .slot => (parseRange 3 value).map fun slot => { result with slot := slot }
  | .seq => (parseUnsigned value).map fun sequence => { result with sequence := sequence }
  | .buttons => (parseButtons value).map fun buttons => { result with buttons := buttons }
  | .lx => (parseRange 255 value).map fun x => { result with leftX := x }
  | .ly => (parseRange 255 value).map fun y => { result with leftY := y }
  | .rx => (parseRange 255 value).map fun x => { result with rightX := x }
  | .ry => (parseRange 255 value).map fun y => { result with rightY := y }
  | .l2 => (parseRange 255 value).map fun trigger => { result with leftTrigger := trigger }
  | .r2 => (parseRange 255 value).map fun trigger => { result with rightTrigger := trigger }
  | .touch => (parseRange 1 value).map fun (touch : ℤ) => { result with touchDown := touch = 1 }
  | .tx => (parseRange 1919 value).map fun x => { result with touchX := x }
  | .ty => (parseRange 1079 value).map fun y => { result with touchY := y }

/-- The key and the value around the first `=`. -/
def splitToken (token : Bytes) : Option (Bytes × Bytes) :=
  match token.dropWhile (· ≠ '=') with
  | [] => none
  | _ :: value =>
    let key := token.takeWhile (· ≠ '=')
    if key = [] ∨ value = [] then none else some (key, value)

/-- The loop over the tokens, after the fields that `seen` holds. An empty token has no key, so two
spaces in a row and a space at the end fail as well. -/
def parseTokens (result : ControllerSnapshot) (seen : List Field) :
    List Bytes → Option (ControllerSnapshot × List Field)
  | [] => some (result, seen)
  | token :: rest =>
    match splitToken token with
    | none => none
    | some (key, value) =>
      match Field.ofKey key with
      | none => none
      | some field =>
        match setField result value field with
        | none => none
        | some result => if field ∈ seen then none else parseTokens result (field :: seen) rest

/-- All keys were there, or all but the slot. -/
def complete (seen : List Field) : Bool := seen.length = 12 ∨ seen.length = 11 ∧ .slot ∉ seen

def parseControllerSnapshot (line : Bytes) : Option ControllerSnapshot :=
  if framePrefix <+: line ∧ line.getLast? = some '\n' then
    let body := (line.drop framePrefix.length).dropLast
    (parseTokens {} [] (if body = [] then [] else body.splitOn ' ')).bind fun parsed =>
      if complete parsed.2 then some parsed.1 else none
  else none

/-- The fields are in their ranges. -/
structure ControllerSnapshot.InRange (snapshot : ControllerSnapshot) : Prop where
  slot : 0 ≤ snapshot.slot ∧ snapshot.slot ≤ 3
  sequence : snapshot.sequence < 2 ^ 64
  buttons : snapshot.buttons < 2 ^ 64
  leftX : 0 ≤ snapshot.leftX ∧ snapshot.leftX ≤ 255
  leftY : 0 ≤ snapshot.leftY ∧ snapshot.leftY ≤ 255
  rightX : 0 ≤ snapshot.rightX ∧ snapshot.rightX ≤ 255
  rightY : 0 ≤ snapshot.rightY ∧ snapshot.rightY ≤ 255
  leftTrigger : 0 ≤ snapshot.leftTrigger ∧ snapshot.leftTrigger ≤ 255
  rightTrigger : 0 ≤ snapshot.rightTrigger ∧ snapshot.rightTrigger ≤ 255
  touchX : 0 ≤ snapshot.touchX ∧ snapshot.touchX ≤ 1919
  touchY : 0 ≤ snapshot.touchY ∧ snapshot.touchY ≤ 1079

variable {text : Bytes} {value : ℕ} {result snapshot : ControllerSnapshot}

theorem parseRange_bounds {maximum value : ℤ} (h : parseRange maximum text = some value) :
    0 ≤ value ∧ value ≤ maximum := by
  unfold parseRange at h
  split at h
  · cases h
  · split_ifs at h with hbounds
    cases h
    exact hbounds

theorem parseUnsigned_lt (h : parseUnsigned text = some value) :
    value < 2 ^ 64 := by
  unfold parseUnsigned at h
  dsimp only at h
  split_ifs at h with hdigits hlt
  cases h
  exact hlt

theorem parseButtons_lt (h : parseButtons text = some value) : value < 2 ^ 64 := by
  unfold parseButtons at h
  split_ifs at h with hhex
  · unfold parseHex at h
    split_ifs at h with hempty
    split at h
    · cases h
    · dsimp only at h
      split_ifs at h with hlt
      cases h
      exact hlt
  · exact parseUnsigned_lt h

theorem setField_inRange {value : Bytes} {field : Field}
    (hrange : result.InRange) (h : setField result value field = some snapshot) :
    snapshot.InRange := by
  cases field
  case seq =>
    obtain ⟨sequence, hvalue, rfl⟩ := Option.map_eq_some_iff.mp h
    exact { hrange with sequence := parseUnsigned_lt hvalue }
  case buttons =>
    obtain ⟨buttons, hvalue, rfl⟩ := Option.map_eq_some_iff.mp h
    exact { hrange with buttons := parseButtons_lt hvalue }
  case touch =>
    obtain ⟨touch, hvalue, rfl⟩ := Option.map_eq_some_iff.mp h
    exact { hrange with }
  all_goals
    obtain ⟨value, hvalue, rfl⟩ := Option.map_eq_some_iff.mp h
    have hbounds := parseRange_bounds hvalue
    cases hrange
    constructor <;> assumption

theorem parseTokens_inRange {tokens : List Bytes}
    {seen seen' : List Field} (hrange : result.InRange)
    (h : parseTokens result seen tokens = some (snapshot, seen')) : snapshot.InRange := by
  induction tokens generalizing result seen with
  | nil =>
    cases h
    exact hrange
  | cons token rest ih =>
    rw [parseTokens] at h
    split at h
    · cases h
    split at h
    · cases h
    split at h
    · cases h
    rename_i hset
    split_ifs at h
    exact ih (setField_inRange hrange hset) h

theorem inRange_default : ({} : ControllerSnapshot).InRange := by
  constructor <;> decide

theorem parseControllerSnapshot_inRange {line : Bytes}
    (h : parseControllerSnapshot line = some snapshot) : snapshot.InRange := by
  unfold parseControllerSnapshot at h
  split_ifs at h with hline
  obtain ⟨⟨result, seen⟩, hparsed, hresult⟩ := Option.bind_eq_some_iff.mp h
  split_ifs at hresult
  cases hresult
  exact parseTokens_inRange inRange_default hparsed

end PS4Droid.Input
