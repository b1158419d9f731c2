import Mathlib.Algebra.GroupWithZero.Nat
import PS4Droid.Foundations.Bytes

/-!
# Calls from the guest into native functions

`core/guest_cpu/hle_call_adapter.h`: `TypedHleCallAdapter::Invoke` takes the arguments of a native
function from the registers and the stack of the guest. Where the arguments are by the System V
convention is stated on its own; the cursor of the source goes through the same places.
-/

namespace PS4Droid.GuestCpu.Hle

open Bytes

/-! ### Types and values -/

/-- A type of the signature. An enumeration is its underlying type. -/
inductive CType where
  | void
  | bool
  | integer (size : ℕ) (signed : Bool)
  | functionPointer
  /-- A pointer to data with the size that is validated. -/
  | pointer (minimumSize : ℕ) (isConst : Bool)
  | float
  | double
  | other

inductive RegisterClass where
  | integer
  | vector
  deriving DecidableEq

namespace CType

/-- `sizeof`. -/
def size : CType → ℕ
  | bool => 1
  | integer size _ => size
  | functionPointer | pointer _ _ | double => 8
  | float => 4
  | void | other => 0

def isVectorArgument : CType → Bool
  | float | double => true
  | _ => false

def isIntegerArgument : CType → Bool
  | bool | integer _ _ | functionPointer | pointer _ _ => true
  | _ => false

def isSupportedArgument (t : CType) : Bool :=
  t.isIntegerArgument && decide (t.size ≤ 8) || t.isVectorArgument

def isSupportedReturn : CType → Bool
  | void => true
  | t => t.isSupportedArgument

def registerClass (t : CType) : RegisterClass := if t.isVectorArgument then .vector else .integer

end CType

inductive Value where
  | void
  | bool (b : Bool)
  | integer (size : ℕ) (signed : Bool) (bits : BitVec (8 * size))
  | pointer (address : BitVec 64)
  | float (bits : BitVec 32)
  | double (bits : BitVec 64)
  deriving DecidableEq

/-! ### The frame -/

structure HleCallFrame where
  gpr : Fin 16 → BitVec 64
  xmm : Fin 16 → BitVec 64 × BitVec 64
  rsp : BitVec 64
  validateRange : Option (ℕ → ℕ → Bool → Bool)

inductive HleCallResult where
  | success
  | failure (error : ℕ) (name : List Char)
  deriving DecidableEq

def enotsup : ℕ := 95

def efault : ℕ := 14

section Model

variable (memory : ℕ → UInt8) (frame : HleCallFrame)

local instance registers : NeZero 16 := ⟨Nat.succ_ne_zero 15⟩

def sysVIntegerArgs : List (Fin 16) := [7, 6, 2, 1, 8, 9]

@[ext]
structure CallCursor where
  integerIndex : ℕ := 0
  vectorIndex : ℕ := 0
  stackOffset : ℕ := 8

/-- The range is validated; without a validator it is not. -/
def validated (address size : ℕ) (writable : Bool) : Bool :=
  frame.validateRange.any fun validate => validate address size writable

def nextStackSlot (cursor : CallCursor) : Option (BitVec 64) × CallCursor :=
  if frame.rsp = 0 ∨ frame.rsp.toNat > 2 ^ 64 - 1 - cursor.stackOffset ∨
      ¬validated frame (frame.rsp.toNat + cursor.stackOffset) 8 false then (none, cursor)
  else
    (some (BitVec.ofNat 64 (readLE memory (frame.rsp.toNat + cursor.stackOffset) 8)),
      { cursor with stackOffset := cursor.stackOffset + 8 })

def nextInteger (cursor : CallCursor) : Option (BitVec 64) × CallCursor :=
  match sysVIntegerArgs[cursor.integerIndex]? with
  | some register => (some (frame.gpr register),
      { cursor with integerIndex := cursor.integerIndex + 1 })
  | none => nextStackSlot memory frame cursor

def nextVector (cursor : CallCursor) : Option (BitVec 64) × CallCursor :=
  if cursor.vectorIndex < 8 then
    (some (frame.xmm (Fin.ofNat 16 cursor.vectorIndex)).1,
      { cursor with vectorIndex := cursor.vectorIndex + 1 })
  else nextStackSlot memory frame cursor

/-- What `DecodeArgument` makes of a register or slot. A conversion to `bool` asks for any bit. -/
def decodeRaw (t : CType) (raw : BitVec 64) : Option Value :=
  match t with
  | .float => some (.float (raw.setWidth 32))
  | .double => some (.double raw)
  | .functionPointer => some (.pointer raw)
  | .pointer minimumSize isConst =>
    if raw ≠ 0 ∧ ¬validated frame raw.toNat minimumSize (!isConst) ∧ raw.toNat < 4096 then none
      else some (.pointer raw)
  | .bool => some (.bool (decide (raw ≠ 0)))
  | .integer size signed => some (.integer size signed (raw.setWidth (8 * size)))
  | .void | .other => none

def decodeArgument (t : CType) (cursor : CallCursor) : Option Value × CallCursor :=
  let (raw, cursor) := if t.isVectorArgument then nextVector memory frame cursor
    else nextInteger memory frame cursor
  (raw.bind (decodeRaw frame t), cursor)

/-- The tuple of arguments, from left to right. -/
def decodeArguments : List CType → CallCursor → List (Option Value)
  | [], _ => []
  | t :: rest, cursor =>
    let (value, cursor) := decodeArgument memory frame t cursor
    value :: decodeArguments rest cursor

/-- The values, if `AllDecoded`. -/
def allDecoded (decoded : List (Option Value)) : Option (List Value) :=
  if decoded.all Option.isSome then some (decoded.filterMap id) else none

def encodeReturn (value : Value) : HleCallFrame :=
  let result (bits : BitVec 64) :=
    { frame with gpr := fun r => if r = 0 then bits else frame.gpr r }
  match value with
  | .float bits =>
      { frame with xmm := fun r => if r = 0 then (bits.setWidth 64, 0) else frame.xmm r }
  | .double bits => { frame with xmm := fun r => if r = 0 then (bits, 0) else frame.xmm r }
  | .pointer address => result address
  | .bool b => result (if b then 1 else 0)
  | .integer _ signed bits => result (if signed then bits.signExtend 64 else bits.setWidth 64)
  | .void => result 0

/-- A native function with its signature. -/
structure TypedHleCallAdapter where
  name : List Char
  returnType : CType
  args : List CType
  function : List Value → Value

/-- The result of a call, the frame after it, and the arguments if the function was called. -/
structure Outcome where
  result : HleCallResult
  frame : HleCallFrame
  call : Option (List Value)

def TypedHleCallAdapter.invoke (adapter : TypedHleCallAdapter) : Outcome :=
  if ¬(adapter.args.all CType.isSupportedArgument ∧ adapter.returnType.isSupportedReturn) then
    ⟨.failure enotsup adapter.name, frame, none⟩
  else
    match allDecoded (decodeArguments memory frame adapter.args {}) with
    | none => ⟨.failure efault adapter.name, frame, none⟩
    | some values => ⟨.success, encodeReturn frame (adapter.function values), some values⟩

/-! ### The convention -/

/-- Where an argument is. -/
inductive Location where
  | gpr (register : Fin 16)
  | xmm (register : Fin 16)
  | stack (slot : ℕ)
  deriving DecidableEq

def count (c : RegisterClass) (types : List CType) : ℕ := types.countP fun t => t.registerClass = c

/-- The registers for integers in their order: `rdi`, `rsi`, `rdx`, `rcx`, `r8`, `r9`. -/
def integerRegisters : Vector (Fin 16) 6 := #v[7, 6, 2, 1, 8, 9]

/-- The place of an argument behind others: the next register of its class, or the next slot of the
stack behind those of the arguments of both classes for which there was no register. -/
def locate (before : List CType) (t : CType) : Location :=
  match t.registerClass with
  | .integer =>
    if h : count .integer before < 6 then .gpr (integerRegisters[count .integer before])
    else .stack (count .integer before - 6 + (count .vector before - 8))
  | .vector =>
    if count .vector before < 8 then .xmm (Fin.ofNat 16 (count .vector before))
    else .stack (count .integer before - 6 + (count .vector before - 8))

/-- What a place holds: the slots have eight bytes and start behind the return address. A slot must
be validated. -/
def contents : Location → Option (BitVec 64)
  | .gpr register => some (frame.gpr register)
  | .xmm register => some (frame.xmm register).1
  | .stack slot =>
    let address := frame.rsp.toNat + 8 + 8 * slot
    if frame.rsp ≠ 0 ∧ address < 2 ^ 64 ∧ validated frame address 8 false then
      some (BitVec.ofNat 64 (readLE memory address 8))
    else none

/-- A value of a type from the bytes that it has. -/
def fromBytes : (t : CType) → BitVec (8 * t.size) → Value
  | .void, _ | .other, _ => .void
  | .bool, bits => .bool (decide (bits ≠ 0))
  | .integer size signed, bits => .integer size signed bits
  | .functionPointer, bits => .pointer bits
  | .pointer _ _, bits => .pointer bits
  | .float, bits => .float bits
  | .double, bits => .double bits

/-- The value that the low bytes of a register or slot give. -/
def sysVValue (t : CType) (raw : BitVec 64) : Value := fromBytes t (raw.setWidth (8 * t.size))

end Model

/-! ### Decoded arguments -/

section Decoded

variable {memory : ℕ → UInt8} {frame : HleCallFrame} {before types : List CType} {t : CType}

/-- The cursor behind some arguments. -/
def cursorAfter (before : List CType) : CallCursor where
  integerIndex := min (count .integer before) 6
  vectorIndex := min (count .vector before) 8
  stackOffset := 8 + 8 * (count .integer before - 6 + (count .vector before - 8))

@[simp]
theorem cursorAfter_integerIndex :
    (cursorAfter before).integerIndex = min (count .integer before) 6 := rfl

@[simp]
theorem cursorAfter_vectorIndex : (cursorAfter before).vectorIndex = min (count .vector before) 8 :=
  rfl

@[simp]
theorem cursorAfter_stackOffset : (cursorAfter before).stackOffset =
    8 + 8 * (count .integer before - 6 + (count .vector before - 8)) := rfl

theorem count_concat (c : RegisterClass) (before : List CType) (t : CType) :
    count c (before ++ [t]) = count c before + if t.registerClass = c then 1 else 0 := by
  rw [count, List.countP_append, List.countP_singleton, count]
  simp only [decide_eq_true_eq]

theorem sysVIntegerArgs_eq : ∀ n (h : n < 6), sysVIntegerArgs[n]? = some integerRegisters[n] := by
  decide

theorem nextStackSlot_eq (cursor : CallCursor) (slot : ℕ) (h : cursor.stackOffset = 8 + 8 * slot) :
    nextStackSlot memory frame cursor = (contents memory frame (.stack slot),
      if (contents memory frame (.stack slot)).isSome then
        { cursor with stackOffset := 8 + 8 * (slot + 1) } else cursor) := by
  have haddress : frame.rsp.toNat + 8 + 8 * slot = frame.rsp.toNat + cursor.stackOffset := by omega
  rw [nextStackSlot, contents, haddress]
  by_cases hread : frame.rsp ≠ 0 ∧ frame.rsp.toNat + cursor.stackOffset < 2 ^ 64 ∧
      validated frame (frame.rsp.toNat + cursor.stackOffset) 8 false
  · obtain ⟨hrsp, hlt, hvalid⟩ := hread
    rw [if_neg, if_pos ⟨hrsp, hlt, hvalid⟩, h]
    · rfl
    · rintro (h | h | h)
      · exact hrsp h
      · omega
      · exact h hvalid
  · rw [if_neg hread, if_pos]
    · rfl
    · by_contra hnot
      obtain ⟨hrsp, hlt, hvalid⟩ := not_or.mp hnot |>.imp_right not_or.mp
      have hne : frame.rsp.toNat ≠ 0 := fun hzero => hrsp (BitVec.eq_of_toNat_eq hzero)
      exact hread ⟨hrsp, by omega, not_not.mp hvalid⟩

theorem registerClass_eq_integer (h : t.registerClass = .integer) : t.isVectorArgument = false := by
  rw [CType.registerClass] at h
  split at h
  · cases h
  · exact Bool.eq_false_iff.mpr ‹_›

theorem registerClass_eq_vector (h : t.registerClass = .vector) : t.isVectorArgument = true := by
  rw [CType.registerClass] at h
  split at h
  · assumption
  · cases h

/-- The cursor behind an argument that is in a register, or on the stack. -/
theorem cursorAfter_concat {cursor : CallCursor}
    (hinteger : cursor.integerIndex = min (count .integer (before ++ [t])) 6)
    (hvector : cursor.vectorIndex = min (count .vector (before ++ [t])) 8)
    (hstack : cursor.stackOffset =
      8 + 8 * (count .integer (before ++ [t]) - 6 + (count .vector (before ++ [t]) - 8))) :
    cursor = cursorAfter (before ++ [t]) := CallCursor.ext hinteger hvector hstack

/-- One argument is taken from its place, and the cursor moves behind it. -/
theorem decodeArgument_eq (before : List CType) (t : CType) :
    (decodeArgument memory frame t (cursorAfter before)).1 =
      (contents memory frame (locate before t)).bind (decodeRaw frame t) ∧
    ((contents memory frame (locate before t)).isSome →
      (decodeArgument memory frame t (cursorAfter before)).2 = cursorAfter (before ++ [t])) := by
  have hslot := @nextStackSlot_eq memory frame (cursorAfter before) _ rfl
  cases hclass : t.registerClass with
  | integer =>
    have hcounts : count .integer (before ++ [t]) = count .integer before + 1 ∧
        count .vector (before ++ [t]) = count .vector before := by
      simp [count_concat, hclass]
    rw [decodeArgument, if_neg (by simp [registerClass_eq_integer hclass]), locate, hclass]
    by_cases hregister : count .integer before < 6
    · have hindex : (cursorAfter before).integerIndex = count .integer before :=
        Nat.min_eq_left hregister.le
      rw [nextInteger, hindex, sysVIntegerArgs_eq _ hregister]
      simp only [dif_pos hregister]
      refine ⟨rfl, fun _ => cursorAfter_concat ?_ ?_ ?_⟩
      · dsimp only
        omega
      · rw [hcounts.2, cursorAfter_vectorIndex]
      · rw [hcounts.1, hcounts.2, cursorAfter_stackOffset]
        omega
    · have hindex : sysVIntegerArgs[(cursorAfter before).integerIndex]? = none := by
        rw [cursorAfter_integerIndex, Nat.min_eq_right (Nat.le_of_not_lt hregister)]
        rfl
      rw [nextInteger, hindex]
      simp only [dif_neg hregister, hslot]
      refine ⟨trivial, fun hsome => ?_⟩
      rw [if_pos hsome]
      refine cursorAfter_concat ?_ ?_ ?_
      · rw [hcounts.1, cursorAfter_integerIndex]
        omega
      · rw [hcounts.2, cursorAfter_vectorIndex]
      · dsimp only
        omega
  | vector =>
    have hcounts : count .integer (before ++ [t]) = count .integer before ∧
        count .vector (before ++ [t]) = count .vector before + 1 := by
      simp [count_concat, hclass]
    rw [decodeArgument, if_pos (registerClass_eq_vector hclass), locate, hclass, nextVector]
    by_cases hregister : count .vector before < 8
    · have hindex : (cursorAfter before).vectorIndex = count .vector before :=
        Nat.min_eq_left hregister.le
      rw [hindex]
      simp only [if_pos hregister]
      refine ⟨rfl, fun _ => cursorAfter_concat ?_ ?_ ?_⟩
      · rw [hcounts.1, cursorAfter_integerIndex]
      · dsimp only
        omega
      · rw [hcounts.1, hcounts.2, cursorAfter_stackOffset]
        omega
    · have hindex : ¬(cursorAfter before).vectorIndex < 8 := by
        rw [cursorAfter_vectorIndex]
        omega
      rw [if_neg hindex]
      simp only [if_neg hregister, hslot]
      refine ⟨trivial, fun hsome => ?_⟩
      rw [if_pos hsome]
      refine cursorAfter_concat ?_ ?_ ?_
      · rw [hcounts.1, cursorAfter_integerIndex]
      · rw [hcounts.2, cursorAfter_vectorIndex]
        omega
      · dsimp only
        omega

/-! ### All arguments -/

variable {decoded : List (Option Value)} {raw : BitVec 64}

theorem allDecoded_eq_some {values : List Value} :
    allDecoded decoded = some values ↔ decoded = values.map some := by
  rw [allDecoded]
  by_cases hall : decoded.all Option.isSome
  · rw [if_pos hall, Option.some_inj]
    constructor
    · rintro rfl
      induction decoded with
      | nil => rfl
      | cons value rest ih =>
        obtain ⟨hvalue, hall⟩ := Bool.and_eq_true_iff.mp hall
        obtain ⟨v, rfl⟩ := Option.isSome_iff_exists.mp hvalue
        exact congrArg (some v :: ·) (ih hall)
    · rintro rfl
      rw [List.filterMap_map]
      exact List.filterMap_some
  · rw [if_neg hall]
    refine ⟨nofun, ?_⟩
    rintro rfl
    exact absurd (by simp) hall

theorem allDecoded_eq_none : allDecoded decoded = none ↔ none ∈ decoded := by
  rw [allDecoded]
  by_cases hall : decoded.all Option.isSome
  · rw [if_pos hall]
    refine ⟨nofun, fun h => ?_⟩
    exact absurd (List.all_eq_true.mp hall none h) nofun
  · rw [if_neg hall]
    refine ⟨fun _ => ?_, fun _ => rfl⟩
    simpa using hall

theorem allDecoded_cons (value : Option Value) (rest : List (Option Value)) :
    allDecoded (value :: rest) = value.bind fun v => (allDecoded rest).map (v :: ·) := by
  cases value with
  | none => exact allDecoded_eq_none.mpr List.mem_cons_self
  | some v =>
    rw [Option.bind_some]
    cases hrest : allDecoded rest with
    | none => exact allDecoded_eq_none.mpr (List.mem_cons_of_mem _ (allDecoded_eq_none.mp hrest))
    | some values => exact allDecoded_eq_some.mpr (by rw [allDecoded_eq_some.mp hrest]; rfl)

/-- What is decoded of each argument from its place. -/
def decodedFrom (memory : ℕ → UInt8) (frame : HleCallFrame) :
    List CType → List CType → List (Option Value)
  | _, [] => []
  | before, t :: rest =>
    (contents memory frame (locate before t)).bind (decodeRaw frame t) :: decodedFrom memory frame
      (before ++ [t]) rest

theorem getElem?_decodedFrom (before types : List CType) (i : ℕ) :
    (decodedFrom memory frame before types)[i]? = types[i]?.map fun t =>
      (contents memory frame (locate (before ++ types.take i) t)).bind (decodeRaw frame t) := by
  induction types generalizing before i with
  | nil => simp [decodedFrom]
  | cons t rest ih =>
    cases i with
    | zero => simp [decodedFrom]
    | succ i =>
      rw [decodedFrom, List.getElem?_cons_succ, List.getElem?_cons_succ, ih, List.take_succ_cons,
        List.append_assoc, List.singleton_append]

/-- The cursor finds every argument in its place, up to the first that cannot be read. -/
theorem allDecoded_decodeArguments (before types : List CType) :
    allDecoded (decodeArguments memory frame types (cursorAfter before)) =
      allDecoded (decodedFrom memory frame before types) := by
  induction types generalizing before with
  | nil => rfl
  | cons t rest ih =>
    obtain ⟨hvalue, hcursor⟩ := @decodeArgument_eq memory frame before t
    change allDecoded ((decodeArgument memory frame t (cursorAfter before)).1 ::
      decodeArguments memory frame rest (decodeArgument memory frame t (cursorAfter before)).2) = _
    rw [decodedFrom, hvalue, allDecoded_cons, allDecoded_cons]
    cases hcontents : contents memory frame (locate before t) with
    | none => rfl
    | some raw => rw [hcursor (by rw [hcontents]; rfl), ih]

/-! ### Values -/

/-- An argument that is not taken: its slot cannot be read, or it points to data below 4096, is not
null and not validated. -/
def Refused (memory : ℕ → UInt8) (frame : HleCallFrame) (t : CType) (location : Location) : Prop :=
  contents memory frame location = none ∨
    ∃ raw minimumSize isConst, contents memory frame location = some raw ∧
      t = .pointer minimumSize isConst ∧ raw ≠ 0 ∧
      raw.toNat < 4096 ∧ validated frame raw.toNat minimumSize (!isConst) = false

theorem decodeRaw_eq_none (h : t.isSupportedArgument) :
    decodeRaw frame t raw = none ↔ ∃ minimumSize isConst, t = .pointer minimumSize isConst ∧
      raw ≠ 0 ∧ raw.toNat < 4096 ∧ validated frame raw.toNat minimumSize (!isConst) = false := by
  cases t with
  | pointer minimumSize isConst =>
    rw [decodeRaw]
    split
    · next hrefused =>
      refine ⟨fun _ => ⟨minimumSize, isConst, rfl, hrefused.1, hrefused.2.2, ?_⟩, fun _ => rfl⟩
      exact Bool.eq_false_iff.mpr hrefused.2.1
    · next hkept =>
      refine ⟨nofun, ?_⟩
      rintro ⟨minimumSize, isConst, heq, hne, hlt, hvalid⟩
      cases heq
      exact absurd ⟨hne, by simp [hvalid], hlt⟩ hkept
  | void => cases h
  | other => cases h
  | bool | integer size signed | functionPointer | float
  | double => exact ⟨nofun, fun ⟨_, _, heq, _⟩ => nomatch heq⟩

/-- A decoded value is that of the low bytes; a `bool` only if there is nothing above them. -/
theorem decodeRaw_eq_sysVValue {value : Value} (h : decodeRaw frame t raw = some value)
    (hbool : t = .bool → raw.toNat < 256) : value = sysVValue t raw := by
  cases t with
  | pointer minimumSize isConst =>
    rw [decodeRaw] at h
    split at h
    · cases h
    · cases h
      exact congrArg Value.pointer (BitVec.setWidth_eq raw).symm
  | void => cases h
  | other => cases h
  | bool =>
    cases h
    have hlt := hbool rfl
    refine congrArg Value.bool (decide_eq_decide.mpr (not_congr ?_))
    rw [BitVec.toNat_inj.symm, BitVec.toNat_inj.symm, BitVec.toNat_setWidth]
    change _ ↔ raw.toNat % 256 = _
    rw [Nat.mod_eq_of_lt hlt]
    rfl
  | integer size signed =>
    cases h
    rfl
  | functionPointer =>
    cases h
    exact congrArg Value.pointer (BitVec.setWidth_eq raw).symm
  | float =>
    cases h
    rfl
  | double =>
    cases h
    exact congrArg Value.double (BitVec.setWidth_eq raw).symm

theorem refused_iff {location : Location} (h : t.isSupportedArgument) :
    Refused memory frame t location ↔
      (contents memory frame location).bind (decodeRaw frame t) = none := by
  rw [Option.bind_eq_none_iff, Refused]
  constructor
  · rintro (hnone | ⟨raw, minimumSize, isConst, hraw, hpointer⟩) raw' hraw'
    · rw [hnone] at hraw'
      cases hraw'
    · rw [hraw] at hraw'
      cases hraw'
      exact (decodeRaw_eq_none h).mpr ⟨minimumSize, isConst, hpointer⟩
  · intro hall
    cases hcontents : contents memory frame location with
    | none => exact .inl rfl
    | some raw =>
      obtain ⟨minimumSize, isConst, hpointer⟩ := (decodeRaw_eq_none h).mp (hall raw hcontents)
      exact .inr ⟨raw, minimumSize, isConst, rfl, hpointer⟩

end Decoded

/-! ### Calls -/

/-- A call with a supported signature: if the function is called, its arguments are the values that
the convention gives, those of type `bool` if nothing is above their byte. It is not called exactly
if an argument is refused, and then the frame is unchanged. -/
theorem invoke_follows_sysv (adapter : TypedHleCallAdapter) (memory : ℕ → UInt8)
    (frame : HleCallFrame)
    (hargs : ∀ t ∈ adapter.args, t.isSupportedArgument)
    (hreturn : adapter.returnType.isSupportedReturn) :
    let outcome := adapter.invoke memory frame
    (∀ values, outcome.call = some values → values.length = adapter.args.length ∧
      ∀ i t, adapter.args[i]? = some t →
        ∃ raw, contents memory frame (locate (adapter.args.take i) t) = some raw ∧
          ((t = .bool → raw.toNat < 256) → values[i]? = some (sysVValue t raw))) ∧
    (outcome.call = none ↔ ∃ i t, adapter.args[i]? = some t ∧
      Refused memory frame t (locate (adapter.args.take i) t)) ∧
    (outcome.call = none → outcome.result = .failure efault adapter.name ∧
      outcome.frame = frame) := by
  have hsupported : ¬¬(adapter.args.all CType.isSupportedArgument ∧
    adapter.returnType.isSupportedReturn) :=
    not_not.mpr ⟨List.all_eq_true.mpr hargs, hreturn⟩
  have hdecoded := @allDecoded_decodeArguments memory frame [] adapter.args
  have hplace := @getElem?_decodedFrom memory frame [] adapter.args
  simp only [List.nil_append] at hplace
  change allDecoded (decodeArguments memory frame adapter.args {}) = _ at hdecoded
  intro outcome
  have houtcome : outcome = match allDecoded (decodedFrom memory frame [] adapter.args) with
      | none => ⟨.failure efault adapter.name, frame, none⟩
      | some values => ⟨.success, encodeReturn frame (adapter.function values), some values⟩ := by
    rw [← hdecoded]
    exact if_neg hsupported
  have hcall : outcome.call = allDecoded (decodedFrom memory frame [] adapter.args) := by
    rw [houtcome]
    cases allDecoded (decodedFrom memory frame [] adapter.args) <;> rfl
  refine ⟨fun values hvalues => ?_, ?_, fun hnone => ?_⟩
  · rw [hcall, allDecoded_eq_some] at hvalues
    rw [hvalues] at hplace
    simp only [List.getElem?_map] at hplace
    refine ⟨?_, fun i t ht => ?_⟩
    · have hlength : ∀ i : ℕ, values[i]? = none ↔ adapter.args[i]? = none := by
        intro i
        have hi := congrArg Option.isNone (hplace i)
        cases hv : values[i]? <;> cases ha : adapter.args[i]? <;> simp_all
      simp only [List.getElem?_eq_none_iff] at hlength
      exact Nat.le_antisymm ((hlength _).mpr le_rfl) ((hlength _).mp le_rfl)
    · have hi := hplace i
      rw [ht, Option.map_some] at hi
      obtain ⟨value, hvalue, hsome⟩ := Option.map_eq_some_iff.mp hi
      obtain ⟨raw, hraw, hdecode⟩ := Option.bind_eq_some_iff.mp hsome.symm
      exact ⟨raw, hraw, fun hbool => by rw [hvalue, decodeRaw_eq_sysVValue hdecode hbool]⟩
  · rw [hcall, allDecoded_eq_none, List.mem_iff_getElem?]
    refine exists_congr fun i => ?_
    rw [hplace, Option.map_eq_some_iff]
    refine exists_congr fun t => and_congr_right fun ht => ?_
    exact (refused_iff (hargs t (List.mem_of_getElem? ht))).symm
  · rw [hcall] at hnone
    rw [houtcome, hnone]
    exact ⟨rfl, rfl⟩

/-- A frame whose registers all have one value, with a stack that is not validated. -/
def uniformFrame (bits : BitVec 64) : HleCallFrame :=
  ⟨fun _ => bits, fun _ => (bits, 0), 0x7000, some fun _ _ _ => false⟩

/-- The seventh argument that is no number comes from the first slot of the stack. -/
theorem invoke_follows_sysv_seven :
    let frame := { uniformFrame 1 with validateRange := some fun _ _ _ => true }
    let adapter : TypedHleCallAdapter :=
      ⟨[], .void, .functionPointer :: .double :: List.replicate 6 (.integer 2 true), fun _ => .void⟩
    let values := [.pointer 1, .double 1] ++ List.replicate 5 (.integer 2 true 1) ++
      [.integer 2 true 0x303]
    ∃ raw, contents (fun _ => 3) frame (.stack 0) = some raw ∧
      (adapter.invoke (fun _ => 3) frame).call = some values := by
  intro frame adapter values
  have hcall : (adapter.invoke (fun _ => 3) frame).call = some values := by decide
  obtain ⟨raw, hraw, -⟩ :=
    ((invoke_follows_sysv adapter (fun _ => 3) frame (by decide) rfl).1 _ hcall).2 7 _ rfl
  exact ⟨raw, hraw, hcall⟩

/-- A `bool` is true by a bit above its byte, and a pointer that is not validated reaches the
function. -/
theorem bool_beyond_byte :
    ((TypedHleCallAdapter.mk [] .void [.bool] fun _ => .void).invoke (fun _ => 0)
      (uniformFrame 0x100)).call = some [.bool true] ∧
      sysVValue .bool 0x100 = .bool false ∧
      ((TypedHleCallAdapter.mk [] .void [.pointer 8 true] fun _ => .void).invoke (fun _ => 0)
        (uniformFrame 0x1000)).call = some [.pointer 0x1000] ∧
      validated (uniformFrame 0x1000) 0x1000 8 false = false := by
  decide

end PS4Droid.GuestCpu.Hle
