import Mathlib.Order.Nat
import PS4Droid.Shader.ConstantPropagation

/-!
# The meaning of instructions

Each integer and boolean opcode computes a datum from those of its arguments; the other instructions
are leaves. A bit field has a meaning if it lies within the word.
-/

namespace PS4Droid.Shader.IR

inductive Datum
  | void
  | attr (attr : Attribute)
  | u1 (value : Bool)
  | u32 (value : BitVec 32)
  | u64 (value : BitVec 64)
  | other (type bits : ℕ)
  | composite (elems : List Datum)

/-- The datum of a value, with those of the instructions given. -/
def Value.datum (ρ : ℕ → Datum) : Value → Datum
  | .void => .void
  | .inst id => ρ id
  | .attr a => .attr a
  | .u1 value => .u1 value
  | .u32 value => .u32 value
  | .u64 value => .u64 value
  | .other type bits => .other type bits

/-! ### Bit fields -/

/-- The bits `offset` to `offset + count - 1`, as the low bits of a word. -/
def bitFieldUExtract (base : BitVec 32) (offset count : ℕ) : BitVec 32 :=
  (base.extractLsb' offset count).setWidth 32

/-- The same with the highest of them as the sign. -/
def bitFieldSExtract (base : BitVec 32) (offset count : ℕ) : BitVec 32 :=
  (base.extractLsb' offset count).signExtend 32

/-- The bits of the field. -/
def fieldMask (offset count : ℕ) : BitVec 32 := ((BitVec.allOnes count).setWidth 32) <<< offset

/-- The low `count` bits of `insert` in the place of the field. -/
def bitFieldInsert (base insert : BitVec 32) (offset count : ℕ) : BitVec 32 :=
  (base &&& ~~~fieldMask offset count) ||| (insert <<< offset &&& fieldMask offset count)

/-! ### Opcodes -/

def meaningU32 : Opcode → BitVec 32 → Option Datum
  | .bitwiseNot32, a => some (.u32 (~~~a))
  | .bitReverse32, a => some (.u32 a.reverse)
  | .bitCount32, a => some (.u32 (BitVec.ofNat 32 (popcount a)))
  | _, _ => none

def meaningU64 : Opcode → BitVec 64 → Option Datum
  | .bitCount64, a => some (.u32 (BitVec.ofNat 32 (popcount a)))
  | _, _ => none

def meaningU32U32 : Opcode → BitVec 32 → BitVec 32 → Option Datum
  | .iAdd32, a, b => some (.u32 (a + b))
  | .iSub32, a, b => some (.u32 (a - b))
  | .iMul32, a, b => some (.u32 (a * b))
  | .uDiv32, a, b => if b = 0 then none else some (.u32 (a / b))
  | .uMod32, a, b => if b = 0 then none else some (.u32 (a % b))
  | .shiftLeftLogical32, a, b => if b.toNat < 32 then some (.u32 (a <<< b.toNat)) else none
  | .shiftRightLogical32, a, b => if b.toNat < 32 then some (.u32 (a >>> b.toNat)) else none
  | .shiftRightArithmetic32, a, b => if b.toNat < 32 then some (.u32 (a.sshiftRight b.toNat))
      else none
  | .sLessThan32, a, b => some (.u1 (a.toInt < b.toInt))
  | .uLessThan32, a, b => some (.u1 (a.toNat < b.toNat))
  | .sLessThanEqual32, a, b => some (.u1 (a.toInt ≤ b.toInt))
  | .uLessThanEqual32, a, b => some (.u1 (a.toNat ≤ b.toNat))
  | .sGreaterThan32, a, b => some (.u1 (a.toInt > b.toInt))
  | .uGreaterThan32, a, b => some (.u1 (a.toNat > b.toNat))
  | .sGreaterThanEqual32, a, b => some (.u1 (a.toInt ≥ b.toInt))
  | .uGreaterThanEqual32, a, b => some (.u1 (a.toNat ≥ b.toNat))
  | .iEqual32, a, b => some (.u1 (a = b))
  | .iNotEqual32, a, b => some (.u1 (a ≠ b))
  | .bitwiseAnd32, a, b => some (.u32 (a &&& b))
  | .bitwiseOr32, a, b => some (.u32 (a ||| b))
  | .bitwiseXor32, a, b => some (.u32 (a ^^^ b))
  | _, _, _ => none

def meaningU64U64 : Opcode → BitVec 64 → BitVec 64 → Option Datum
  | .sLessThan64, a, b => some (.u1 (a.toInt < b.toInt))
  | .uLessThan64, a, b => some (.u1 (a.toNat < b.toNat))
  | .sLessThanEqual64, a, b => some (.u1 (a.toInt ≤ b.toInt))
  | .uLessThanEqual64, a, b => some (.u1 (a.toNat ≤ b.toNat))
  | .sGreaterThan64, a, b => some (.u1 (a.toInt > b.toInt))
  | .uGreaterThan64, a, b => some (.u1 (a.toNat > b.toNat))
  | .sGreaterThanEqual64, a, b => some (.u1 (a.toInt ≥ b.toInt))
  | .uGreaterThanEqual64, a, b => some (.u1 (a.toNat ≥ b.toNat))
  | .iEqual64, a, b => some (.u1 (a = b))
  | .iNotEqual64, a, b => some (.u1 (a ≠ b))
  | .bitwiseAnd64, a, b => some (.u64 (a &&& b))
  | .bitwiseOr64, a, b => some (.u64 (a ||| b))
  | _, _, _ => none

def meaningU32U32U32 : Opcode → BitVec 32 → BitVec 32 → BitVec 32 → Option Datum
  | .bitFieldUExtract, base, offset, count =>
    if offset.toNat + count.toNat ≤ 32 then
      some (.u32 (bitFieldUExtract base offset.toNat count.toNat)) else none
  | .bitFieldSExtract, base, offset, count =>
    if offset.toNat + count.toNat ≤ 32 then
      some (.u32 (bitFieldSExtract base offset.toNat count.toNat)) else none
  | _, _, _, _ => none

def meaningU32U32U32U32 : Opcode → BitVec 32 → BitVec 32 → BitVec 32 → BitVec 32 → Option Datum
  | .bitFieldInsert, base, insert, offset, count =>
    if offset.toNat + count.toNat ≤ 32 then
      some (.u32 (bitFieldInsert base insert offset.toNat count.toNat)) else none
  | _, _, _, _, _ => none

/-- What arithmetic opcodes compute. -/
def arithmetic (op : Opcode) : List Datum → Option Datum
  | [.u32 a] => meaningU32 op a
  | [.u64 a] => meaningU64 op a
  | [.u32 a, .u32 b] => meaningU32U32 op a b
  | [.u64 a, .u64 b] => meaningU64U64 op a b
  | [.u32 a, .u32 b, .u32 c] => meaningU32U32U32 op a b c
  | [.u32 a, .u32 b, .u32 c, .u32 d] => meaningU32U32U32U32 op a b c d
  | _ => none

/-- What an opcode computes from the data of its arguments. -/
def meaning : Opcode → List Datum → Option Datum
  | .identity, [d] => some d
  | .logicalAnd, [.u1 a, .u1 b] => some (.u1 (a && b))
  | .logicalOr, [.u1 a, .u1 b] => some (.u1 (a || b))
  | .logicalNot, [.u1 a] => some (.u1 !a)
  | .selectU1, [.u1 c, x, y] | .selectU32, [.u1 c, x, y] | .selectF32, [.u1 c, x, y] =>
      some (if c then x else y)
  | .compositeConstruct shape, elems => if elems.length = shape.size then some (.composite elems)
      else none
  | .compositeInsert _, [.composite elems, x, .u32 i] =>
    if i.toNat < elems.length then some (.composite (elems.set i.toNat x)) else none
  | .compositeExtract _, [.composite elems, .u32 i] => elems[i.toNat]?
  | op, args => arithmetic op args

end PS4Droid.Shader.IR
