import Mathlib.Data.List.Basic

/-!
# The intermediate representation of shaders

Microinstructions in a pool, named by their number, with values as arguments. `Identity`
instructions stand for their argument, and most accessors of a value look through them.
-/

namespace PS4Droid.Shader.IR

/-- `IR::Attribute`. -/
inductive Attribute
  | localInvocationId
  | packedAncillary
  | sampleIndex
  | renderTargetIndex
  | other (code : ℕ)
  deriving DecidableEq

/-- The element type and the size of `U32x2` to `F32x4`. -/
inductive Shape
  | u32x2
  | u32x3
  | u32x4
  | f32x2
  | f32x3
  | f32x4
  deriving DecidableEq

def Shape.size : Shape → ℕ
  | .u32x2 | .f32x2 => 2
  | .u32x3 | .f32x3 => 3
  | .u32x4 | .f32x4 => 4

/-- The operations of the `SharedAtomic` opcodes. -/
inductive SharedAtomicOp
  | iAdd
  | iSub
  | sMin
  | uMin
  | sMax
  | uMax
  | inc
  | dec
  | and
  | or
  | xor
  deriving DecidableEq

/-- The opcodes that the passes look at; `sharedAtomic` has 64 bits if it is wide, and 32
otherwise. -/
inductive Opcode
  | phi
  | identity
  | void
  | barrier
  | loadSharedU16
  | loadSharedU32
  | loadSharedU64
  | writeSharedU16
  | writeSharedU32
  | writeSharedU64
  | sharedAtomic (op : SharedAtomicOp) (wide : Bool)
  | getAttributeU32
  | readLane
  | writeLane
  | compositeConstruct (shape : Shape)
  | compositeExtract (shape : Shape)
  | compositeInsert (shape : Shape)
  | selectU1
  | selectU32
  | selectF32
  | iAdd32
  | iSub32
  | iMul32
  | uDiv32
  | uMod32
  | shiftLeftLogical32
  | shiftRightLogical32
  | shiftRightArithmetic32
  | bitwiseAnd32
  | bitwiseAnd64
  | bitwiseOr32
  | bitwiseOr64
  | bitwiseXor32
  | bitwiseNot32
  | bitFieldInsert
  | bitFieldSExtract
  | bitFieldUExtract
  | bitReverse32
  | bitCount32
  | bitCount64
  | sLessThan32
  | sLessThan64
  | uLessThan32
  | uLessThan64
  | iEqual32
  | iEqual64
  | sLessThanEqual32
  | sLessThanEqual64
  | uLessThanEqual32
  | uLessThanEqual64
  | sGreaterThan32
  | sGreaterThan64
  | uGreaterThan32
  | uGreaterThan64
  | iNotEqual32
  | iNotEqual64
  | sGreaterThanEqual32
  | sGreaterThanEqual64
  | uGreaterThanEqual32
  | uGreaterThanEqual64
  | logicalOr
  | logicalAnd
  | logicalNot
  | other (code : ℕ)
  deriving DecidableEq

/-- `IR::Value`; `other` are the remaining types of immediates, by their bits. -/
inductive Value
  | void
  | inst (id : ℕ)
  | attr (attr : Attribute)
  | u1 (imm : Bool)
  | u32 (imm : BitVec 32)
  | u64 (imm : BitVec 64)
  | other (type bits : ℕ)
  deriving DecidableEq

/-- `IR::Inst`; the arguments of a phi come with the blocks they come from. -/
structure Inst where
  opcode : Opcode
  args : List Value
  phiBlocks : List ℕ
  deriving DecidableEq

def Inst.arg (inst : Inst) (index : ℕ) : Value := inst.args.getD index .void

/-- The pool of instructions; those from `size` on are not created yet. -/
structure Pool where
  insts : ℕ → Inst
  size : ℕ

namespace Pool

variable (pool : Pool)

/-- Looking through a chain of `Identity` instructions of bounded length. -/
def resolveWithin : ℕ → Value → Value
  | bound + 1, .inst id =>
    if (pool.insts id).opcode = .identity then resolveWithin bound ((pool.insts id).arg 0)
      else .inst id
  | _, value => value

/-- `Value::Resolve`. -/
def resolve (value : Value) : Value := pool.resolveWithin pool.size value

/-- `Value::IsImmediate`. -/
def isImmediate (value : Value) : Bool :=
  match pool.resolve value with
  | .inst _ => false
  | _ => true

/-- `Value::TryInstRecursive`. -/
def instRecursive (value : Value) : Option ℕ :=
  match pool.resolve value with
  | .inst id => some id
  | _ => none

/-- The instructions among the arguments, the right most first. -/
def argInsts (id : ℕ) : List ℕ := (pool.insts id).args.reverse.filterMap pool.instRecursive

/-- `Inst::SetArg`. -/
def setArg (id index : ℕ) (value : Value) : Pool :=
  let inst := pool.insts id
  { pool with
    insts := Function.update pool.insts id { inst with args := inst.args.set index value } }

/-- The replacement of one instruction in an argument. -/
def replaceIn (id : ℕ) (replacement : Value) : Value → Value
  | .inst used => if used = id then replacement else .inst used
  | value => value

/-- `Inst::ReplaceUsesWithAndRemove`. -/
def replaceUsesWithAndRemove (id : ℕ) (replacement : Value) : Pool :=
  { pool with insts := fun user =>
      if user = id then ⟨.void, [], []⟩
      else { pool.insts user with args := (pool.insts user).args.map (replaceIn id replacement) } }

/-- A new instruction. -/
def create (inst : Inst) : Pool := ⟨Function.update pool.insts pool.size inst, pool.size + 1⟩

end Pool

end PS4Droid.Shader.IR
