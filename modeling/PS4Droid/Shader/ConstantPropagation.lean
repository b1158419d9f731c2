import PS4Droid.Shader.Ir

/-!
# Constant propagation

`ConstantPropagationPass` on the integer and boolean opcodes: each instruction is visited once, in
the order of the blocks, and is folded if its arguments allow it. Folds of floats and of packed
formats are left out; their opcodes are among `other`, which nothing folds.
-/

namespace PS4Droid.Shader.IR

/-- Why the pass does not go on: `UNREACHABLE` in a bit field or for a range of the ancillary
register, a failed assertion on a divisor or on the type of an operand, and a shift that C++ leaves
undefined. -/
inductive FoldAbort
  | undefinedResult
  | unhandledAncillary
  | zeroDivisor
  | operandType
  | undefinedShift
  deriving DecidableEq

/-- The switch of `ConstantPropagation`, by the function that folds. -/
inductive Fold
  | add
  | mul
  | logicalAnd
  | logicalOr
  | logicalNot
  | select
  | compositeExtract (shape : Shape)
  | whenAllImmediates
  | bitFieldUExtract
  | nothing
  deriving DecidableEq

def Opcode.fold : Opcode → Fold
  | .iAdd32 => .add
  | .iMul32 => .mul
  | .logicalAnd => .logicalAnd
  | .logicalOr => .logicalOr
  | .logicalNot => .logicalNot
  | .selectU1 | .selectU32 | .selectF32 => .select
  | .compositeExtract shape => .compositeExtract shape
  | .bitFieldUExtract => .bitFieldUExtract
  | .iSub32 | .uDiv32 | .uMod32 | .shiftLeftLogical32 | .shiftRightLogical32
  | .shiftRightArithmetic32
  | .sLessThan32 | .sLessThan64 | .uLessThan32 | .uLessThan64 | .sLessThanEqual32
  | .sLessThanEqual64
  | .uLessThanEqual32 | .uLessThanEqual64 | .sGreaterThan32 | .sGreaterThan64 | .uGreaterThan32
  | .uGreaterThan64
  | .sGreaterThanEqual32 | .sGreaterThanEqual64 | .uGreaterThanEqual32 | .uGreaterThanEqual64
  | .iEqual32 | .iEqual64 | .iNotEqual32 | .iNotEqual64
  | .bitwiseAnd32 | .bitwiseAnd64 | .bitwiseOr32 | .bitwiseOr64 | .bitwiseXor32 | .bitwiseNot32
  | .bitReverse32 | .bitCount32 | .bitCount64 | .bitFieldSExtract
  | .bitFieldInsert => .whenAllImmediates
  | _ => .nothing

/-! ### Folds of immediates -/

/-- The loop of `BitReverse32`. -/
def bitReverse : ℕ → BitVec 32 → BitVec 32 → BitVec 32
  | 0, res, _ => res
  | steps + 1, res, a => bitReverse steps ((res <<< 1) ||| (a &&& 1)) (a >>> 1)

/-- `std::popcount`. -/
def popcount {w : ℕ} (a : BitVec w) : ℕ := (List.range w).countP fun i => a.getLsbD i

def foldBitFieldUExtract (base shift count : BitVec 32) : Except FoldAbort (BitVec 32) :=
  if shift.toNat + count.toNat > 32 then .error .undefinedResult
  else if shift.toNat ≥ 32 ∨ count.toNat ≥ 32 then .error .undefinedShift
  else .ok ((base >>> shift.toNat) &&& (((1 : BitVec 32) <<< count.toNat) - 1))

def foldBitFieldSExtract (base shift count : BitVec 32) : Except FoldAbort (BitVec 32) :=
  let backShift := shift.toNat + count.toNat
  let leftShift := 32 - backShift
  let rightShift := 32 - count.toNat
  if backShift > 32 ∨ leftShift ≥ 32 ∨ rightShift ≥ 32 then .error .undefinedResult
  else .ok ((base <<< leftShift).sshiftRight rightShift)

def foldBitFieldInsert (base insert offset bits : BitVec 32) : Except FoldAbort (BitVec 32) :=
  if bits.toNat ≥ 32 ∨ offset.toNat ≥ 32 then .error .undefinedResult
  else .ok ((base &&& ~~~(~~~(~~~(0 : BitVec 32) <<< bits.toNat) <<< offset.toNat)) |||
    (insert <<< offset.toNat))

/-! The functions passed to `FoldWhenAllImmediates`, by the types of their parameters. -/

def evalU32 : Opcode → BitVec 32 → Except FoldAbort Value
  | .bitwiseNot32, a => .ok (.u32 (~~~a))
  | .bitReverse32, a => .ok (.u32 (bitReverse 32 0 a))
  | .bitCount32, a => .ok (.u32 (BitVec.ofNat 32 (popcount a)))
  | _, _ => .error .operandType

def evalU64 : Opcode → BitVec 64 → Except FoldAbort Value
  | .bitCount64, a => .ok (.u32 (BitVec.ofNat 32 (popcount a)))
  | _, _ => .error .operandType

def evalU32U32 : Opcode → BitVec 32 → BitVec 32 → Except FoldAbort Value
  | .iSub32, a, b => .ok (.u32 (a - b))
  | .uDiv32, a, b => if b = 0 then .error .zeroDivisor else .ok (.u32 (a / b))
  | .uMod32, a, b => if b = 0 then .error .zeroDivisor else .ok (.u32 (a % b))
  | .shiftLeftLogical32, a, b => if b.toNat < 32 then .ok (.u32 (a <<< b.toNat))
      else .error .undefinedShift
  | .shiftRightLogical32, a, b => if b.toNat < 32 then .ok (.u32 (a >>> b.toNat))
      else .error .undefinedShift
  | .shiftRightArithmetic32, a, b => if b.toNat < 32 then .ok (.u32 (a.sshiftRight b.toNat))
      else .error .undefinedShift
  | .sLessThan32, a, b => .ok (.u1 (a.slt b))
  | .uLessThan32, a, b => .ok (.u1 (a.ult b))
  | .sLessThanEqual32, a, b => .ok (.u1 (a.sle b))
  | .uLessThanEqual32, a, b => .ok (.u1 (a.ule b))
  | .sGreaterThan32, a, b => .ok (.u1 (b.slt a))
  | .uGreaterThan32, a, b => .ok (.u1 (b.ult a))
  | .sGreaterThanEqual32, a, b => .ok (.u1 (b.sle a))
  | .uGreaterThanEqual32, a, b => .ok (.u1 (b.ule a))
  | .iEqual32, a, b => .ok (.u1 (a == b))
  | .iNotEqual32, a, b => .ok (.u1 (a != b))
  | .bitwiseAnd32, a, b => .ok (.u32 (a &&& b))
  | .bitwiseOr32, a, b => .ok (.u32 (a ||| b))
  | .bitwiseXor32, a, b => .ok (.u32 (a ^^^ b))
  | _, _, _ => .error .operandType

def evalU64U64 : Opcode → BitVec 64 → BitVec 64 → Except FoldAbort Value
  | .sLessThan64, a, b => .ok (.u1 (a.slt b))
  | .uLessThan64, a, b => .ok (.u1 (a.ult b))
  | .sLessThanEqual64, a, b => .ok (.u1 (a.sle b))
  | .uLessThanEqual64, a, b => .ok (.u1 (a.ule b))
  | .sGreaterThan64, a, b => .ok (.u1 (b.slt a))
  | .uGreaterThan64, a, b => .ok (.u1 (b.ult a))
  | .sGreaterThanEqual64, a, b => .ok (.u1 (b.sle a))
  | .uGreaterThanEqual64, a, b => .ok (.u1 (b.ule a))
  | .iEqual64, a, b => .ok (.u1 (a == b))
  | .iNotEqual64, a, b => .ok (.u1 (a != b))
  | .bitwiseAnd64, a, b => .ok (.u64 (a &&& b))
  | .bitwiseOr64, a, b => .ok (.u64 (a ||| b))
  | _, _, _ => .error .operandType

def evalU32U32U32 : Opcode → BitVec 32 → BitVec 32 → BitVec 32 → Except FoldAbort Value
  | .bitFieldUExtract, base, shift, count => .u32 <$> foldBitFieldUExtract base shift count
  | .bitFieldSExtract, base, shift, count => .u32 <$> foldBitFieldSExtract base shift count
  | _, _, _, _ => .error .operandType

def evalU32U32U32U32 : Opcode → BitVec 32 → BitVec 32 → BitVec 32 → BitVec 32 →
    Except FoldAbort Value
  | .bitFieldInsert, base, insert, offset, bits =>
      .u32 <$> foldBitFieldInsert base insert offset bits
  | _, _, _, _, _ => .error .operandType

def evalImmediates (op : Opcode) : List Value → Except FoldAbort Value
  | [.u32 a] => evalU32 op a
  | [.u64 a] => evalU64 op a
  | [.u32 a, .u32 b] => evalU32U32 op a b
  | [.u64 a, .u64 b] => evalU64U64 op a b
  | [.u32 a, .u32 b, .u32 c] => evalU32U32U32 op a b c
  | [.u32 a, .u32 b, .u32 c, .u32 d] => evalU32U32U32U32 op a b c d
  | _ => .error .operandType

/-! ### Folds of instructions -/

/-- What a visit leaves: the pool, the instructions inserted in front of the visited one, and the
value that its uses were replaced with. -/
structure Folded where
  pool : Pool
  fresh : List ℕ
  replacement : Option Value

section Folds

variable (pool : Pool) (id : ℕ)

def Folded.unchanged : Folded := ⟨pool, [], none⟩

def Folded.remove (replacement : Value) : Folded :=
  ⟨pool.replaceUsesWithAndRemove id replacement, [], some replacement⟩

def foldWhenAllImmediates : Except FoldAbort Folded :=
  let inst := pool.insts id
  if inst.args.all pool.isImmediate then do
    let result ← evalImmediates inst.opcode (inst.args.map pool.resolve)
    return .remove pool id result
  else .ok (.unchanged pool)

/-- The functions passed to `FoldCommutative`. -/
def combine : Opcode → Value → Value → Except FoldAbort Value
  | .iAdd32, .u32 a, .u32 b => .ok (.u32 (a + b))
  | .iMul32, .u32 a, .u32 b => .ok (.u32 (a * b))
  | .logicalAnd, .u1 a, .u1 b => .ok (.u1 (a && b))
  | .logicalOr, .u1 a, .u1 b => .ok (.u1 (a || b))
  | _, _, _ => .error .operandType

/-- The instruction behind a value, if it has the same opcode and an immediate as its second
argument. -/
def reassociable (value : Value) : Option Inst :=
  match pool.instRecursive value with
  | some used =>
    if (pool.insts used).opcode = (pool.insts id).opcode ∧
      pool.isImmediate ((pool.insts used).arg 1) then
      some (pool.insts used)
    else none
  | none => none

/-- `FoldCommutative`; the flag says that the caller goes on. -/
def foldCommutative : Except FoldAbort (Folded × Bool) :=
  let inst := pool.insts id
  let lhs := inst.arg 0
  let rhs := inst.arg 1
  match pool.isImmediate lhs, pool.isImmediate rhs with
  | true, true => do
    let result ← combine inst.opcode (pool.resolve lhs) (pool.resolve rhs)
    return (.remove pool id result, false)
  | true, false =>
    match reassociable pool id rhs with
    | some rhsInst => do
      let combined ← combine inst.opcode (pool.resolve lhs) (pool.resolve (rhsInst.arg 1))
      return (.unchanged ((pool.setArg id 0 (rhsInst.arg 0)).setArg id 1 combined), true)
    | none => return (.unchanged ((pool.setArg id 0 rhs).setArg id 1 lhs), true)
  | false, true =>
    match reassociable pool id lhs with
    | some lhsInst => do
      let combined ← combine inst.opcode (pool.resolve rhs) (pool.resolve (lhsInst.arg 1))
      return (.unchanged ((pool.setArg id 0 (lhsInst.arg 0)).setArg id 1 combined), true)
    | none => return (.unchanged pool, true)
  | false, false => return (.unchanged pool, true)

/-- What the second argument decides once `FoldCommutative` is through: the instruction is its first
argument, or it is an immediate. -/
inductive Absorbed
  | first
  | imm (value : Value)
  | none

def foldAbsorbing (absorb : Value → Absorbed) : Except FoldAbort Folded := do
  let (folded, more) ← foldCommutative pool id
  if more then
    let inst := folded.pool.insts id
    match absorb (folded.pool.resolve (inst.arg 1)) with
    | .first => return .remove folded.pool id (inst.arg 0)
    | .imm value => return .remove folded.pool id value
    | .none => return folded
  else return folded

def foldAdd : Except FoldAbort Folded :=
  foldAbsorbing pool id fun
    | .u32 b => if b = 0 then .first else .none
    | _ => .none

def foldMul : Except FoldAbort Folded :=
  foldAbsorbing pool id fun
    | .u32 b => if b = 0 then .imm (.u32 0) else if b = 1 then .first else .none
    | _ => .none

def foldLogicalAnd : Except FoldAbort Folded :=
  foldAbsorbing pool id fun
    | .u1 b => if b then .first else .imm (.u1 false)
    | _ => .none

def foldLogicalOr : Except FoldAbort Folded :=
  foldAbsorbing pool id fun
    | .u1 b => if b then .imm (.u1 true) else .first
    | _ => .none

def foldLogicalNot : Folded :=
  match pool.resolve ((pool.insts id).arg 0) with
  | .u1 value => .remove pool id (.u1 !value)
  | .inst used =>
    if (pool.insts used).opcode = .logicalNot then .remove pool id ((pool.insts used).arg 0)
      else .unchanged pool
  | _ => .unchanged pool

def foldSelect : Folded :=
  match pool.resolve ((pool.insts id).arg 0) with
  | .u1 cond => .remove pool id (if cond then (pool.insts id).arg 1 else (pool.insts id).arg 2)
  | _ => .unchanged pool

/-- `FoldCompositeExtractImpl`; a chain of insertions is no longer than the pool. -/
def foldCompositeExtractImpl (shape : Shape) (firstIndex : BitVec 32) : ℕ → Value → Option Value
  | 0, _ => none
  | bound + 1, value =>
    match pool.instRecursive value with
    | none => none
    | some used =>
      let inst := pool.insts used
      if inst.opcode = .compositeConstruct shape then some (inst.arg firstIndex.toNat)
      else if inst.opcode = .compositeInsert shape then
        match pool.resolve (inst.arg 2) with
        | .u32 secondIndex =>
          if firstIndex = secondIndex then some (inst.arg 1)
          else foldCompositeExtractImpl shape firstIndex bound (inst.arg 0)
        | _ => none
      else none

def foldCompositeExtract (shape : Shape) : Folded :=
  match pool.resolve ((pool.insts id).arg 1) with
  | .u32 firstIndex =>
    match foldCompositeExtractImpl pool shape firstIndex pool.size ((pool.insts id).arg 0) with
    | some result => .remove pool id result
    | none => .unchanged pool
  | _ => .unchanged pool

/-- The attribute that takes the place of the field, read by a new instruction and cut to the range
if it is not all of the field. -/
def foldAncillaryField (producer : ℕ) (attr : Attribute) (offset bits start width : ℕ) : Folded :=
  let field := pool.size
  let created := pool.create ⟨.getAttributeU32, [.attr attr, .u32 0], []⟩
  if offset = start ∧ bits = width then
    ⟨(created.replaceUsesWithAndRemove id (.inst field)).replaceUsesWithAndRemove producer (.u32 0),
      [field], some (.inst field)⟩
  else
    let extract := created.size
    let created := created.create
      ⟨.bitFieldUExtract,
        [.inst field, .u32 (BitVec.ofNat 32 (offset - start)), .u32 (BitVec.ofNat 32 bits)], []⟩
    ⟨(created.replaceUsesWithAndRemove id (.inst extract)).replaceUsesWithAndRemove producer
      (.u32 0), [field, extract], some (.inst extract)⟩

def foldPackedAncillary : Except FoldAbort (Option Folded) :=
  let inst := pool.insts id
  match pool.resolve (inst.arg 0), pool.resolve (inst.arg 1), pool.resolve (inst.arg 2) with
  | .inst producer, .u32 offset, .u32 bits =>
    if (pool.insts producer).opcode = .getAttributeU32 ∧
      (pool.insts producer).arg 0 = .attr .packedAncillary then
      if 8 ≤ offset ∧ offset + bits ≤ 12 then
        .ok (some (foldAncillaryField pool id producer .sampleIndex offset.toNat bits.toNat 8 4))
      else if 16 ≤ offset ∧ offset + bits ≤ 27 then
        .ok (some
          (foldAncillaryField pool id producer .renderTargetIndex offset.toNat bits.toNat 16 11))
      else .error .unhandledAncillary
    else .ok none
  | _, _, _ => .ok none

def constantPropagation : Except FoldAbort Folded :=
  match (pool.insts id).opcode.fold with
  | .add => foldAdd pool id
  | .mul => foldMul pool id
  | .logicalAnd => foldLogicalAnd pool id
  | .logicalOr => foldLogicalOr pool id
  | .logicalNot => .ok (foldLogicalNot pool id)
  | .select => .ok (foldSelect pool id)
  | .compositeExtract shape => .ok (foldCompositeExtract pool id shape)
  | .whenAllImmediates => foldWhenAllImmediates pool id
  | .bitFieldUExtract => do
    match ← foldPackedAncillary pool id with
    | some folded => return folded
    | none => foldWhenAllImmediates pool id
  | .nothing => .ok (.unchanged pool)

end Folds

/-- The instructions of a block, with those inserted, and what uses were replaced with. -/
def propagateInsts : List ℕ → Pool → Except FoldAbort (Pool × List ℕ × List (ℕ × Value))
  | [], pool => .ok (pool, [], [])
  | id :: rest, pool => do
    let folded ← constantPropagation pool id
    let (pool, insts, log) ← propagateInsts rest folded.pool
    return (pool, folded.fresh ++ id :: insts, folded.replacement.toList.map (id, ·) ++ log)

def propagateBlocks :
    List (List ℕ) → Pool → Except FoldAbort (Pool × List (List ℕ) × List (ℕ × Value))
  | [], pool => .ok (pool, [], [])
  | block :: rest, pool => do
    let (pool, insts, log) ← propagateInsts block pool
    let (pool, blocks, log') ← propagateBlocks rest pool
    return (pool, insts :: blocks, log ++ log')

/-- The pass goes through the blocks from the last to the first of their post order. -/
def constantPropagationPass (program : List (List ℕ)) (pool : Pool) :
    Except FoldAbort (Pool × List (List ℕ) × List (ℕ × Value)) := do
  let (pool, blocks, log) ← propagateBlocks program.reverse pool
  return (pool, blocks.reverse, log)

end PS4Droid.Shader.IR
