import PS4Droid.Foundations.OrderedMap
import PS4Droid.Foundations.Partition
import PS4Droid.Foundations.Words

/-!
# Guest memory arenas

The class `Arena` of `mspace.cpp`: an allocator that hands out the bytes `[base, base + capacity)`
of guest memory. Free blocks are kept by their offset from the base, live allocations by their
address. Addresses and sizes are 64-bit numbers whose sums and differences wrap; a pointer is its
address, and zero is the null pointer. The bytes themselves, which the allocator only copies and
clears for its callers, are not part of the model.
-/

namespace PS4Droid.Libc

open OrderedMap

def defaultAlignment : ℕ := 16

def knownMspaceFlags : ℕ := 0x0f

/-- The call of `std::abort` on a block that is already free. -/
inductive Abort where
  | alreadyFree
  deriving DecidableEq

structure Arena where
  base : ℕ
  capacity : ℕ
  freeBlocks : List (ℕ × ℕ)
  allocations : List (ℕ × ℕ)
  deriving DecidableEq

def Arena.create (base capacity : ℕ) : Arena where
  base := base
  capacity := capacity
  freeBlocks := if 0 < capacity then [(0, capacity)] else []
  allocations := []

/-- The checks of `MspaceCreate` on its arguments. -/
def acceptsRange (base capacity flags : ℕ) : Bool :=
  base ≠ 0 && capacity ≠ 0 && base ≤ 2 ^ 64 - 1 - capacity &&
    flags &&& (2 ^ 32 - 1 - knownMspaceFlags) = 0

def isPowerOfTwo (alignment : ℕ) : Bool :=
  alignment ≠ 0 && alignment &&& (alignment - 1) = 0

def alignUp (value alignment : ℕ) : Option ℕ :=
  if !isPowerOfTwo alignment then none
  else
    let misalign := value &&& (alignment - 1)
    if misalign = 0 then some value
    else
      let addition := alignment - misalign
      if 2 ^ 64 - 1 - addition < value then none else some (value + addition)

/-- Join the block at `offset` with the next one if they touch; also returns its new size. -/
def joinNext (freeBlocks : List (ℕ × ℕ)) (offset size : ℕ) : List (ℕ × ℕ) × ℕ :=
  match next freeBlocks offset with
  | some (nextOffset, nextSize) =>
    if add64 offset size = nextOffset then
      (erase (assign freeBlocks offset (add64 size nextSize)) nextOffset, add64 size nextSize)
    else (freeBlocks, size)
  | none => (freeBlocks, size)

/-- Join the block at `offset` with the one before it if they touch. -/
def joinPrev (freeBlocks : List (ℕ × ℕ)) (offset size : ℕ) : List (ℕ × ℕ) :=
  match prev freeBlocks offset with
  | some (prevOffset, prevSize) =>
    if add64 prevOffset prevSize = offset then
      erase (assign freeBlocks prevOffset (add64 prevSize size)) offset
    else freeBlocks
  | none => freeBlocks

def insertFreeBlock (freeBlocks : List (ℕ × ℕ)) (offset size : ℕ) :
    Except Abort (List (ℕ × ℕ)) :=
  if size = 0 then .ok freeBlocks
  else if (get? freeBlocks offset).isSome then .error .alreadyFree
  else
    let (joined, joinedSize) := joinNext (assign freeBlocks offset size) offset size
    .ok (joinPrev joined offset joinedSize)

/-- The padding with which a block holds the allocation, if it does. -/
def fits (base allocSize alignment : ℕ) (block : ℕ × ℕ) : Option ℕ :=
  let absBlockStart := add64 base block.1
  match alignUp absBlockStart alignment with
  | none => none
  | some alignedAbs =>
    let absBlockEnd := add64 absBlockStart block.2
    if absBlockEnd ≤ alignedAbs then none
    else
      let padding := sub64 alignedAbs absBlockStart
      if 2 ^ 64 - 1 - padding < allocSize then none
      else if block.2 < padding + allocSize then none
      else some padding

/-- The first block that fits. -/
def firstFit (base allocSize alignment : ℕ) : List (ℕ × ℕ) → Option ((ℕ × ℕ) × ℕ)
  | [] => none
  | block :: rest =>
    match fits base allocSize alignment block with
    | some padding => some (block, padding)
    | none => firstFit base allocSize alignment rest

namespace Arena

variable (a : Arena)

def allocateLocked (size alignment : ℕ) : Except Abort (Arena × ℕ) :=
  let allocSize := if size = 0 then 1 else size
  match firstFit a.base allocSize alignment a.freeBlocks with
  | none => .ok (a, 0)
  | some (block, padding) => do
    let totalNeeded := padding + allocSize
    let trailingSize := block.2 - totalNeeded
    let alignedOffset := add64 block.1 padding
    let trailingOffset := add64 alignedOffset allocSize
    let freeBlocks := erase a.freeBlocks block.1
    let freeBlocks ←
      if 0 < padding then insertFreeBlock freeBlocks block.1 padding else pure freeBlocks
    let freeBlocks ←
      if 0 < trailingSize then insertFreeBlock freeBlocks trailingOffset trailingSize
      else pure freeBlocks
    let alignedAbs := add64 (add64 a.base block.1) padding
    pure ({ a with
      freeBlocks := freeBlocks
      allocations := assign a.allocations alignedAbs allocSize }, alignedAbs)

def allocate (size alignment : ℕ) : Except Abort (Arena × ℕ) :=
  if !isPowerOfTwo alignment then .ok (a, 0) else a.allocateLocked size alignment

/-- The caller has found the allocation and its size. -/
def freeLocked (addr allocSize : ℕ) : Except Abort Arena := do
  let freeBlocks ← insertFreeBlock a.freeBlocks (sub64 addr a.base) allocSize
  pure { a with freeBlocks := freeBlocks, allocations := erase a.allocations addr }

/-- Returns 1 for a pointer that is not a live allocation. -/
def free (pointer : ℕ) : Except Abort (Arena × ℕ) :=
  if pointer = 0 then .ok (a, 0)
  else
    match get? a.allocations pointer with
    | none => .ok (a, 1)
    | some allocSize => do pure (← a.freeLocked pointer allocSize, 0)

/-- Cut the end off a live allocation. -/
def shrink (addr oldSize newSize : ℕ) : Except Abort (Arena × ℕ) := do
  let freeBlocks ←
    insertFreeBlock a.freeBlocks (add64 (sub64 addr a.base) newSize) (oldSize - newSize)
  pure ({ a with freeBlocks := freeBlocks, allocations := assign a.allocations addr newSize },
    addr)

/-- Extend a live allocation into the free block behind it. -/
def growInPlace (addr newSize tailOffset tailSize extraSize : ℕ) :
    Except Abort (Arena × ℕ) := do
  let freeBlocks := erase a.freeBlocks tailOffset
  let freeBlocks ←
    if extraSize < tailSize then
      insertFreeBlock freeBlocks (add64 tailOffset extraSize) (tailSize - extraSize)
    else pure freeBlocks
  pure ({ a with freeBlocks := freeBlocks, allocations := assign a.allocations addr newSize },
    addr)

/-- Allocate a new block, copy the old one to it and free that. -/
def move (addr oldSize newSize : ℕ) : Except Abort (Arena × ℕ) := do
  let (a, replacement) ← a.allocateLocked newSize defaultAlignment
  if replacement = 0 then pure (a, 0) else pure (← a.freeLocked addr oldSize, replacement)

def realloc (pointer newSize : ℕ) : Except Abort (Arena × ℕ) :=
  if pointer = 0 then a.allocate newSize defaultAlignment
  else if newSize = 0 then do pure ((← a.free pointer).1, 0)
  else
    match get? a.allocations pointer with
    | none => .ok (a, 0)
    | some oldSize =>
      if newSize = oldSize then .ok (a, pointer)
      else if newSize < oldSize then a.shrink pointer oldSize newSize
      else
        let extraSize := newSize - oldSize
        let tailOffset := add64 (sub64 pointer a.base) oldSize
        match get? a.freeBlocks tailOffset with
        | some tailSize =>
          if extraSize ≤ tailSize then
            a.growInPlace pointer newSize tailOffset tailSize extraSize
          else a.move pointer oldSize newSize
        | none => a.move pointer oldSize newSize

def usableSize (pointer : ℕ) : ℕ :=
  if pointer = 0 then 0 else (get? a.allocations pointer).getD 0

end Arena

/-- The calls that work on one arena, after its handle was resolved. -/
inductive Call where
  | malloc (size : ℕ)
  | calloc (count size : ℕ)
  | memalign (alignment size : ℕ)
  | realloc (pointer size : ℕ)
  | free (pointer : ℕ)
  deriving DecidableEq

/-- `MspaceMalloc`, `MspaceCalloc`, `MspaceMemalign`, `MspaceRealloc` and `MspaceFree`: the
arena afterwards and the result, a pointer or, for `free`, its code. -/
def Call.run (a : Arena) : Call → Except Abort (Arena × ℕ)
  | .malloc size => a.allocate size defaultAlignment
  | .calloc count size =>
    if count ≠ 0 ∧ (2 ^ 64 - 1) / count < size then .ok (a, 0)
    else a.allocate (count * size) defaultAlignment
  | .memalign alignment size =>
    if !isPowerOfTwo alignment then .ok (a, 0)
    else a.allocate size (max alignment defaultAlignment)
  | .realloc pointer size => a.realloc pointer size
  | .free pointer => a.free pointer

/-- The alignment and the size a call asks for. -/
def Call.request : Call → Option (ℕ × ℕ)
  | .malloc size => some (1, size)
  | .calloc count size => some (1, count * size)
  | .memalign alignment size => some (alignment, size)
  | .realloc _ size => some (1, size)
  | .free _ => none

/-- The arenas that calls make of the first one. -/
inductive Reachable (first : Arena) : Arena → Prop where
  | refl : Reachable first first
  | call {a a' : Arena} {result : ℕ} (c : Call) (h : Reachable first a)
      (hrun : c.run a = .ok (a', result)) : Reachable first a'

end PS4Droid.Libc
