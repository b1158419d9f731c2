import PS4Droid.Foundations.Segments
import PS4Droid.Foundations.Words

/-!
# Splitting, carving and merging

`MemoryManager::Split`, `CarveVMA`, `CarvePhysArea` and the two `MergeAdjacent`
functions, over a map and a handle. A handle is the key of the node an iterator
points at. The two kinds of map say how their areas are cut and joined; the map
operations themselves are those of `Segments`.
-/

namespace PS4Droid.Memory

open OrderedMap

/-!
### Areas

The data model of `core/memory.h`: physical areas, virtual memory areas, the
protection and mapping flags, and the faults that end a call. Addresses and
sizes are natural numbers; every `u64` addition and subtraction that the source
performs goes through `add64` and `sub64`, which wrap at `2 ^ 64`.
-/

/-- The assertions of the memory manager, each named after the text it prints or the
condition it states. -/
inductive Assertion
  | splitOffset
  | addingToMappedRegion
  | mappingCannotFit
  | physicalAddressNotInMap
  | addingToAllocatedRegion
  | physicalMappingCannotFit
  | vmaToMapIsNotFree
  | failedToUnmapPhysicalMemory
  | failedToDecommitPooledMemory
  | failedToCommitPooledMemory
  | failedToMapPhysicalMemory
  | unmapProgressImpossible
  | accessInvalidAddress
  | inputAddressOutOfBounds
  | filesCannotBeMappedToGpu
  | unableToShrinkFlexible
  | unableToShrinkDmem
  | mprotectFailed
  deriving DecidableEq

/-- How a call can end without returning: a failed assertion stops the emulator, an access
through an invalid iterator or a division by zero is undefined, and a loop may make no
progress. -/
inductive Fault
  | assertion (which : Assertion)
  | undefinedBehaviour
  | divergence
  deriving DecidableEq

/-- `ASSERT_MSG`. -/
def require (p : Prop) [Decidable p] (which : Assertion) : Except Fault Unit :=
  if p then .ok () else .error (.assertion which)

/-- Dereference an iterator that has to be valid. -/
def deref {γ : Type} : Option γ → Except Fault γ
  | some c => .ok c
  | none => .error .undefinedBehaviour

/-! `MemoryProt` and `MemoryMapFlags` are `u32` bit sets. -/

namespace MemoryProt

def noAccess : UInt32 := 0
def cpuRead : UInt32 := 1
def cpuWrite : UInt32 := 2
def cpuReadWrite : UInt32 := 3
def cpuExec : UInt32 := 4
def gpuRead : UInt32 := 16
def gpuReadWrite : UInt32 := 48

end MemoryProt

namespace MemoryMapFlags

def fixed : UInt32 := 0x10
def noOverwrite : UInt32 := 0x80
def void : UInt32 := 0x100
def stack : UInt32 := 0x400
def anon : UInt32 := 0x1000
def noCoalesce : UInt32 := 0x400000

end MemoryMapFlags

/-- `True(set & flag)` of the flag enumerations. -/
def hasFlag (set flag : UInt32) : Bool := (set &&& flag) != 0

/-- On the console read access is appended to every writable mapping. -/
def appendRead (prot : UInt32) : UInt32 :=
  if hasFlag prot MemoryProt.cpuWrite then prot ||| MemoryProt.cpuRead else prot

inductive PhysicalMemoryType
  | free
  | allocated
  | mapped
  | pooled
  | committed
  | flexible
  deriving DecidableEq

structure PhysicalMemoryArea where
  base : ℕ
  size : ℕ
  memoryType : ℤ
  dmaType : PhysicalMemoryType
  deriving DecidableEq

namespace PhysicalMemoryArea

def getEnd (a : PhysicalMemoryArea) : ℕ := add64 a.base a.size

def canMergeWith (a next : PhysicalMemoryArea) : Bool :=
  add64 a.base a.size == next.base && a.memoryType == next.memoryType && a.dmaType == next.dmaType

/-- Both areas in one; only the size changes. -/
def join (a next : PhysicalMemoryArea) : PhysicalMemoryArea :=
  { a with size := add64 a.size next.size }

end PhysicalMemoryArea

abbrev PhysMap := List (ℕ × PhysicalMemoryArea)

inductive VMAType
  | free
  | reserved
  | direct
  | flexible
  | pooled
  | poolReserved
  | stack
  | code
  | file
  deriving DecidableEq

structure VirtualMemoryArea where
  base : ℕ
  size : ℕ
  physAreas : PhysMap
  type : VMAType
  prot : UInt32
  name : String
  fd : ℤ
  disallowMerge : Bool
  deriving DecidableEq

abbrev VMAMap := List (ℕ × VirtualMemoryArea)

namespace VirtualMemoryArea

/-- `VirtualMemoryArea{base, size}`: everything else has its default. -/
def ofRange (base size : ℕ) : VirtualMemoryArea :=
  { base, size, physAreas := [], type := .free, prot := MemoryProt.noAccess, name := "", fd := 0,
    disallowMerge := false }

def contains (v : VirtualMemoryArea) (addr size : ℕ) : Bool :=
  addr ≥ v.base && add64 addr size ≤ add64 v.base v.size

def isFree (v : VirtualMemoryArea) : Bool := v.type == .free

def isMapped (v : VirtualMemoryArea) : Bool :=
  v.type != .free && v.type != .reserved && v.type != .poolReserved

/-- `MemoryManager::HasPhysicalBacking`. -/
def hasPhysicalBacking (v : VirtualMemoryArea) : Bool :=
  v.type == .direct || v.type == .flexible || v.type == .pooled

/-- Two direct mappings only merge when the backing continues; reading the last or first
physical area of an area without any is undefined. -/
def directBackingContinues (v next : VirtualMemoryArea) : Except Fault Bool :=
  if v.type = .direct ∧ next.type = .direct then do
    let last ← deref v.physAreas.getLast?
    let first ← deref next.physAreas.head?
    return add64 last.2.base last.2.size == first.2.base &&
      last.2.memoryType == first.2.memoryType
  else
    return true

def canMergeWith (v next : VirtualMemoryArea) : Except Fault Bool :=
  if v.disallowMerge || next.disallowMerge then
    return false
  else if add64 v.base v.size ≠ next.base then
    return false
  else do
    let continues ← directBackingContinues v next
    return continues && v.prot == next.prot && v.type == next.type && v.name == next.name

/-- The physical areas of `next` are appended behind those of `v`. -/
def join (v next : VirtualMemoryArea) : VirtualMemoryArea :=
  { v with
    size := add64 v.size next.size
    physAreas := next.physAreas.foldl
      (fun areas area => assign areas (add64 v.size area.1) area.2) v.physAreas }

end VirtualMemoryArea

/-! ### Splitting and merging -/

/-- `std::prev(map.upper_bound(target))`; there is no such node below the first key. -/
def findEntry {γ : Type} (map : List (ℕ × γ)) (target : ℕ) : Except Fault (ℕ × γ) :=
  deref (floor map target)

/-- How `Split(PhysMap&, PhysHandle, u64)` and `MergeAdjacent(PhysMap&, PhysHandle)` cut and
join physical areas. -/
def physKind : Segments Fault PhysicalMemoryArea where
  base := PhysicalMemoryArea.base
  size := PhysicalMemoryArea.size
  front area offset := { area with size := offset }
  back area offset :=
    { area with base := add64 area.base offset, size := sub64 area.size offset }
  canMerge a next := .ok (a.canMergeWith next)
  join := PhysicalMemoryArea.join
  dangling := .undefinedBehaviour
  badOffset := .assertion .splitOffset

namespace PhysMap

def mergeAdjacent (map : PhysMap) (iter : ℕ) : Except Fault (PhysMap × ℕ) :=
  physKind.mergeAdjacent map iter

def split (map : PhysMap) (handle offsetInArea : ℕ) : Except Fault (PhysMap × ℕ) :=
  physKind.split map handle offsetInArea

def carvePhysArea (map : PhysMap) (addr size : ℕ) : Except Fault (PhysMap × ℕ) := do
  let (handle, area) ← findEntry map addr
  require (addr ≤ area.getEnd) .physicalAddressNotInMap
  require (area.base ≤ addr) .addingToAllocatedRegion
  let startInArea := sub64 addr area.base
  let endInArea := add64 startInArea size
  require (endInArea ≤ area.size) .physicalMappingCannotFit
  physKind.carve map handle area.size startInArea endInArea

/-- Carve `[addr, addr + size)` and change the carved area. -/
def carveWith (map : PhysMap) (addr size : ℕ) (f : PhysicalMemoryArea → PhysicalMemoryArea) :
    Except Fault (PhysMap × ℕ × PhysicalMemoryArea) := do
  let (map, handle) ← carvePhysArea map addr size
  let area ← deref (get? map handle)
  return (assign map handle (f area), handle, f area)

/-- Carve `[addr, addr + size)`, change the carved area, and merge it with its neighbours.
The result carries the handle that `MergeAdjacent` returned and the area before merging. -/
def retype (map : PhysMap) (addr size : ℕ) (f : PhysicalMemoryArea → PhysicalMemoryArea) :
    Except Fault (PhysMap × ℕ × PhysicalMemoryArea) := do
  let (map, handle, area) ← carveWith map addr size f
  let (map, handle) ← mergeAdjacent map handle
  return (map, handle, area)

end PhysMap

namespace VMAMap

/-- The physical areas in front of the cut. -/
def frontAreas (areas : PhysMap) (cut : ℕ) : PhysMap :=
  areas.foldl (fun front area =>
    let front := if add64 area.1 area.2.size ≤ cut then assign front area.1 area.2 else front
    if area.1 < cut ∧ add64 area.1 area.2.size > cut then
      assign front area.1 { area.2 with size := sub64 cut area.1 }
    else
      front) []

/-- The physical areas behind the cut, at offsets relative to it. -/
def backAreas (areas : PhysMap) (cut : ℕ) : PhysMap :=
  areas.foldl (fun back area =>
    let back := if area.1 < cut ∧ add64 area.1 area.2.size > cut then
        assign back 0 { area.2 with
          base := add64 area.2.base (sub64 cut area.1)
          size := sub64 area.2.size (sub64 cut area.1) }
      else
        back
    if area.1 ≥ cut then assign back (sub64 area.1 cut) area.2 else back) []

end VMAMap

/-- How `Split(VMAHandle, u64)` and `MergeAdjacent(VMAMap&, VMAHandle)` cut and join virtual
areas. The physical areas are distributed only when the area is backed. -/
def vmaKind : Segments Fault VirtualMemoryArea where
  base := VirtualMemoryArea.base
  size := VirtualMemoryArea.size
  front vma offset :=
    if vma.hasPhysicalBacking then
      { vma with size := offset, physAreas := VMAMap.frontAreas vma.physAreas offset }
    else
      { vma with size := offset }
  back vma offset :=
    let newVma := { vma with base := add64 vma.base offset, size := sub64 vma.size offset }
    if newVma.hasPhysicalBacking then
      { newVma with physAreas := VMAMap.backAreas vma.physAreas offset }
    else
      newVma
  canMerge := VirtualMemoryArea.canMergeWith
  join := VirtualMemoryArea.join
  dangling := .undefinedBehaviour
  badOffset := .assertion .splitOffset

namespace VMAMap

def mergeAdjacent (map : VMAMap) (iter : ℕ) : Except Fault (VMAMap × ℕ) :=
  vmaKind.mergeAdjacent map iter

def split (map : VMAMap) (handle offsetInVma : ℕ) : Except Fault (VMAMap × ℕ) :=
  vmaKind.split map handle offsetInVma

def carveVMA (map : VMAMap) (virtualAddr size : ℕ) : Except Fault (VMAMap × ℕ) := do
  let (handle, vma) ← findEntry map virtualAddr
  require (vma.base ≤ virtualAddr) .addingToMappedRegion
  let startInVma := sub64 virtualAddr vma.base
  let endInVma := add64 startInVma size
  if startInVma = 0 ∧ size = vma.size then
    return (map, handle)
  else do
    require (endInVma ≤ vma.size) .mappingCannotFit
    vmaKind.carve map handle vma.size startInVma endInVma

/-- Carve `[virtualAddr, virtualAddr + size)` and change the carved area. -/
def carveWith (map : VMAMap) (virtualAddr size : ℕ) (f : VirtualMemoryArea → VirtualMemoryArea) :
    Except Fault (VMAMap × ℕ) := do
  let (map, handle) ← carveVMA map virtualAddr size
  let vma ← deref (get? map handle)
  return (assign map handle (f vma), handle)

/-- Carve, change and merge with the neighbours. -/
def retype (map : VMAMap) (virtualAddr size : ℕ) (f : VirtualMemoryArea → VirtualMemoryArea) :
    Except Fault VMAMap := do
  let (map, handle) ← carveWith map virtualAddr size f
  Prod.fst <$> mergeAdjacent map handle

end VMAMap

end PS4Droid.Memory
