import PS4Droid.Memory.Carving

/-!
# The memory manager

`MemoryManager` of `core/memory.cpp`: the virtual map, the direct and flexible
physical maps, the two counters, and the host mapping that `AddressSpace` holds.
A call takes the manager and returns the new one together with its status, or a
fault. Loops whose bound is not the length of a list run with `loopBound` steps,
more than any loop over 64-bit addresses that advances can take. Locks, logging
and the notifications to the rasterizer do not touch this state and are left out.
-/

namespace PS4Droid.Memory

open OrderedMap

def loopBound : ℕ := 2 ^ 64

/-- The `PAddr` and `VAddr` value `-1`. -/
def noAddress : ℕ := 2 ^ 64 - 1

def kiB (n : ℕ) : ℕ := n * 1024

def miB (n : ℕ) : ℕ := n * 1048576

def defaultMappingBase : ℕ := 0x200000000

def fw200 : UInt32 := 0x2000000

inductive OrbisError
  | enoent
  | ebadf
  | enomem
  | eacces
  | efault
  | ebusy
  | einval
  | eagain
  | enametoolong
  deriving DecidableEq

/-- The `s32` a call returns. `raw` is a truncated byte count that happens to be negative. -/
inductive Status
  | ok
  | error (code : OrbisError)
  | raw (value : ℕ)
  deriving DecidableEq

/-- What the host address space holds at one guest address. -/
inductive HostByte
  | unmapped
  | anonymous
  | backing (offset : ℕ)
  | file (handle offset : ℕ)
  deriving DecidableEq

abbrev AddressSpace := ℕ → HostByte

namespace AddressSpace

/-- `AddressSpace::Map`: `-1` asks for private memory, anything else is an offset into the
backing file. -/
def map (host : AddressSpace) (virtualAddr size physAddr : ℕ) : AddressSpace := fun x =>
  if virtualAddr ≤ x ∧ x < virtualAddr + size then
    if physAddr = noAddress then .anonymous else .backing (physAddr + (x - virtualAddr))
  else
    host x

def mapFile (host : AddressSpace) (virtualAddr size offset handle : ℕ) : AddressSpace := fun x =>
  if virtualAddr ≤ x ∧ x < virtualAddr + size then
    if offset = noAddress then .anonymous else .file handle (offset + (x - virtualAddr))
  else
    host x

def unmap (host : AddressSpace) (virtualAddr size : ℕ) : AddressSpace := fun x =>
  if virtualAddr ≤ x ∧ x < virtualAddr + size then .unmapped else host x

end AddressSpace

/-- Constants of the address space the emulator reserved at start. -/
structure Layout where
  systemManagedBase : ℕ
  userBase : ℕ
  userSize : ℕ
  hostPage : ℕ

structure MemoryManager where
  vmaMap : VMAMap
  dmemMap : PhysMap
  fmemMap : PhysMap
  totalDirectSize : ℕ
  totalFlexibleSize : ℕ
  flexibleUsage : ℕ
  poolBudget : ℕ
  sdkVersion : UInt32
  layout : Layout
  host : AddressSpace

namespace MemoryManager

variable (s : MemoryManager)

def findVMA (target : ℕ) : Except Fault (ℕ × VirtualMemoryArea) := findEntry s.vmaMap target

def findDmemArea (target : ℕ) : Except Fault (ℕ × PhysicalMemoryArea) := findEntry s.dmemMap target

/-- The loop of `IsValidMapping` over the areas from the one found first. -/
def rangeContained : VMAMap → ℕ → ℕ → Bool
  | [], _, sizeToValidate => sizeToValidate == 0
  | (_, vma) :: rest, addrToCheck, sizeToValidate =>
    if sizeToValidate = 0 then
      true
    else
      let sizeInVma := min (sub64 vma.size (sub64 addrToCheck vma.base)) sizeToValidate
      let sizeToValidate := sizeToValidate - sizeInVma
      let addrToCheck := add64 addrToCheck sizeInVma
      match rest with
      | [] => sizeToValidate == 0
      | (nextKey, next) :: rest =>
        if 0 < sizeToValidate ∧ addrToCheck ≠ next.base then
          false
        else
          rangeContained ((nextKey, next) :: rest) addrToCheck sizeToValidate

def isValidMapping (virtualAddr size : ℕ) : Except Fault Bool := do
  let last ← deref s.vmaMap.getLast?
  let first ← deref s.vmaMap.head?
  if virtualAddr < first.1 ∨ virtualAddr ≥ add64 last.1 last.2.size then
    return false
  else if size = 0 then
    return true
  else do
    let entry ← s.findVMA virtualAddr
    return rangeContained (entry :: above s.vmaMap entry.1) virtualAddr size

/-- The guard `ASSERT_MSG(IsValidMapping(...))` of most calls. -/
def requireValidMapping (virtualAddr size : ℕ) : Except Fault Unit := do
  let valid ← s.isValidMapping virtualAddr size
  require (valid = true) .accessInvalidAddress

/-- The search over the areas behind the first candidate. -/
def searchAbove (size alignment maxSearchAddress : ℕ) : VMAMap → ℕ
  | [] => noAddress
  | (_, vma) :: rest =>
    if vma.isFree then
      let virtualAddr := alignUp vma.base alignment
      if virtualAddr > add64 vma.base vma.size then
        searchAbove size alignment maxSearchAddress rest
      else if virtualAddr ≥ maxSearchAddress then
        noAddress
      else if sub64 (add64 vma.base vma.size) virtualAddr ≥ size then
        virtualAddr
      else
        searchAbove size alignment maxSearchAddress rest
    else
      searchAbove size alignment maxSearchAddress rest

/-- The alignment parameter is a `u32`, so larger alignments lose their high bits here. -/
def searchFree (virtualAddr size alignment : ℕ) : Except Fault ℕ := do
  let alignment := alignment % 2 ^ 32
  let virtualAddr := max virtualAddr s.layout.systemManagedBase
  let valid ← s.isValidMapping virtualAddr 0
  require (valid = true) .inputAddressOutOfBounds
  if alignment = 0 then
    throw .undefinedBehaviour
  else do
    let virtualAddr := alignUp virtualAddr alignment
    let (handle, vma) ← s.findVMA virtualAddr
    if vma.isFree && vma.contains virtualAddr size then
      return virtualAddr
    else
      return searchAbove size alignment (add64 s.layout.userBase s.layout.userSize)
        (above s.vmaMap handle)

/-! ### Physical pieces of a virtual range -/

/-- Walk the physical areas that back a virtual range, from the one that contains
`startInVma`, and hand each physical piece to `visit` until `left` bytes are used up. -/
def forEachPiece (visit : ℕ → ℕ → PhysMap → Except Fault PhysMap) (startInVma : ℕ) :
    PhysMap → ℕ → PhysMap → Except Fault (PhysMap × ℕ)
  | [], left, map => .ok (map, left)
  | (offset, area) :: rest, left, map =>
    if left = 0 then
      .ok (map, left)
    else do
      let dmaOffset := sub64 (max offset startInVma) offset
      let sizeInDma := min left (sub64 area.size dmaOffset)
      let map ← visit (add64 area.base dmaOffset) sizeInDma map
      forEachPiece visit startInVma rest (left - sizeInDma) map

def retypePiece (dmaType : PhysicalMemoryType) (physAddr size : ℕ) (map : PhysMap) :
    Except Fault PhysMap :=
  Prod.fst <$> PhysMap.retype map physAddr size ({ · with dmaType })

/-- Give every physical piece behind `[startInVma, startInVma + size)` the type `dmaType`.
The `Bool` of the result says that the whole range was backed. -/
def retypeBacking (dmaType : PhysicalMemoryType) (areas : PhysMap) (startInVma size : ℕ)
    (map : PhysMap) : Except Fault (PhysMap × Bool) := do
  let first ← findEntry areas startInVma
  let (map, left) ← forEachPiece (retypePiece dmaType) startInVma
    (first :: above areas first.1) size map
  return (map, left == 0)

/-- The area state after an unmap. -/
def freed (vma : VirtualMemoryArea) : VirtualMemoryArea :=
  { vma with
    type := .free, prot := MemoryProt.noAccess, physAreas := [], disallowMerge := false, name :=
      "" }

/-- Return the physical memory behind an area that is about to be unmapped: direct memory
becomes allocated again, flexible memory becomes free and leaves the usage counter. -/
def releaseBacking (vma : VirtualMemoryArea) (startInVma sizeInVma : ℕ) :
    Except Fault MemoryManager :=
  if vma.physAreas.length > 0 then
    match vma.type with
    | .direct => do
      let (dmemMap, done) ← retypeBacking .allocated vma.physAreas startInVma sizeInVma s.dmemMap
      require (done = true) .failedToUnmapPhysicalMemory
      return { s with dmemMap }
    | .flexible => do
      let (fmemMap, done) ← retypeBacking .free vma.physAreas startInVma sizeInVma s.fmemMap
      require (done = true) .failedToUnmapPhysicalMemory
      return { s with fmemMap, flexibleUsage := sub64 s.flexibleUsage sizeInVma }
    | _ => do
      let first ← findEntry vma.physAreas startInVma
      let (_, left) ← forEachPiece (fun _ _ map => .ok map) startInVma
        (first :: above vma.physAreas first.1) sizeInVma []
      require (left = 0) .failedToUnmapPhysicalMemory
      return s
  else
    return s

def unmapBytesFromEntry (virtualAddr : ℕ) (vma : VirtualMemoryArea) (size : ℕ) :
    Except Fault (MemoryManager × ℕ) := do
  let startInVma := sub64 virtualAddr vma.base
  let sizeInVma := min (sub64 vma.size startInVma) size
  if vma.type = .free ∨ vma.type = .pooled then
    return (s, sizeInVma)
  else do
    let s ← s.releaseBacking vma startInVma sizeInVma
    let vmaMap ← VMAMap.retype s.vmaMap virtualAddr sizeInVma freed
    let host := if vma.type ≠ .reserved ∧ vma.type ≠ .poolReserved then
        AddressSpace.unmap s.host virtualAddr sizeInVma
      else
        s.host
    return ({ s with vmaMap, host }, sizeInVma)

def unmapMemoryLoop : ℕ → MemoryManager → ℕ → ℕ → ℕ → Except Fault MemoryManager
  | 0, _, _, _, _ => .error .divergence
  | fuel + 1, s, virtualAddr, size, unmappedBytes => do
    let addr := add64 virtualAddr unmappedBytes
    let (_, vma) ← s.findVMA addr
    let (s, unmapped) ← s.unmapBytesFromEntry addr vma (sub64 size unmappedBytes)
    require (0 < unmapped) .unmapProgressImpossible
    let unmappedBytes := add64 unmappedBytes unmapped
    if unmappedBytes < size then
      unmapMemoryLoop fuel s virtualAddr size unmappedBytes
    else
      return s

def unmapMemoryImpl (virtualAddr size : ℕ) : Except Fault MemoryManager :=
  unmapMemoryLoop loopBound s virtualAddr size 0

def unmapMemory (virtualAddr size : ℕ) : Except Fault (MemoryManager × Status) :=
  if size = 0 then
    return (s, .ok)
  else do
    let virtualAddr := alignDown virtualAddr (kiB 16)
    let size := alignUp size (kiB 16)
    s.requireValidMapping virtualAddr size
    let s ← s.unmapMemoryImpl virtualAddr size
    return (s, .ok)

end MemoryManager

end PS4Droid.Memory
