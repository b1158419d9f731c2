import PS4Droid.Memory.Manager

/-!
# The public operations of the memory manager

Allocation and release of direct memory, the pool calls, the mapping calls and
the calls that change attributes of existing mappings, each as the source runs
it, with its validation stages, its loops over the maps and its error returns.
-/

namespace PS4Droid.Memory

open OrderedMap

namespace MemoryManager

variable (s : MemoryManager)

/-! ### Mapping -/

/-- The loop of `CreateArea` that clears the range of a fixed mapping. -/
def unmapRange : ℕ → MemoryManager → ℕ → ℕ → Except Fault MemoryManager
  | 0, _, _, _ => .error .divergence
  | fuel + 1, s, unmapAddr, unmapSize =>
    if unmapSize = 0 then
      return s
    else do
      let (_, vma) ← s.findVMA unmapAddr
      let (s, unmapped) ← s.unmapBytesFromEntry unmapAddr vma unmapSize
      unmapRange fuel s (add64 unmapAddr unmapped) (unmapSize - unmapped)

/-- A fixed mapping first unmaps what is in its range. -/
def clearRange (virtualAddr size : ℕ) (flags : UInt32) : Except Fault MemoryManager :=
  if hasFlag flags MemoryMapFlags.fixed then unmapRange loopBound s virtualAddr size else .ok s

/-- The state of a new area; its physical areas are filled in later. -/
def newArea (prot flags : UInt32) (type : VMAType) (name : String) (vma : VirtualMemoryArea) :
    VirtualMemoryArea :=
  { vma with
    disallowMerge := hasFlag flags MemoryMapFlags.noCoalesce
    prot := appendRead prot, name, type, physAreas := [] }

/-- `CreateArea`: the result is the handle of the new area. -/
def createArea (virtualAddr size : ℕ) (prot flags : UInt32) (type : VMAType) (name : String) :
    Except Fault (MemoryManager × ℕ) := do
  let s ← s.clearRange virtualAddr size flags
  let (_, vma) ← s.findVMA virtualAddr
  require (vma.isFree = true) .vmaToMapIsNotFree
  let (vmaMap, handle) ← VMAMap.carveWith s.vmaMap virtualAddr size
    (newArea prot flags type name)
  return ({ s with vmaMap }, handle)

/-- What a loop that gathers physical memory for a new area carries: the physical map, the
areas recorded so far, and the host mapping. -/
structure Gathered where
  map : PhysMap
  areas : PhysMap
  host : AddressSpace

/-- Take physical memory for `[mappedAddr + offset, ..)` from the areas of type `source`, in
order from `handle`, until `remaining` bytes are found. Every area taken is carved from its
start, changed by `change`, recorded at its offset, mapped on the host and merged. -/
def takeAreas (source : PhysicalMemoryType) (change : PhysicalMemoryArea → PhysicalMemoryArea)
    (mappedAddr : ℕ) : ℕ → Option ℕ → Gathered → ℕ → ℕ → Except Fault (Gathered × ℕ)
  | 0, _, _, _, _ => .error .divergence
  | _ + 1, none, g, _, remaining => return (g, remaining)
  | fuel + 1, some handle, g, offset, remaining =>
    if remaining = 0 then
      return (g, remaining)
    else do
      let area ← deref (get? g.map handle)
      if area.dmaType ≠ source then
        takeAreas source change mappedAddr fuel
          ((next g.map handle).map Prod.fst) g offset remaining
      else do
        let sizeToMap := min remaining area.size
        let (map, handle, taken) ← PhysMap.retype g.map area.base sizeToMap change
        let (areas, _) ← PhysMap.mergeAdjacent (assign g.areas offset taken) offset
        let host := AddressSpace.map g.host (add64 mappedAddr offset) sizeToMap taken.base
        takeAreas source change mappedAddr fuel ((next map handle).map Prod.fst)
          { map, areas, host } (add64 offset sizeToMap) (remaining - sizeToMap)

/-- Record the direct memory `[physAddr, ..)` behind a new area, one area of the direct map
at a time. -/
def mapDirectAreas (physAddr : ℕ) :
    ℕ → PhysMap → PhysMap → ℕ → ℕ → Except Fault (PhysMap × PhysMap × ℕ)
  | 0, _, _, _, _ => .error .divergence
  | fuel + 1, dmemMap, areas, currentPhysAddr, remaining =>
    if remaining = 0 then
      return (dmemMap, areas, remaining)
    else do
      let (_, area) ← findEntry dmemMap currentPhysAddr
      let startPhysAddr := max currentPhysAddr area.base
      let offsetInDma := sub64 startPhysAddr area.base
      let sizeInDma := min (sub64 area.size offsetInDma) remaining
      let (dmemMap, _, taken) ← PhysMap.retype dmemMap startPhysAddr sizeInDma
        ({ · with dmaType := .mapped })
      let offsetInVma := sub64 currentPhysAddr physAddr
      let (areas, _) ← PhysMap.mergeAdjacent (assign areas offsetInVma taken) offsetInVma
      mapDirectAreas physAddr fuel dmemMap areas (add64 currentPhysAddr sizeInDma)
        (remaining - sizeInDma)

/-- Every direct area in front of `endAddr` has to be allocated, and with `validateDmem` it
must not be mapped yet. -/
def checkDirectAreas (validateDmem : Bool) (endAddr : ℕ) : PhysMap → Option OrbisError
  | [] => none
  | (_, area) :: rest =>
    if area.base < endAddr then
      if area.dmaType ≠ .allocated ∧ area.dmaType ≠ .mapped then
        some .enomem
      else if validateDmem ∧ area.dmaType = .mapped then
        some .ebusy
      else
        checkDirectAreas validateDmem endAddr rest
    else
      none

def checkPhysicalRange (validateDmem : Bool) (physAddr size : ℕ) :
    Except Fault (Option OrbisError) :=
  if physAddr = noAddress then
    return none
  else if s.totalDirectSize < add64 physAddr size then
    return some .enomem
  else do
    let first ← s.findDmemArea physAddr
    return checkDirectAreas validateDmem (add64 physAddr size) (first :: above s.dmemMap first.1)

/-- Where a mapping goes: a fixed address is kept (after the overwrite check when
`NoOverwrite` is set), any other request is a hint for the search. -/
def placeMapping (virtualAddr size : ℕ) (flags : UInt32) (alignment : ℕ) :
    Except Fault (Option ℕ) :=
  if hasFlag flags MemoryMapFlags.fixed then
    if hasFlag flags MemoryMapFlags.noOverwrite then do
      s.requireValidMapping virtualAddr size
      let (_, vma) ← s.findVMA virtualAddr
      let remainingSize := sub64 (add64 vma.base vma.size) virtualAddr
      if vma.isFree = false ∨ remainingSize < size then
        return none
      else
        return some virtualAddr
    else
      return some virtualAddr
  else do
    let virtualAddr := if virtualAddr = 0 then defaultMappingBase else virtualAddr
    let found ← s.searchFree virtualAddr size alignment
    if found = noAddress then
      return none
    else
      return some found

/-- The arguments of `MapMemory`. -/
structure MapRequest where
  virtualAddr : ℕ
  size : ℕ
  prot : UInt32
  flags : UInt32
  type : VMAType
  name : String
  validateDmem : Bool
  physAddr : ℕ
  alignment : ℕ

/-- Attach physical memory to the new area and map it on the host. -/
def backArea (q : MapRequest) (handle : ℕ) : Except Fault MemoryManager := do
  let vma ← deref (get? s.vmaMap handle)
  match q.type with
  | .flexible => do
    let start : Gathered := { map := s.fmemMap, areas := vma.physAreas, host := s.host }
    let (g, remaining) ← takeAreas .free ({ · with dmaType := .flexible }) vma.base loopBound
      (s.fmemMap.head?.map Prod.fst) start 0 q.size
    require (remaining = 0) .failedToMapPhysicalMemory
    return { s with
      vmaMap := assign s.vmaMap handle { vma with physAreas := g.areas }
      fmemMap := g.map, host := g.host
      flexibleUsage := add64 s.flexibleUsage q.size }
  | .direct => do
    let (dmemMap, areas, remaining) ← mapDirectAreas q.physAddr loopBound s.dmemMap vma.physAreas
      q.physAddr q.size
    require (remaining = 0) .failedToMapPhysicalMemory
    return { s with
      vmaMap := assign s.vmaMap handle { vma with physAreas := areas }
      dmemMap }
  | _ => return s

/-- Merge the new area with its neighbours; direct mappings only coalesce from firmware 2.00
on. -/
def coalesce (type : VMAType) (handle : ℕ) : Except Fault VMAMap :=
  if type ≠ .direct ∨ fw200 ≤ s.sdkVersion then Prod.fst <$> VMAMap.mergeAdjacent s.vmaMap handle
  else .ok s.vmaMap

def mapMemory (q : MapRequest) : Except Fault (MemoryManager × Status × ℕ) := do
  if q.type = .flexible ∧ add64 s.flexibleUsage q.size > s.totalFlexibleSize then
    return (s, .error .einval, 0)
  else match ← s.checkPhysicalRange q.validateDmem q.physAddr q.size with
    | some code => return (s, .error code, 0)
    | none =>
      let alignment := if q.alignment > 0 then q.alignment else kiB 16
      match ← s.placeMapping q.virtualAddr q.size q.flags alignment with
      | none => return (s, .error .enomem, 0)
      | some virtualAddr => do
        let (s, handle) ← s.createArea virtualAddr q.size q.prot q.flags q.type q.name
        let vma ← deref (get? s.vmaMap handle)
        let mappedAddr := vma.base
        let s ← s.backArea q handle
        let vmaMap ← s.coalesce q.type handle
        let host := if q.type ≠ .reserved ∧ q.type ≠ .poolReserved ∧ q.type ≠ .flexible then
            AddressSpace.map s.host mappedAddr q.size q.physAddr
          else
            s.host
        return ({ s with vmaMap, host }, .ok, mappedAddr)

/-- What `HandleTable::GetFile` says about a descriptor. -/
structure OpenFile where
  isRegular : Bool
  writable : Bool
  mapping : ℕ
  size : ℕ

def mapFile (virtualAddr size : ℕ) (prot flags : UInt32) (fd : ℤ) (file : Option OpenFile)
    (physAddr : ℕ) : Except Fault (MemoryManager × Status × ℕ) :=
  match file with
  | none => return (s, .error .ebadf, 0)
  | some file =>
    if file.isRegular = false then
      return (s, .error .ebadf, 0)
    else do
      let prot := appendRead prot
      let prot := if file.writable then prot else prot &&& ~~~MemoryProt.cpuWrite
      require (prot < MemoryProt.gpuRead) .filesCannotBeMappedToGpu
      let prot := prot &&& ~~~MemoryProt.cpuExec
      match ← s.placeMapping virtualAddr size flags (kiB 16) with
      | none => return (s, .error .enomem, 0)
      | some virtualAddr => do
        let (s, handle) ← s.createArea virtualAddr size prot flags .file "anon"
        let vma ← deref (get? s.vmaMap handle)
        let vmaMap := assign s.vmaMap handle { vma with fd }
        let host := AddressSpace.mapFile s.host vma.base size physAddr file.mapping
        -- Host pages behind the end of the file are backed by private zero pages.
        let fileBytes := if physAddr < file.size then file.size - physAddr else 0
        let validSize := min size (alignUp fileBytes s.layout.hostPage)
        let host := if validSize < size then
            AddressSpace.map host (add64 vma.base validSize) (size - validSize) noAddress
          else
            host
        return ({ s with vmaMap, host }, .ok, vma.base)

/-! ### Direct memory -/

/-- Skip to the first free area, from the head of the list on, that holds `size` bytes at its
aligned start. -/
def findFreeArea (size alignment : ℕ) : PhysMap → ℕ → Option (ℕ × ℕ)
  | [], _ => none
  | (key, area) :: rest, mappingStart =>
    if area.dmaType ≠ .free ∨ area.getEnd < add64 mappingStart size then
      findFreeArea size alignment rest (alignUp ((rest.head?.map (·.2.base)).getD 0) alignment)
    else
      some (key, mappingStart)

def poolExpand (searchStart _searchEnd size alignment : ℕ) :
    Except Fault (MemoryManager × ℕ) := do
  let alignment := if alignment > 0 then alignment else kiB 64
  let (handle, area) ← s.findDmemArea searchStart
  let mappingStart := if searchStart > area.base then alignUp searchStart alignment
    else alignUp area.base alignment
  match findFreeArea size alignment ((handle, area) :: above s.dmemMap handle) mappingStart with
  | none => return (s, noAddress)
  | some (_, mappingStart) => do
    let (dmemMap, _, _) ← PhysMap.carveWith s.dmemMap mappingStart size
      ({ · with dmaType := .pooled, memoryType := 3 })
    return ({ s with dmemMap, poolBudget := add64 s.poolBudget size }, mappingStart)

def allocate (searchStart searchEnd size alignment : ℕ) (memoryType : ℤ) :
    Except Fault (MemoryManager × ℕ) := do
  let alignment := if alignment > 0 then alignment else kiB 16
  let (handle, area) ← s.findDmemArea searchStart
  let mappingStart := alignUp (max searchStart area.base) alignment
  match findFreeArea size alignment ((handle, area) :: above s.dmemMap handle) mappingStart with
  | none => return (s, noAddress)
  | some (dmemArea, mappingStart) =>
    if add64 mappingStart size > searchEnd then
      return (s, noAddress)
    else do
      let (dmemMap, _, _) ← PhysMap.carveWith s.dmemMap mappingStart size
        ({ · with memoryType, dmaType := .allocated })
      -- The iterator merged here is the one found by the search, not the carved one.
      let (dmemMap, _) ← PhysMap.mergeAdjacent dmemMap dmemArea
      return ({ s with dmemMap }, mappingStart)

/-- The pieces `Free` releases; `none` when a checked release meets a free area. A free area
is skipped without counting against the remaining size. -/
def freeList (isChecked : Bool) (physAddr : ℕ) : PhysMap → ℕ → Option (List (ℕ × ℕ))
  | [], _ => some []
  | (key, area) :: rest, remaining =>
    if remaining = 0 then
      some []
    else if area.dmaType = .free then
      if isChecked then none else freeList isChecked physAddr rest remaining
    else
      let currentPhysAddr := max physAddr key
      let sizeInDma := min remaining (sub64 area.size (sub64 currentPhysAddr key))
      (freeList isChecked physAddr rest (remaining - sizeInDma)).map
        ((currentPhysAddr, sizeInDma) :: ·)

/-- The virtual ranges of direct mappings that reference `[physAddr, physAddr + size)`. -/
def removeList (vmaMap : VMAMap) (physAddr size : ℕ) : List (ℕ × ℕ) :=
  vmaMap.flatMap fun (_, vma) =>
    if vma.type = .direct then
      vma.physAreas.filterMap fun (offsetInVma, area) =>
        if add64 physAddr size > area.base ∧ physAddr < add64 area.base area.size then
          let physOffset := sub64 (max area.base physAddr) area.base
          some (add64 (add64 vma.base offsetInVma) physOffset,
            min (sub64 area.size physOffset) size)
        else
          none
    else
      []

def unmapAll : List (ℕ × ℕ) → MemoryManager → Except Fault MemoryManager
  | [], s => .ok s
  | (addr, size) :: rest, s => do
    let s ← s.unmapMemoryImpl addr size
    unmapAll rest s

def freeAll : List (ℕ × ℕ) → PhysMap → Except Fault PhysMap
  | [], map => .ok map
  | (addr, size) :: rest, map => do
    let (map, _, _) ← PhysMap.retype map addr size ({ · with dmaType := .free, memoryType := 0 })
    freeAll rest map

def free (physAddr size : ℕ) (isChecked : Bool) : Except Fault (MemoryManager × Status) :=
  if physAddr > s.totalDirectSize ∨ (isChecked ∧ add64 physAddr size > s.totalDirectSize) then
    return (s, if isChecked then .error .enoent else .ok)
  else do
    let first ← s.findDmemArea physAddr
    match freeList isChecked physAddr (first :: above s.dmemMap first.1) size with
    | none => return (s, .error .enoent)
    | some released => do
      let s ← unmapAll (removeList s.vmaMap physAddr size) s
      let dmemMap ← freeAll released s.dmemMap
      return ({ s with dmemMap }, .ok)

/-! ### Pools -/

/-- The loop of `PoolCommit` that takes uncommitted pool memory. -/
def commitSearch (mappedAddr size : ℕ) (mtype : ℤ) : Except Fault (Gathered × ℕ) :=
  takeAreas .pooled ({ · with dmaType := .committed, memoryType := mtype }) mappedAddr loopBound
    (s.dmemMap.head?.map Prod.fst) { map := s.dmemMap, areas := [], host := s.host } 0 size

def poolCommit (virtualAddr size : ℕ) (prot : UInt32) (mtype : ℤ) :
    Except Fault (MemoryManager × Status) := do
  s.requireValidMapping virtualAddr size
  let mappedAddr := alignUp virtualAddr (kiB 64)
  let (_, vma) ← s.findVMA mappedAddr
  if vma.type ≠ .poolReserved then
    return (s, .error .einval)
  else if vma.contains mappedAddr size = false then
    return (s, .error .einval)
  else if s.poolBudget ≤ size then
    return (s, .error .enomem)
  else do
    -- The area is carved at the address as given, the memory is mapped at the aligned one.
    let (vmaMap, handle) ← VMAMap.carveWith s.vmaMap virtualAddr size
      (newArea prot 0 .pooled "anon")
    let (g, remaining) ← s.commitSearch mappedAddr size mtype
    require (remaining = 0) .failedToCommitPooledMemory
    let newVma ← deref (get? vmaMap handle)
    let (vmaMap, _) ← VMAMap.mergeAdjacent
      (assign vmaMap handle { newVma with physAreas := g.areas })
      handle
    return ({ s with
      vmaMap, dmemMap := g.map, host := g.host, poolBudget := s.poolBudget - size }, .ok)

/-- Areas that end behind the range are not looked at. -/
def decommitAllowed (endAddr : ℕ) : VMAMap → Bool
  | [] => true
  | (_, vma) :: rest =>
    if add64 vma.base vma.size ≤ endAddr then
      if vma.type ≠ .poolReserved ∧ vma.type ≠ .pooled then false
      else decommitAllowed endAddr rest
    else
      true

/-- The area state after a decommit. -/
def decommitted (vma : VirtualMemoryArea) : VirtualMemoryArea :=
  { vma with
    type := .poolReserved, prot := MemoryProt.noAccess, disallowMerge := false, name := "anon"
    physAreas := [] }

/-- Return the committed memory behind a pooled area to the pool. -/
def decommitBacking (vma : VirtualMemoryArea) (startInVma sizeInVma : ℕ) :
    Except Fault MemoryManager :=
  if vma.type = .pooled then do
    let (dmemMap, done) ← retypeBacking .pooled vma.physAreas startInVma sizeInVma s.dmemMap
    require (done = true) .failedToDecommitPooledMemory
    return { s with dmemMap, poolBudget := add64 s.poolBudget sizeInVma }
  else
    return s

def decommitLoop : ℕ → MemoryManager → ℕ → ℕ → Except Fault MemoryManager
  | 0, _, _, _ => .error .divergence
  | fuel + 1, s, currentAddr, remaining =>
    if remaining = 0 then
      return s
    else do
      let (_, vma) ← s.findVMA currentAddr
      let startInVma := sub64 currentAddr vma.base
      let sizeInVma := min remaining (sub64 vma.size startInVma)
      let s ← s.decommitBacking vma startInVma sizeInVma
      let vmaMap ← VMAMap.retype s.vmaMap currentAddr sizeInVma decommitted
      decommitLoop fuel { s with vmaMap } (add64 currentAddr sizeInVma) (remaining - sizeInVma)

def poolDecommit (virtualAddr size : ℕ) : Except Fault (MemoryManager × Status) := do
  s.requireValidMapping virtualAddr size
  let first ← s.findVMA virtualAddr
  if decommitAllowed (add64 virtualAddr size) (first :: above s.vmaMap first.1) then do
    let s ← decommitLoop loopBound s virtualAddr size
    return ({ s with host := AddressSpace.unmap s.host virtualAddr size }, .ok)
  else
    return (s, .error .einval)

/-! ### Attributes -/

/-- Executable permission is hidden from direct, pooled and file mappings. -/
def protectedBits (type : VMAType) (prot : UInt32) : UInt32 :=
  let prot := appendRead prot
  if type = .direct ∨ type = .pooled ∨ type = .file then prot &&& ~~~MemoryProt.cpuExec else prot

def protectBytes (addr : ℕ) (vma : VirtualMemoryArea) (size : ℕ) (prot : UInt32) :
    Except Fault (MemoryManager × ℕ) := do
  let startInVma := sub64 addr vma.base
  let adjustedSize := min (sub64 vma.size startInVma) size
  if vma.type = .free ∨ vma.type = .poolReserved then
    return (s, adjustedSize)
  else do
    let vmaMap ← VMAMap.retype s.vmaMap addr adjustedSize
      ({ · with prot := protectedBits vma.type prot })
    return ({ s with vmaMap }, adjustedSize)

def protectLoop (addr size : ℕ) (prot : UInt32) :
    ℕ → MemoryManager → ℕ → Except Fault (MemoryManager × Status)
  | 0, _, _ => .error .divergence
  | fuel + 1, s, protectedBytes =>
    if protectedBytes < size then do
      let (_, vma) ← s.findVMA (add64 addr protectedBytes)
      let protectedBytes := if vma.base > add64 addr protectedBytes then
          add64 protectedBytes (sub64 vma.base (add64 addr protectedBytes))
        else
          protectedBytes
      let (s, result) ← s.protectBytes (add64 addr protectedBytes) vma
        (sub64 size protectedBytes) prot
      -- The byte count is an `s64`, and a negative one is returned as an error.
      if result ≥ 2 ^ 63 then
        return (s, .raw (result % 2 ^ 32))
      else
        protectLoop addr size prot fuel s (add64 protectedBytes result)
    else
      return (s, .ok)

def protect (addr size : ℕ) (prot : UInt32) : Except Fault (MemoryManager × Status) :=
  if size = 0 then
    return (s, .ok)
  else do
    s.requireValidMapping addr size
    protectLoop addr size prot loopBound s 0

/-- The handle after a merge: the same area, or the next one when it ends at or before
`currentAddr`. -/
def stepHandle (map : VMAMap) (handle currentAddr : ℕ) : Except Fault (Option ℕ) := do
  let vma ← deref (get? map handle)
  if add64 vma.base vma.size ≤ currentAddr then
    return (next map handle).map Prod.fst
  else
    return some handle

/-- Set the memory type of every direct area behind the physical areas of a mapping. -/
def setAreaTypes (memoryType : ℤ) : PhysMap → PhysMap → Except Fault PhysMap
  | [], map => .ok map
  | (_, area) :: rest, map => do
    let (map, _, _) ← PhysMap.carveWith map area.base area.size ({ · with memoryType })
    setAreaTypes memoryType rest map

/-- Set the memory type of one piece of a direct or pooled area; other areas are skipped. -/
def setPieceType (memoryType : ℤ) (handle : ℕ) (vma : VirtualMemoryArea) (addr size : ℕ) :
    Except Fault (MemoryManager × ℕ) :=
  if vma.type = .direct ∨ vma.type = .pooled then do
    let (vmaMap, handle) ← VMAMap.carveVMA s.vmaMap addr size
    let carved ← deref (get? vmaMap handle)
    let dmemMap ← setAreaTypes memoryType carved.physAreas s.dmemMap
    let physAreas := carved.physAreas.map fun area => (area.1, { area.2 with memoryType })
    return ({ s with vmaMap := assign vmaMap handle { carved with physAreas }, dmemMap }, handle)
  else
    return (s, handle)

def setDirectMemoryTypeLoop (memoryType : ℤ) :
    ℕ → MemoryManager → Option ℕ → ℕ → ℕ → Except Fault MemoryManager
  | 0, _, _, _, _ => .error .divergence
  | _ + 1, s, none, _, _ => return s
  | fuel + 1, s, some handle, currentAddr, remaining =>
    if remaining = 0 then
      return s
    else do
      let vma ← deref (get? s.vmaMap handle)
      let startInVma := sub64 currentAddr vma.base
      let sizeInVma := min remaining (sub64 vma.size startInVma)
      let (s, handle) ← s.setPieceType memoryType handle vma currentAddr sizeInVma
      let currentAddr := add64 currentAddr sizeInVma
      let (vmaMap, handle) ← VMAMap.mergeAdjacent s.vmaMap handle
      let handle ← stepHandle vmaMap handle currentAddr
      setDirectMemoryTypeLoop memoryType fuel { s with vmaMap } handle currentAddr
        (remaining - sizeInVma)

def setDirectMemoryType (addr size : ℕ) (memoryType : ℤ) :
    Except Fault (MemoryManager × Status) := do
  s.requireValidMapping addr size
  let (handle, _) ← s.findVMA addr
  let s ← setDirectMemoryTypeLoop memoryType loopBound s (some handle) addr size
  return (s, .ok)

/-- Name one piece of an area, which is only carved when the piece is smaller. -/
def namePiece (map : VMAMap) (name : String) (handle : ℕ) (vma : VirtualMemoryArea)
    (addr size : ℕ) : Except Fault (VMAMap × ℕ) :=
  if vma.isFree then
    .ok (map, handle)
  else if size < vma.size then
    VMAMap.carveWith map addr size ({ · with name })
  else
    .ok (assign map handle { vma with name }, handle)

def nameVirtualRangeLoop (name : String) :
    ℕ → MemoryManager → Option ℕ → ℕ → ℕ → Except Fault MemoryManager
  | 0, _, _, _, _ => .error .divergence
  | _ + 1, s, none, _, _ => return s
  | fuel + 1, s, some handle, currentAddr, remaining =>
    if remaining = 0 then
      return s
    else do
      let vma ← deref (get? s.vmaMap handle)
      let startInVma := sub64 currentAddr vma.base
      let sizeInVma := min remaining (sub64 vma.size startInVma)
      let (vmaMap, handle) ← namePiece s.vmaMap name handle vma currentAddr sizeInVma
      let currentAddr := add64 currentAddr sizeInVma
      let (vmaMap, handle) ← VMAMap.mergeAdjacent vmaMap handle
      let handle ← stepHandle vmaMap handle currentAddr
      nameVirtualRangeLoop name fuel { s with vmaMap } handle currentAddr (remaining - sizeInVma)

def nameVirtualRange (virtualAddr size : ℕ) (name : String) : Except Fault MemoryManager := do
  let alignedSize := alignUp size (kiB 16)
  let alignedAddr := alignDown virtualAddr (kiB 16)
  s.requireValidMapping alignedAddr alignedSize
  let (handle, _) ← s.findVMA alignedAddr
  nameVirtualRangeLoop name loopBound s (some handle) alignedAddr alignedSize

end MemoryManager

end PS4Droid.Memory
