import PS4Droid.Memory.Operations

/-!
# Start of the memory manager and runs of its operations

The constructor, `SetupMemoryRegions`, and the public operations as one type, so
that a run is a list of operations. Arguments are machine integers here; the
model of each operation reads them as natural numbers below `2 ^ 64`.
-/

namespace PS4Droid.Memory

def totalMem : ℕ := miB 5248
def totalMemPro : ℕ := miB 5888
def totalMemDev : ℕ := miB 6656
def totalMemDevPro : ℕ := miB 7936
def flexibleMemoryBase : ℕ := miB 64
def flexibleMemorySize : ℕ := miB 512

/-- What the host and the settings fix before the manager is constructed. The regions are the
intervals of `AddressSpace::GetUsableRegions`. -/
structure Config where
  regions : List (ℕ × ℕ)
  isNeo : Bool
  isDevKit : Bool
  extraDmemInMBytes : ℕ
  sdkVersion : UInt32
  layout : Layout
  nonempty : ∀ region ∈ regions, region.1 < region.2
  bounded : ∀ region ∈ regions, region.2 < 2 ^ 64
  disjoint : regions.Pairwise fun a b => a.2 ≤ b.1
  extra_lt : extraDmemInMBytes < 2 ^ 31

namespace Config

/-- A small address space: one usable region of 256 MiB, no extra direct memory. -/
def oneRegion : Config where
  regions := [(0x200000000, 0x210000000)]
  isNeo := false
  isDevKit := false
  extraDmemInMBytes := 0
  sdkVersion := 0x5000000
  layout := { systemManagedBase := 0x200000000, userBase := 0x200000000, userSize := 0x10000000,
              hostPage := 0x1000 }
  nonempty := by simp
  bounded := by simp
  disjoint := by simp
  extra_lt := by norm_num

variable (c : Config)

/-- The direct memory the constructor provides. -/
def directSize : ℕ := totalMemDevPro + miB c.extraDmemInMBytes

/-- The constructor of `MemoryManager`. -/
def construct : MemoryManager where
  vmaMap := c.regions.map fun region => (region.1, .ofRange region.1 (region.2 - region.1))
  dmemMap := [(0, { base := 0, size := c.directSize, memoryType := 0, dmaType := .free })]
  fmemMap := [(c.directSize, { base := c.directSize, size := flexibleMemorySize,
                               memoryType := 0, dmaType := .free })]
  totalDirectSize := c.directSize
  totalFlexibleSize := flexibleMemorySize
  flexibleUsage := 0
  poolBudget := 0
  sdkVersion := c.sdkVersion
  layout := c.layout
  host := fun _ => .unmapped

/-- The memory of the console that `SetupMemoryRegions` starts from. -/
def consoleMemory (useExtendedMem1 useExtendedMem2 : Bool) : ℕ :=
  let totalSize := if c.isDevKit then (if c.isNeo then totalMemDevPro else totalMemDev)
    else if c.isNeo then totalMemPro else totalMem
  let totalSize := totalSize + miB c.extraDmemInMBytes
  let totalSize := if useExtendedMem1 = false ∧ c.isNeo = true then totalSize - miB 256
    else totalSize
  if useExtendedMem2 = false ∧ c.isNeo = false then totalSize - miB 128 else totalSize

end Config

namespace MemoryManager

open OrderedMap

/-- `SetupMemoryRegions`: the last free direct area shrinks to the new direct size. -/
def setupMemoryRegions (s : MemoryManager) (c : Config) (flexibleSize : UInt64)
    (useExtendedMem1 useExtendedMem2 : Bool) : Except Fault MemoryManager := do
  let totalFlexibleSize := sub64 flexibleSize.toNat flexibleMemoryBase
  require (totalFlexibleSize ≥ s.flexibleUsage) .unableToShrinkFlexible
  let oldDirectSize := s.totalDirectSize
  let totalDirectSize := sub64 (c.consoleMemory useExtendedMem1 useExtendedMem2) flexibleSize.toNat
  let (handle, area) ← s.findDmemArea totalDirectSize
  require (area.dmaType = .free ∧ area.size ≥ sub64 oldDirectSize totalDirectSize)
    .unableToShrinkDmem
  let dmemMap := assign s.dmemMap handle
    { area with size := sub64 area.size (sub64 oldDirectSize totalDirectSize) }
  return { s with totalFlexibleSize, totalDirectSize, dmemMap }

end MemoryManager

/-- The states in which the guest starts: the constructed manager, or the one that
`SetupMemoryRegions` has configured. The linker configures it before any direct memory is
used, with a flexible size that leaves some direct memory. -/
inductive Boot (c : Config) : MemoryManager → Prop
  | fresh : Boot c c.construct
  | configured (flexibleSize : UInt64) (useExtendedMem1 useExtendedMem2 : Bool) {s : MemoryManager}
      (h : c.construct.setupMemoryRegions c flexibleSize useExtendedMem1 useExtendedMem2 = .ok s)
      (hpos : 0 < s.totalDirectSize) : Boot c s

/-- The public operations that change the manager. -/
inductive Operation
  | mapMemory (virtualAddr size : UInt64) (prot flags : UInt32) (type : VMAType) (name : String)
      (validateDmem : Bool) (physAddr alignment : UInt64)
  | mapFile (virtualAddr size : UInt64) (prot flags : UInt32) (fd : ℤ)
      (file : Option MemoryManager.OpenFile)
      (physAddr : UInt64)
  | unmapMemory (virtualAddr size : UInt64)
  | free (physAddr size : UInt64) (isChecked : Bool)
  | poolCommit (virtualAddr size : UInt64) (prot : UInt32) (mtype : ℤ)
  | poolDecommit (virtualAddr size : UInt64)
  | protect (addr size : UInt64) (prot : UInt32)
  | setDirectMemoryType (addr size : UInt64) (memoryType : ℤ)
  | nameVirtualRange (virtualAddr size : UInt64) (name : String)
  | allocate (searchStart searchEnd size alignment : UInt64) (memoryType : ℤ)
  | poolExpand (searchStart searchEnd size alignment : UInt64)

/-- What an operation returns: a status with the mapped address, or a physical address. -/
inductive Reply
  | status (status : Status) (outAddr : ℕ)
  | address (addr : ℕ)
  deriving DecidableEq

/-- An error code, or the address `-1`. -/
def Reply.failed : Reply → Bool
  | .status st _ => st != .ok
  | .address addr => addr == noAddress

namespace Operation

def run (s : MemoryManager) : Operation → Except Fault (MemoryManager × Reply)
  | mapMemory virtualAddr size prot flags type name validateDmem physAddr alignment => do
    let (s, status, addr) ← s.mapMemory
      { virtualAddr := virtualAddr.toNat, size := size.toNat, prot, flags, type, name,
        validateDmem, physAddr := physAddr.toNat, alignment := alignment.toNat }
    return (s, .status status addr)
  | mapFile virtualAddr size prot flags fd file physAddr => do
    let (s, status, addr) ← s.mapFile virtualAddr.toNat size.toNat prot flags fd file
      physAddr.toNat
    return (s, .status status addr)
  | unmapMemory virtualAddr size => do
    let (s, status) ← s.unmapMemory virtualAddr.toNat size.toNat
    return (s, .status status 0)
  | free physAddr size isChecked => do
    let (s, status) ← s.free physAddr.toNat size.toNat isChecked
    return (s, .status status 0)
  | poolCommit virtualAddr size prot mtype => do
    let (s, status) ← s.poolCommit virtualAddr.toNat size.toNat prot mtype
    return (s, .status status 0)
  | poolDecommit virtualAddr size => do
    let (s, status) ← s.poolDecommit virtualAddr.toNat size.toNat
    return (s, .status status 0)
  | protect addr size prot => do
    let (s, status) ← s.protect addr.toNat size.toNat prot
    return (s, .status status 0)
  | setDirectMemoryType addr size memoryType => do
    let (s, status) ← s.setDirectMemoryType addr.toNat size.toNat memoryType
    return (s, .status status 0)
  | nameVirtualRange virtualAddr size name => do
    let s ← s.nameVirtualRange virtualAddr.toNat size.toNat name
    return (s, .status .ok 0)
  | allocate searchStart searchEnd size alignment memoryType => do
    let (s, addr) ← s.allocate searchStart.toNat searchEnd.toNat size.toNat alignment.toNat
      memoryType
    return (s, .address addr)
  | poolExpand searchStart searchEnd size alignment => do
    let (s, addr) ← s.poolExpand searchStart.toNat searchEnd.toNat size.toNat alignment.toNat
    return (s, .address addr)

/-- Run a list of operations; a fault of one of them ends the run. -/
def runAll : List Operation → MemoryManager → Except Fault MemoryManager
  | [], s => .ok s
  | op :: ops, s => do
    let (s, _) ← op.run s
    runAll ops s

end Operation

end PS4Droid.Memory
