import PS4Droid.Memory.System

/-!
# The memory calls of the kernel library

The `sceKernel` functions of `core/libraries/kernel/memory.cpp` check the
arguments of the guest and turn them into calls of the memory manager. A guest run
is a sequence of these calls. The batch functions call the single functions one
after another and stop at the first error, so their runs are runs of single calls;
the query functions change nothing and are left out.
-/

namespace PS4Droid.Memory

/-- The memory manager and the flag that `sceKernelEnableDmemAliasing` sets. -/
structure Kernel where
  memory : MemoryManager
  aliasDmem : Bool

def fw170 : UInt32 := 0x1700000
def fw250 : UInt32 := 0x2500000

def maximumNameLength : ℕ := 32

/-- `(value & (size - 1)) == 0` for the page sizes, which are powers of two. -/
def isAligned (value : UInt64) (size : ℕ) : Bool := value.toNat % size == 0

/-- `std::has_single_bit`. -/
def hasSingleBit (value : UInt64) : Bool := value != 0 && (value &&& (value - 1)) == 0

/-- The test of `alignment` that the mapping calls make. -/
def badAlignment (alignment : UInt64) (page : ℕ) : Bool :=
  alignment != 0 && !hasSingleBit alignment && !isAligned alignment page

/-- `s64` arguments arrive as their bit pattern. -/
def isNegative (value : UInt64) : Bool := value.toNat ≥ 2 ^ 63

/-- What a call asks of the memory manager once its arguments are checked. The second operation
of `performThen` gets the address that the first one returns, and runs only if that succeeds. -/
inductive Request
  | refuse (code : OrbisError)
  | done
  | perform (op : Operation)
  | performThen (op : Operation) (next : UInt64 → Operation)

/-- The calls of the guest. -/
inductive GuestCall
  | enableDmemAliasing
  | allocateDirectMemory (searchStart searchEnd len alignment : UInt64) (memoryType : Int32)
      (physAddrOut : Bool)
  | allocateMainDirectMemory (len alignment : UInt64) (memoryType : Int32) (physAddrOut : Bool)
  | checkedReleaseDirectMemory (start len : UInt64)
  | releaseDirectMemory (start len : UInt64)
  | reserveVirtualRange (addr len : UInt64) (flags : UInt32) (alignment : UInt64)
  | mapNamedDirectMemory (addr len : UInt64) (prot flags : UInt32) (physAddr alignment : UInt64)
      (name : String)
  | mapDirectMemory2 (addr len : UInt64) (type : Int32) (prot flags : UInt32)
      (physAddr alignment : UInt64)
  | mapNamedFlexibleMemory (addr len : UInt64) (prot flags : UInt32) (name : Option String)
  | mprotect (addr size : UInt64) (prot : UInt32)
  | mtypeprotect (addr size : UInt64) (mtype : Int32) (prot : UInt32)
  | setVirtualRangeName (addr len : UInt64) (name : Option String)
  | memoryPoolExpand (searchStart searchEnd len alignment : UInt64) (physAddrOut : Bool)
  | memoryPoolReserve (addr len alignment : UInt64) (flags : UInt32)
  | memoryPoolCommit (addr len : UInt64) (type : Int32) (prot : UInt32)
  | memoryPoolDecommit (addr len : UInt64)
  | mmap (addr len : UInt64) (prot flags : UInt32) (fd : Int32)
      (file : Option MemoryManager.OpenFile)
      (physAddr : UInt64)
  | munmap (addr len : UInt64)

namespace Kernel

variable (k : Kernel)

def allocateDirectMemory (searchStart searchEnd len alignment : UInt64) (memoryType : Int32)
    (physAddrOut : Bool) : Request :=
  if isNegative searchStart || isNegative searchEnd then
    .refuse .einval
  else if len = 0 || !isAligned len (kiB 16) then
    .refuse .einval
  else if alignment != 0 && !isAligned alignment (kiB 16) then
    .refuse .einval
  else if memoryType > 10 then
    .refuse .einval
  else if physAddrOut = false then
    .refuse .einval
  else if searchEnd ≤ searchStart || searchEnd < len || searchEnd - searchStart < len then
    .refuse .eagain
  else
    .perform (.allocate searchStart searchEnd len alignment memoryType.toInt)

/-- Both release calls. -/
def releaseDirectMemory (isChecked : Bool) (start len : UInt64) : Request :=
  if !isAligned start (kiB 16) || !isAligned len (kiB 16) then
    .refuse .einval
  else if len = 0 then
    .done
  else
    .perform (.free start len isChecked)

/-- A fixed mapping at address zero is refused from firmware 1.70 on and a hint before. -/
def fixedAtZero (addr : UInt64) (flags : UInt32) : Except OrbisError UInt32 :=
  if hasFlag flags MemoryMapFlags.fixed && addr = 0 then
    if fw170 ≤ k.memory.sdkVersion then .error .einval else .ok (flags &&& ~~~MemoryMapFlags.fixed)
  else
    .ok flags

def reserveVirtualRange (addr len : UInt64) (flags : UInt32) (alignment : UInt64) : Request :=
  if len = 0 || !isAligned len (kiB 16) then
    .refuse .einval
  else if badAlignment alignment (kiB 16) then
    .refuse .einval
  else match k.fixedAtZero addr flags with
    | .error code => .refuse code
    | .ok flags => .perform (.mapMemory addr len MemoryProt.noAccess flags .reserved "anon" false
        (.ofNat noAddress) alignment)

def mapNamedDirectMemory (addr len : UInt64) (prot flags : UInt32) (physAddr alignment : UInt64)
    (name : String) : Request :=
  if len = 0 || !isAligned len (kiB 16) then
    .refuse .einval
  else if !isAligned physAddr (kiB 16) then
    .refuse .einval
  else if badAlignment alignment (kiB 16) then
    .refuse .einval
  else if name.utf8ByteSize ≥ maximumNameLength then
    .refuse .enametoolong
  else if hasFlag prot MemoryProt.cpuExec then
    .refuse .eacces
  else
    let shouldCheck := fw250 ≤ k.memory.sdkVersion && !hasFlag flags MemoryMapFlags.stack &&
      !k.aliasDmem
    match k.fixedAtZero addr flags with
    | .error code => .refuse code
    | .ok flags =>
        .perform (.mapMemory addr len prot flags .direct name shouldCheck physAddr alignment)

def mapDirectMemory2 (addr len : UInt64) (type : Int32) (prot flags : UInt32)
    (physAddr alignment : UInt64) : Request :=
  if len = 0 || !isAligned len (kiB 16) then
    .refuse .einval
  else if !isAligned physAddr (kiB 16) then
    .refuse .einval
  else if badAlignment alignment (kiB 16) then
    .refuse .einval
  else if hasFlag prot MemoryProt.cpuExec then
    .refuse .einval
  else
    .performThen (.mapMemory addr len prot flags .direct "anon" (!k.aliasDmem) physAddr alignment)
      fun outAddr => .setDirectMemoryType outAddr len type.toInt

def mapNamedFlexibleMemory (addr len : UInt64) (prot flags : UInt32) (name : Option String) :
    Request :=
  if len = 0 || !isAligned len (kiB 16) then
    .refuse .einval
  else match name with
    | none => .refuse .efault
    | some name =>
      if name.utf8ByteSize ≥ maximumNameLength then
        .refuse .enametoolong
      else match k.fixedAtZero addr flags with
        | .error code => .refuse code
        | .ok flags => .perform (.mapMemory addr len prot flags .flexible name false
            (.ofNat noAddress) 0)

/-- The page range of a protection call. -/
def pageAddr (addr : UInt64) : UInt64 := .ofNat (alignDown addr.toNat (kiB 16))

def pageSize (addr size : UInt64) : UInt64 :=
  .ofNat (alignUp (size + addr - pageAddr addr).toNat (kiB 16))

def mprotect (addr size : UInt64) (prot : UInt32) : Request :=
  if pageSize addr size = 0 then .done
  else .perform (.protect (pageAddr addr) (pageSize addr size) prot)

def mtypeprotect (addr size : UInt64) (mtype : Int32) (prot : UInt32) : Request :=
  if pageSize addr size = 0 then .done
  else .performThen (.protect (pageAddr addr) (pageSize addr size) prot)
    fun _ => .setDirectMemoryType (pageAddr addr) (pageSize addr size) mtype.toInt

def setVirtualRangeName (addr len : UInt64) (name : Option String) : Request :=
  match name with
  | none => .refuse .efault
  | some name =>
    if name.utf8ByteSize ≥ maximumNameLength then .refuse .enametoolong
    else .perform (.nameVirtualRange addr len name)

def memoryPoolExpand (searchStart searchEnd len alignment : UInt64) (physAddrOut : Bool) :
    Request :=
  if searchEnd ≤ searchStart then
    .refuse .einval
  else if len = 0 || !isAligned len (kiB 64) then
    .refuse .einval
  else if alignment != 0 && !isAligned alignment (kiB 64) then
    .refuse .einval
  else if physAddrOut = false then
    .refuse .einval
  else if searchEnd ≤ searchStart || searchEnd < len || searchEnd - searchStart < len then
    .refuse .enomem
  else
    .perform (.poolExpand searchStart searchEnd len alignment)

def memoryPoolReserve (addr len alignment : UInt64) (flags : UInt32) : Request :=
  if len = 0 || !isAligned len (miB 2) then
    .refuse .einval
  else if badAlignment alignment (miB 2) then
    .refuse .einval
  else
    .perform (.mapMemory addr len MemoryProt.noAccess flags .poolReserved "anon" false
      (.ofNat noAddress) (if alignment = 0 then .ofNat (miB 2) else alignment))

def memoryPoolCommit (addr len : UInt64) (type : Int32) (prot : UInt32) : Request :=
  if addr = 0 then
    .refuse .einval
  else if len = 0 || !isAligned len (kiB 64) then
    .refuse .einval
  else if hasFlag prot MemoryProt.cpuExec then
    .refuse .einval
  else
    .perform (.poolCommit addr len prot type.toInt)

def memoryPoolDecommit (addr len : UInt64) : Request :=
  if addr = 0 then
    .refuse .einval
  else if len = 0 || !isAligned len (kiB 64) then
    .refuse .einval
  else
    .perform (.poolDecommit addr len)

/-- `posix_mmap`: the flags choose between flexible, stack, reserved and file memory. -/
def mmap (addr len : UInt64) (prot flags : UInt32) (fd : Int32)
    (file : Option MemoryManager.OpenFile) (physAddr : UInt64) : Request :=
  if len = 0 then
    .refuse .einval
  else
    let alignedAddr : UInt64 := .ofNat (alignUp addr.toNat (kiB 16))
    let alignedSize : UInt64 := .ofNat (alignUp len.toNat (kiB 16))
    let anywhere : UInt64 := .ofNat noAddress
    if hasFlag flags MemoryMapFlags.fixed && addr != alignedAddr then
      .refuse .einval
    else if hasFlag flags MemoryMapFlags.anon then
      .perform (.mapMemory alignedAddr alignedSize prot flags .flexible "anon" false anywhere 0)
    else if hasFlag flags MemoryMapFlags.stack then
      .perform (.mapMemory alignedAddr alignedSize prot flags .stack "anon" false anywhere 0)
    else if hasFlag flags MemoryMapFlags.void then
      .perform (.mapMemory alignedAddr alignedSize MemoryProt.noAccess flags .reserved "anon" false
        anywhere 0)
    else
      .perform (.mapFile alignedAddr alignedSize prot flags fd.toInt file physAddr)

def munmap (addr len : UInt64) : Request :=
  if len = 0 then .refuse .einval else .perform (.unmapMemory addr len)

def request : GuestCall → Request
  | .enableDmemAliasing => .done
  | .allocateDirectMemory searchStart searchEnd len alignment memoryType physAddrOut =>
    allocateDirectMemory searchStart searchEnd len alignment memoryType physAddrOut
  | .allocateMainDirectMemory len alignment memoryType physAddrOut =>
    allocateDirectMemory 0 (.ofNat k.memory.totalDirectSize) len alignment memoryType physAddrOut
  | .checkedReleaseDirectMemory start len => releaseDirectMemory true start len
  | .releaseDirectMemory start len => releaseDirectMemory false start len
  | .reserveVirtualRange addr len flags alignment => k.reserveVirtualRange addr len flags alignment
  | .mapNamedDirectMemory addr len prot flags physAddr alignment name =>
    k.mapNamedDirectMemory addr len prot flags physAddr alignment name
  | .mapDirectMemory2 addr len type prot flags physAddr alignment =>
    k.mapDirectMemory2 addr len type prot flags physAddr alignment
  | .mapNamedFlexibleMemory addr len prot flags name =>
    k.mapNamedFlexibleMemory addr len prot flags name
  | .mprotect addr size prot => mprotect addr size prot
  | .mtypeprotect addr size mtype prot => mtypeprotect addr size mtype prot
  | .setVirtualRangeName addr len name => setVirtualRangeName addr len name
  | .memoryPoolExpand searchStart searchEnd len alignment physAddrOut =>
    memoryPoolExpand searchStart searchEnd len alignment physAddrOut
  | .memoryPoolReserve addr len alignment flags => memoryPoolReserve addr len alignment flags
  | .memoryPoolCommit addr len type prot => memoryPoolCommit addr len type prot
  | .memoryPoolDecommit addr len => memoryPoolDecommit addr len
  | .mmap addr len prot flags fd file physAddr => mmap addr len prot flags fd file physAddr
  | .munmap addr len => munmap addr len

/-- The flag after a call. -/
def aliasAfter : GuestCall → Bool
  | .enableDmemAliasing => true
  | _ => k.aliasDmem

/-- Run one operation, and the next one when it returned a status without an error. -/
def performThen (op : Operation) (next : UInt64 → Operation) :
    Except Fault (MemoryManager × Reply) := do
  let (s, reply) ← op.run k.memory
  match reply with
  | .status .ok outAddr => do
    let (s, _) ← (next (.ofNat outAddr)).run s
    return (s, reply)
  | _ => return (s, reply)

/-- What a request does to the memory manager. -/
def serve : Request → Except Fault (MemoryManager × Reply)
  | .refuse code => .ok (k.memory, .status (.error code) 0)
  | .done => .ok (k.memory, .status .ok 0)
  | .perform op => op.run k.memory
  | .performThen op next => k.performThen op next

/-- One call of the guest. -/
def call (c : GuestCall) : Except Fault (Kernel × Reply) := do
  let (memory, reply) ← k.serve (k.request c)
  return ({ memory, aliasDmem := k.aliasAfter c }, reply)

/-- A sequence of calls; a fault of one of them ends the run. -/
def callAll : List GuestCall → Kernel → Except Fault Kernel
  | [], k => .ok k
  | c :: calls, k => do
    let (k, _) ← k.call c
    callAll calls k

end Kernel

/-- The states that the guest reaches with calls that all meet `P` when they are made. -/
inductive Reachable (c : Config) (P : Kernel → GuestCall → Prop) : Kernel → Prop
  | boot {s : MemoryManager} (h : Boot c s) : Reachable c P { memory := s, aliasDmem := false }
  | step {k k' : Kernel} {call : GuestCall} {reply : Reply} (h : Reachable c P k) (hp : P k call)
      (hc : k.call call = .ok (k', reply)) : Reachable c P k'

end PS4Droid.Memory
