import PS4Droid.Foundations.Sections
import PS4Droid.Memory.System

/-!
# Validations of guest memory

`core/guest_cpu/guest_memory_validation_cache.h`, `core/memory_map_generation.h`,
`common/shared_first_mutex.h` and `MemoryManager::QueryProtection`, with the operations of the
memory manager as the sections that its two mutexes and the generation cut them into. The operations
themselves are those of `Memory`.
-/

namespace PS4Droid.Memory

/-- The range of an area and its protection. -/
structure Protection where
  start : ℕ
  stop : ℕ
  prot : UInt32
  deriving DecidableEq

/-- `MemoryManager::QueryProtection`, without the generation. -/
def MemoryManager.queryProtection (s : MemoryManager) (addr : ℕ) :
    Except Fault (Except OrbisError Protection) :=
  if addr < s.layout.systemManagedBase then
    return .error .eacces
  else do
    let (_, vma) ← s.findVMA addr
    if vma.isFree then
      return .error .eacces
    else
      return .ok ⟨vma.base, add64 vma.base vma.size, vma.prot⟩

end PS4Droid.Memory

namespace PS4Droid.GuestCpu

open Memory

/-! ## The cache -/

/-- An owner is an address; `0` is no owner. -/
structure Entry where
  owner : ℕ := 0
  generation : ℕ := 0
  start : ℕ := 0
  stop : ℕ := 0
  protection : UInt32 := 0
  deriving DecidableEq

structure GuestMemoryValidationCache where
  entries : Vector Entry 4
  nextEntry : Fin 4

namespace GuestMemoryValidationCache

def empty : GuestMemoryValidationCache := ⟨Vector.replicate 4 {}, 0⟩

def contains (cache : GuestMemoryValidationCache) (owner generation address size : ℕ)
    (requiredProtection : UInt32) : Bool :=
  if owner = 0 ∨ address = 0 ∨ size = 0 ∨ address > 2 ^ 64 - 1 - size ∨ generation % 2 ≠ 0 then
    false
  else
    let endAddress := address + size
    cache.entries.toList.any fun entry =>
      entry.owner == owner && entry.generation == generation && decide (entry.start ≤ address) &&
        decide (endAddress ≤ entry.stop) && entry.protection &&& requiredProtection ==
          requiredProtection

def store (cache : GuestMemoryValidationCache) (owner generation start stop : ℕ)
    (protection : UInt32) :
    GuestMemoryValidationCache :=
  ⟨cache.entries.set cache.nextEntry ⟨owner, generation, start, stop, protection⟩,
    cache.nextEntry + 1⟩

end GuestMemoryValidationCache

/-! ## The shared state -/

/-- `Common::SharedFirstMutex`. -/
structure SharedFirstMutex where
  readers : ℕ
  writerActive : Bool

/-- What `QueryProtection` gave its caller. -/
structure Answer where
  generation : ℕ
  protection : Protection
  deriving DecidableEq

structure State where
  manager : MemoryManager
  mutex : SharedFirstMutex
  unmapMutex : Bool
  generation : ℕ
  cache : GuestMemoryValidationCache
  /-- What the callers have been given so far. -/
  answers : List Answer

def State.initial (manager : MemoryManager) : State where
  manager := manager
  mutex := ⟨0, false⟩
  unmapMutex := false
  generation := 0
  cache := .empty
  answers := []

/-- What a section takes from outside. -/
structure Input where
  /-- A call returns before it takes the next lock. -/
  returns : Bool
  /-- What a call that is not done has written of its changes. -/
  partly : Option MemoryManager
  answer : Answer

/-! ## The sections -/

/-- How an operation takes its locks. -/
inductive Locking
  /-- `unmap_mutex` for the whole call, and `mutex` after the checks. -/
  | checksFirst
  /-- Both at the start. -/
  | bothFirst
  deriving DecidableEq

end PS4Droid.GuestCpu

namespace PS4Droid.Memory.Operation

/-- `MapMemory`, `MapFile`, `UnmapMemory`, `Free` and `PoolDecommit` check their arguments before
they take the writer lock. -/
def locking : Operation → GuestCpu.Locking
  | mapMemory .. | mapFile .. | unmapMemory .. | free .. | poolDecommit .. => .checksFirst
  | poolCommit .. | protect .. | setDirectMemoryType .. | nameVirtualRange .. | allocate ..
  | poolExpand .. =>
    .bothFirst

/-- The operations that call `BeginMutation`. -/
def mutates : Operation → Bool
  | allocate .. | poolExpand .. => false
  | _ => true

end PS4Droid.Memory.Operation

namespace PS4Droid.GuestCpu

open Memory

inductive Task
  | call (op : Operation)
  | lockUnmap (op : Operation)
  | checks (op : Operation)
  | lock (op : Operation)
  | locked (op : Operation)
  /-- The manager is as it was before the changes of the call. -/
  | change (op : Operation) (manager : MemoryManager)
  | finish
  | unlock
  | unlockUnmap
  | queryProtection (addr : ℕ)
  | answer (addr : ℕ)
  | unlockShared
  | store (owner : ℕ)
  | load (owner address size : ℕ) (requiredProtection : UInt32)
  /-- The last argument is the map at the moment of the load; no section reads it. -/
  | contains (owner generation address size : ℕ) (requiredProtection : UInt32) (loaded : VMAMap)

/-- The manager that an operation leaves. -/
def outcome (op : Operation) (manager : MemoryManager) : MemoryManager :=
  match op.run manager with
  | .ok (manager, _) => manager
  | .error _ => manager

def exec (input : Input) : Task → State → State × List Task
  | .call op, s => if input.returns then (s, []) else (s, [.lockUnmap op])
  | .lockUnmap op, s =>
    ({ s with unmapMutex := true }, match op.locking with
      | .checksFirst => [.checks op]
      | .bothFirst => [.lock op])
  | .checks op, s => if input.returns then (s, [.unlockUnmap]) else (s, [.lock op])
  | .lock op, s =>
    ({ s with mutex := { s.mutex with writerActive := true } }, [.locked op])
  | .locked op, s =>
    if op.mutates then
      ({ s with generation := s.generation + 1 }, [.change op s.manager])
    else
      ({ s with manager := outcome op s.manager }, [.unlock])
  | .change op manager, s =>
    match input.partly with
    | some manager' => ({ s with manager := manager' }, [.change op manager])
    | none => ({ s with manager := outcome op manager }, [.finish])
  | .finish, s => ({ s with generation := s.generation + 1 }, [.unlock])
  | .unlock, s => ({ s with mutex := { s.mutex with writerActive := false } }, [.unlockUnmap])
  | .unlockUnmap, s => ({ s with unmapMutex := false }, [])
  | .queryProtection addr, s =>
    ({ s with mutex := { s.mutex with readers := s.mutex.readers + 1 } }, [.answer addr])
  | .answer addr, s =>
    match s.manager.queryProtection addr with
    | .ok (.ok protection) => ({ s with answers := ⟨s.generation, protection⟩ :: s.answers },
        [.unlockShared])
    | _ => (s, [.unlockShared])
  | .unlockShared, s => ({ s with mutex := { s.mutex with readers := s.mutex.readers - 1 } }, [])
  | .store owner, s =>
    let ⟨generation, protection⟩ := input.answer
    ({ s with
      cache :=
        s.cache.store owner generation protection.start protection.stop protection.prot }, [])
  | .load owner address size requiredProtection, s =>
    (s, [.contains owner s.generation address size requiredProtection s.manager.vmaMap])
  | .contains .., s => (s, [])

/-- When a section can run. A call that returns early has changed nothing, and an operation that
stops the emulator does not go on. -/
def Allowed (s : State) (input : Input) : Task → Prop
  | .call op => input.returns = true → ∃ reply, op.run s.manager = .ok (s.manager, reply)
  | .lockUnmap _ => s.unmapMutex = false
  | .checks op => input.returns = true → ∃ reply, op.run s.manager = .ok (s.manager, reply)
  | .lock _ => s.mutex.writerActive = false ∧ s.mutex.readers = 0
  | .locked op => op.mutates = false → (op.run s.manager).isOk = true
  | .change op manager => input.partly = none → (op.run manager).isOk = true
  | .queryProtection _ => s.mutex.writerActive = false
  | .answer addr => (s.manager.queryProtection addr).isOk = true
  | .store _ => input.answer ∈ s.answers
  | _ => True

/-- The sections with which a thread starts. -/
def Task.IsEntry : Task → Prop
  | .call _ | .queryProtection _ | .store _ | .load .. => True
  | _ => False

def validations : Sections.Machine State Task Input where
  exec := exec
  allowed := Allowed
  entry := fun _ task => task.IsEntry

end PS4Droid.GuestCpu
