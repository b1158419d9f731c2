import PS4Droid.Foundations.Lockstep
import PS4Droid.Foundations.Words

/-!
# The stream buffer

`StreamBuffer` of `buffer.cpp` hands out consecutive regions of one buffer and starts again at the
front when a request does not fit behind the last one. Each committed region is recorded in a watch
with the tick of the command buffer that uses it, and before a region of the previous pass is
handed out again the ticks of its watches are waited for.

The scheduler is any one whose ticks do not decrease and whose `Wait` and `IsFree` tell the truth.
-/

namespace PS4Droid.VideoCore

/-- What the stream buffer relies on of `Vulkan::Scheduler`; `completedTick` is the last tick whose
work, and all work before it, the device has finished. -/
structure Scheduler where
  State : Type
  currentTick : State → ℕ
  completedTick : State → ℕ
  isFree : State → ℕ → Bool × State
  wait : State → ℕ → State
  currentTick_le_isFree : ∀ s t, currentTick s ≤ currentTick (isFree s t).2
  completedTick_le_isFree : ∀ s t, completedTick s ≤ completedTick (isFree s t).2
  le_completedTick_of_isFree : ∀ s t, (isFree s t).1 = true → t ≤ completedTick (isFree s t).2
  currentTick_le_wait : ∀ s t, currentTick s ≤ currentTick (wait s t)
  completedTick_le_wait : ∀ s t, completedTick s ≤ completedTick (wait s t)
  le_completedTick_wait : ∀ s t, t ≤ completedTick (wait s t)

structure Watch where
  tick : ℕ
  upperBound : ℕ
  deriving DecidableEq

/-- A vector of watches. The entries that `resize` adds are zero. -/
structure Watches where
  size : ℕ
  entry : ℕ → Watch

def watchesInitialReserve : ℕ := 0x4000

def watchesReserveChunk : ℕ := 0x1000

def Watches.empty : Watches := ⟨0, fun _ => ⟨0, 0⟩⟩

/-- `ReserveWatches`. -/
def Watches.reserve (watches : Watches) (growSize : ℕ) : Watches :=
  { watches with size := watches.size + growSize }

def Watches.set (watches : Watches) (i : ℕ) (watch : Watch) : Watches :=
  { watches with entry := Function.update watches.entry i watch }

inductive MemoryUsage where
  | deviceLocal
  | upload
  | download
  | stream
  deriving DecidableEq

/-- The fields of the buffer that never change. The atom size is a limit of the device. -/
structure BufferKind where
  sizeBytes : ℕ
  usage : MemoryUsage
  isCoherent : Bool
  nonCoherentAtomSize : ℕ
  atom_pos : 0 < nonCoherentAtomSize
  size_lt : sizeBytes < 2 ^ 64

structure StreamBuffer where
  kind : BufferKind
  offset : ℕ
  mappedSize : ℕ
  currentWatches : Watches
  currentWatchCursor : ℕ
  invalidationMark : Option ℕ
  previousWatches : Watches
  waitCursor : ℕ
  waitBound : ℕ

/-- An index beyond the end of a vector of watches. -/
inductive WatchFault where
  | outOfRange
  deriving DecidableEq

namespace StreamBuffer

/-- The constructor. -/
def create (kind : BufferKind) : StreamBuffer where
  kind := kind
  offset := 0
  mappedSize := 0
  currentWatches := Watches.empty.reserve watchesInitialReserve
  currentWatchCursor := 0
  invalidationMark := none
  previousWatches := Watches.empty.reserve watchesInitialReserve
  waitCursor := 0
  waitBound := 0

variable (S : Scheduler)

/-- The loop of `WaitPendingOperations`, with the number of watches that are left. -/
def waitLoop (requestedUpperBound : ℕ) (allowWait : Bool) :
    ℕ → StreamBuffer → S.State → Except WatchFault (Bool × StreamBuffer × S.State)
  | 0, buffer, s => .ok (true, buffer, s)
  | left + 1, buffer, s =>
    if buffer.waitBound < requestedUpperBound then
      if buffer.waitCursor < buffer.previousWatches.size then
        let watch := buffer.previousWatches.entry buffer.waitCursor
        let (isFree, s) := S.isFree s watch.tick
        if ¬ isFree ∧ ¬ allowWait then .ok (false, buffer, s)
        else
          let s := S.wait s watch.tick
          waitLoop requestedUpperBound allowWait left
            { buffer with waitBound := watch.upperBound, waitCursor := buffer.waitCursor + 1 } s
      else .error .outOfRange
    else .ok (true, buffer, s)

def waitPendingOperations (buffer : StreamBuffer) (s : S.State) (requestedUpperBound : ℕ)
    (allowWait : Bool) : Except WatchFault (Bool × StreamBuffer × S.State) :=
  match buffer.invalidationMark with
  | none => .ok (true, buffer, s)
  | some mark =>
    waitLoop S requestedUpperBound allowWait (mark - buffer.waitCursor) buffer s

/-- The size that is mapped for a request. -/
def mapSize (buffer : StreamBuffer) (size : ℕ) : ℕ :=
  if ¬ buffer.kind.isCoherent ∧ buffer.kind.usage = .stream then
    alignUp size buffer.kind.nonCoherentAtomSize
  else size

/-- Saves the amount of used watches and starts again at the front of the buffer. -/
def wrap (buffer : StreamBuffer) : StreamBuffer :=
  { buffer with
    invalidationMark := some buffer.currentWatchCursor
    currentWatchCursor := 0
    offset := 0
    previousWatches := buffer.currentWatches
    currentWatches := buffer.previousWatches
    waitCursor := 0
    waitBound := 0 }

/-- The first part of `Map`: where a request of a size that fits the buffer goes. -/
def place (buffer : StreamBuffer) (size alignment : ℕ) : StreamBuffer :=
  let aligned := { buffer with
    mappedSize := size
    offset := if 0 < alignment then alignUp buffer.offset alignment else buffer.offset }
  if buffer.kind.sizeBytes < add64 aligned.offset size then aligned.wrap else aligned

/-- `Map` returns the offset of the region, or `none` for the null pointer. -/
def map (buffer : StreamBuffer) (s : S.State) (size alignment : ℕ) (allowWait : Bool) :
    Except WatchFault (Option ℕ × StreamBuffer × S.State) := do
  let size := buffer.mapSize size
  if buffer.kind.sizeBytes < size then return (none, buffer, s)
  let buffer := buffer.place size alignment
  let (done, buffer, s) ← buffer.waitPendingOperations S s (add64 buffer.offset size) allowWait
  return (if done then some buffer.offset else none, buffer, s)

/-- `Commit`; the flush of a mapping that is not coherent has no effect on the bookkeeping. -/
def commit (buffer : StreamBuffer) (currentTick : ℕ) : Except WatchFault StreamBuffer :=
  let buffer := { buffer with offset := add64 buffer.offset buffer.mappedSize }
  let cursor := buffer.currentWatchCursor
  if cursor ≠ 0 ∧ buffer.currentWatches.size ≤ cursor then .error .outOfRange
  else if cursor ≠ 0 ∧ (buffer.currentWatches.entry cursor).tick = currentTick then
    .ok { buffer with
      currentWatches := buffer.currentWatches.set cursor
        { buffer.currentWatches.entry cursor with upperBound := buffer.offset } }
  else
    let watches :=
      if buffer.currentWatches.size ≤ cursor + 1 then
        buffer.currentWatches.reserve watchesReserveChunk
      else buffer.currentWatches
    if watches.size ≤ cursor then .error .outOfRange
    else .ok { buffer with
      currentWatches := watches.set cursor ⟨currentTick, buffer.offset⟩
      currentWatchCursor := cursor + 1 }

end StreamBuffer

/-! ## Runs -/

/-- A region handed out by `Map` and committed, with the tick of its commit. -/
structure CommittedRegion where
  lower : ℕ
  upper : ℕ
  tick : ℕ
  deriving DecidableEq

/-- The buffer, the scheduler, the regions committed so far and whether the last `Map` returned a
region that is not committed yet. -/
structure StreamState (S : Scheduler) where
  buffer : StreamBuffer
  scheduler : S.State
  committed : List CommittedRegion
  mapped : Bool

inductive StreamOp (S : Scheduler) where
  | map (size alignment : ℕ) (allowWait : Bool)
  | commit
  | advance (next : S.State)

namespace StreamState

variable {S : Scheduler}

def initial (kind : BufferKind) (s : S.State) : StreamState S where
  buffer := .create kind
  scheduler := s
  committed := []
  mapped := false

/-- Every `Commit` belongs to a `Map` that returned a region, and ticks do not decrease. -/
def Enabled (state : StreamState S) : StreamOp S → Prop
  | .map _ _ _ => True
  | .commit => state.mapped = true
  | .advance next => S.currentTick state.scheduler ≤ S.currentTick next ∧
      S.completedTick state.scheduler ≤ S.completedTick next

def step (state : StreamState S) : StreamOp S → Except WatchFault (StreamState S)
  | .map size alignment allowWait => do
    let (region, buffer, s) ← state.buffer.map S state.scheduler size alignment allowWait
    return { state with buffer := buffer, scheduler := s, mapped := region.isSome }
  | .commit => do
    let buffer ← state.buffer.commit (S.currentTick state.scheduler)
    return { state with
      buffer := buffer
      committed := ⟨state.buffer.offset, state.buffer.offset + state.buffer.mappedSize,
        S.currentTick state.scheduler⟩ :: state.committed
      mapped := false }
  | .advance next => .ok { state with scheduler := next }

/-- The rounded size and the aligned offset of a request do not wrap around. -/
def Moderate (kind : BufferKind) : StreamOp S → Prop
  | .map size alignment _ => size + kind.nonCoherentAtomSize ≤ 2 ^ 64 ∧
      alignment + 2 * kind.sizeBytes < 2 ^ 64
  | _ => True

/-- The states that moderate requests lead to. -/
inductive Reachable (kind : BufferKind) : StreamState S → Prop where
  | initial (s : S.State) : Reachable kind (initial kind s)
  | step {state state' : StreamState S} {op : StreamOp S} : Reachable kind state →
      state.Enabled op → Moderate kind op → state.step op = .ok state' → Reachable kind state'

end StreamState

end PS4Droid.VideoCore
