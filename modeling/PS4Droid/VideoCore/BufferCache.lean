import PS4Droid.Foundations.OrderedMap
import PS4Droid.Foundations.Words

/-!
# The page table of the buffer cache

`FindBuffer` and `CreateBuffer` of `buffer_cache.cpp`: which buffers there are, how a request that
no buffer holds absorbs the ones in its way, and what the table of 16 KB caching pages says
afterwards. Addresses are 64-bit and sizes 32-bit numbers; both wrap. The contents of the buffers
and the copies between them are left out.
-/

namespace PS4Droid.VideoCore

open OrderedMap

def cachingPageSize : ℕ := 0x4000

def devicePageSize : ℕ := 0x4000

/-- The pages of a 40-bit address space, which the page table has entries for. -/
def cachingNumPages : ℕ := 0x4000000

def streamLeapThreshold : ℕ := 16

/-- How far a buffer that keeps being joined is extended. -/
def streamLeap : ℕ := cachingPageSize * 128

inductive Fault where
  /-- An access to the page table behind its last entry. -/
  | pageOutOfRange
  /-- An id that no slot has. -/
  | invalidSlot
  | outOfFuel
  deriving DecidableEq

structure Buffer where
  cpuAddr : ℕ
  sizeBytes : ℕ
  streamScore : ℕ
  deriving DecidableEq

def Buffer.isInBounds (b : Buffer) (addr size : ℕ) : Bool :=
  b.cpuAddr ≤ addr && add64 addr size ≤ add64 b.cpuAddr b.sizeBytes

/-- The registered buffers by their slot, and the page table. -/
structure BufferCache where
  slotBuffers : List (ℕ × Buffer)
  pageTable : ℕ → Option ℕ

def BufferCache.init : BufferCache := ⟨[], fun _ => none⟩

def divCeil (number divisor : ℕ) : ℕ := add64 number (divisor - 1) / divisor

/-- The scan of `ResolveOverlaps` between two pages. A buffer is picked when it is among the
ids. -/
structure Scan where
  deviceAddr : ℕ
  first : ℕ
  last : ℕ
  streamScore : ℕ
  hasStreamLeap : Bool
  ids : List ℕ
  deriving DecidableEq

def Scan.expandBegin (scan : Scan) (addValue : ℕ) : Scan :=
  let minPage := cachingPageSize + devicePageSize
  if sub64 scan.first minPage < addValue then
    { scan with first := minPage, deviceAddr := devicePageSize }
  else
    let first := sub64 scan.first addValue
    { scan with first := first, deviceAddr := sub64 first cachingPageSize }

def Scan.expandEnd (scan : Scan) (addValue : ℕ) : Scan :=
  let maxPage := 2 ^ 40
  if sub64 maxPage scan.last < addValue then { scan with last := maxPage }
  else { scan with last := add64 scan.last addValue }

/-- Absorb a buffer that was not picked yet. -/
def Scan.pick (scan : Scan) (id : ℕ) (overlap : Buffer) : Scan :=
  let expandsLeft := overlap.cpuAddr < scan.first
  let overlapEnd := add64 overlap.cpuAddr overlap.sizeBytes
  let expandsRight := scan.last < overlapEnd
  let score := scan.streamScore + overlap.streamScore
  let picked : Scan := { scan with
    first := if expandsLeft then overlap.cpuAddr else scan.first
    last := if expandsRight then overlapEnd else scan.last
    streamScore := score
    ids := scan.ids ++ [id] }
  if streamLeapThreshold < score ∧ !scan.hasStreamLeap then
    let leaping : Scan := { picked with hasStreamLeap := true }
    let leaping := if expandsRight then leaping.expandEnd streamLeap else leaping
    if expandsLeft then leaping.expandBegin streamLeap else leaping
  else picked

namespace BufferCache

variable (c : BufferCache)

/-- An access to an entry of the page table. -/
def pageEntry (page : ℕ) : Except Fault (Option ℕ) :=
  if page < cachingNumPages then .ok (c.pageTable page) else .error .pageOutOfRange

def slot (id : ℕ) : Except Fault Buffer :=
  match get? c.slotBuffers id with
  | some buffer => .ok buffer
  | none => .error .invalidSlot

/-- What the loop of `ResolveOverlaps` does at one page, before it goes to the next. -/
def visit (scan : Scan) : Except Fault Scan := do
  match ← c.pageEntry (scan.deviceAddr / cachingPageSize) with
  | none => pure scan
  | some id =>
    let overlap ← c.slot id
    if id ∈ scan.ids then pure scan else pure (scan.pick id overlap)

def scanLoop : ℕ → Scan → Except Fault Scan
  | 0, _ => .error .outOfFuel
  | fuel + 1, scan =>
    if scan.deviceAddr / cachingPageSize < divCeil scan.last cachingPageSize then do
      let scan ← c.visit scan
      scanLoop fuel { scan with deviceAddr := add64 scan.deviceAddr cachingPageSize }
    else .ok scan

/-- A leap goes back at most once, so no page is visited more than twice. -/
def scanFuel : ℕ := 2 * cachingNumPages + 2

def resolveOverlaps (deviceAddr wantedSize : ℕ) : Except Fault Scan :=
  let scan : Scan := ⟨deviceAddr, deviceAddr, add64 deviceAddr wantedSize, 0, false, []⟩
  if deviceAddr = 0 then .ok scan else c.scanLoop scanFuel scan

/-- The loop of `ChangeRegister` over `count` pages. -/
def setPages (table : ℕ → Option ℕ) (entry : Option ℕ) :
    ℕ → ℕ → Except Fault (ℕ → Option ℕ)
  | 0, _ => .ok table
  | count + 1, page =>
    if page < cachingNumPages then
      setPages (Function.update table page entry) entry count (page + 1)
    else .error .pageOutOfRange

def changeRegister (buffer : Buffer) (entry : Option ℕ) : Except Fault (ℕ → Option ℕ) :=
  let pageBegin := buffer.cpuAddr / cachingPageSize
  let pageEnd := divCeil (add64 buffer.cpuAddr buffer.sizeBytes) cachingPageSize
  setPages c.pageTable entry (sub64 pageEnd pageBegin) pageBegin

def register (id : ℕ) (buffer : Buffer) : Except Fault BufferCache := do
  let pageTable ← c.changeRegister buffer (some id)
  pure { slotBuffers := assign c.slotBuffers id buffer, pageTable := pageTable }

/-- The slot itself is freed later, when the GPU is done with it. -/
def deleteBuffer (id : ℕ) : Except Fault BufferCache := do
  let buffer ← c.slot id
  let pageTable ← c.changeRegister buffer none
  pure { slotBuffers := erase c.slotBuffers id, pageTable := pageTable }

/-- `JoinOverlap` for every overlap: the cache without them, and the score of the new buffer. -/
def joinOverlaps (accumulateStreamScore : Bool) :
    List ℕ → BufferCache → ℕ → Except Fault (BufferCache × ℕ)
  | [], c, score => .ok (c, score)
  | id :: ids, c, score => do
    let overlap ← c.slot id
    let score := if accumulateStreamScore then score + (overlap.streamScore + 1) else score
    let c ← c.deleteBuffer id
    joinOverlaps accumulateStreamScore ids c score

/-- `CreateBuffer`, where `id` is the slot that the new buffer gets. -/
def createBuffer (id deviceAddr wantedSize : ℕ) : Except Fault (BufferCache × ℕ) := do
  let deviceAddrEnd := alignUp (add64 deviceAddr wantedSize) cachingPageSize
  let deviceAddr := alignDown deviceAddr cachingPageSize
  let wantedSize := sub64 deviceAddrEnd deviceAddr % 2 ^ 32
  let overlap ← c.resolveOverlaps deviceAddr wantedSize
  let size := sub64 overlap.last overlap.first % 2 ^ 32
  let (c, score) ← joinOverlaps (!overlap.hasStreamLeap) overlap.ids c 0
  let c ← c.register id ⟨overlap.first, size, score⟩
  pure (c, id)

def nullBufferId : ℕ := 0

def findBuffer (id deviceAddr size : ℕ) : Except Fault (BufferCache × ℕ) :=
  if deviceAddr = 0 then .ok (c, nullBufferId)
  else do
    match ← c.pageEntry (deviceAddr / cachingPageSize) with
    | none => c.createBuffer id deviceAddr size
    | some bufferId =>
      let buffer ← c.slot bufferId
      if buffer.isInBounds deviceAddr size then pure (c, bufferId)
      else c.createBuffer id deviceAddr size

end BufferCache

end PS4Droid.VideoCore
