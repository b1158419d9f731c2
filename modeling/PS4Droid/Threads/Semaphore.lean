import Mathlib.Data.List.Pairwise
import Mathlib.Tactic.Ring

/-!
# Kernel semaphores

The class `OrbisSem` and the calls of `semaphore.cpp` on one semaphore, for any number of
threads. Each critical section under the mutex is one step. A thread that found too few tokens
waits outside the mutex for its binary semaphore or for its timeout and comes back in a later
step. Counts are signed 32-bit numbers, computed on as integers; a signed sum that leaves the
range has no defined value, while the atomic counter itself wraps.
-/

namespace PS4Droid.Threads

variable {ι : Type*} [DecidableEq ι]

/-- The value an atomic 32-bit counter holds. -/
def wrap32 (x : ℤ) : ℤ :=
  Int.bmod x (2 ^ 32)

inductive Result where
  | ok
  | busy
  | timedOut
  | canceled
  | access
  | invalid
  deriving DecidableEq

/-- The object a waiting thread keeps on its stack. `arrival` numbers the waiters of the
semaphore in the order in which they were queued; the program has no such field. -/
structure WaitingThread where
  sem : Bool
  priority : ℕ
  needCount : ℤ
  timed : Bool
  wasSignaled : Bool
  wasDeleted : Bool
  wasCanceled : Bool
  arrival : ℕ
  deriving DecidableEq

def WaitingThread.getResult (w : WaitingThread) : Result :=
  if w.wasSignaled then .ok
  else if w.wasDeleted then .access
  else if w.wasCanceled then .canceled
  else .timedOut

/-- Nobody has taken the waiter off the list yet. -/
def WaitingThread.Pending (w : WaitingThread) : Prop :=
  w.wasSignaled = false ∧ w.wasDeleted = false ∧ w.wasCanceled = false

/-- Where a thread inside `Wait` is: parked on its binary semaphore, or past it and about to
take the mutex again. -/
inductive Phase where
  | parked
  | relocking
  deriving DecidableEq

structure Waiting where
  waiter : WaitingThread
  phase : Phase
  deriving DecidableEq

structure OrbisSem (ι : Type*) where
  waitList : List ι
  tokenCount : ℤ
  maxCount : ℤ
  initCount : ℤ
  isFifo : Bool
  deriving DecidableEq

/-- What happened to the tokens, newest first. -/
inductive Event where
  | signaled (count : ℤ)
  | taken (count : ℤ)
  | set (count : ℤ)
  deriving DecidableEq

/-- The semaphore, the threads that are inside `Wait`, and the history of the tokens. -/
structure System (ι : Type*) where
  sem : OrbisSem ι
  threads : ι → Option Waiting
  arrivals : ℕ
  log : List Event

namespace System

variable (s : System ι)

def needCount (t : ι) : ℤ :=
  (s.threads t).elim 0 (·.waiter.needCount)

def priority (t : ι) : ℕ :=
  (s.threads t).elim 0 (·.waiter.priority)

def arrival (t : ι) : ℕ :=
  (s.threads t).elim 0 (·.waiter.arrival)

def setThread (t : ι) (w : Option Waiting) : System ι :=
  { s with threads := Function.update s.threads t w }

end System

def sceKernelCreateSema (hasName : Bool) (attr : ℕ) (initCount maxCount : Int32) :
    Except Result (OrbisSem ι) :=
  if !hasName ∨ 2 < attr ∨ initCount.toInt < 0 ∨ maxCount.toInt ≤ 0 ∨
      maxCount.toInt < initCount.toInt then
    .error .invalid
  else .ok ⟨[], initCount.toInt, maxCount.toInt, initCount.toInt, attr == 1⟩

/-- The position after the last waiter of the same or a higher priority (a smaller number). -/
def addWaiter (isFifo : Bool) (priority : ι → ℕ) (waitList : List ι) (t : ι) (p : ℕ) : List ι :=
  if isFifo then waitList ++ [t]
  else waitList.takeWhile (priority · ≤ p) ++ t :: waitList.dropWhile (priority · ≤ p)

namespace System

/-- The critical section at the start of `Wait`: no result means that the thread is queued. -/
def wait (s : System ι) (t : ι) (canBlock : Bool) (needCount : ℤ) (prio : ℕ)
    (timeout : Option ℕ) : System ι × Option Result :=
  if needCount ≤ s.sem.tokenCount then
    ({ s with
        sem := { s.sem with tokenCount := wrap32 (s.sem.tokenCount - needCount) }
        log := .taken needCount :: s.log }, some .ok)
  else if !canBlock then (s, some .busy)
  else if timeout = some 0 then (s, some .timedOut)
  else
    let waiter : WaitingThread :=
      { sem := false
        priority := if s.sem.isFifo then 0 else prio
        needCount := needCount
        timed := timeout.isSome
        wasSignaled := false
        wasDeleted := false
        wasCanceled := false
        arrival := s.arrivals }
    ({ sem := { s.sem with
          waitList := addWaiter s.sem.isFifo s.priority s.sem.waitList t waiter.priority }
       threads := Function.update s.threads t (some ⟨waiter, .parked⟩)
       arrivals := s.arrivals + 1
       log := s.log }, none)

/-- The loop of `Signal`: the waiters that stay, the tokens left, and the waiters woken up. -/
def wakeWaiters (needCount : ι → ℤ) : List ι → ℤ → List ι × ℤ × List ι
  | [], tokenCount => ([], tokenCount, [])
  | t :: rest, tokenCount =>
    if tokenCount < needCount t then
      let r := wakeWaiters needCount rest tokenCount
      (t :: r.1, r.2.1, r.2.2)
    else
      let r := wakeWaiters needCount rest (wrap32 (tokenCount - needCount t))
      (r.1, r.2.1, t :: r.2.2)

/-- Change the waiters of some threads. -/
def mark (s : System ι) (ts : List ι) (f : WaitingThread → WaitingThread) : ι → Option Waiting :=
  fun t => if t ∈ ts then (s.threads t).map fun w => { w with waiter := f w.waiter }
    else s.threads t

/-- The sum in the guard has type `int`. -/
def signal (s : System ι) (signalCount : ℤ) : Option (System ι × Bool) :=
  let sum := s.sem.tokenCount + signalCount
  if 2 ^ 31 ≤ sum ∨ sum < -2 ^ 31 then none
  else if s.sem.maxCount < sum then some (s, false)
  else
    let r := wakeWaiters s.needCount s.sem.waitList (wrap32 sum)
    some ({ s with
      sem := { s.sem with waitList := r.1, tokenCount := r.2.1 }
      threads := s.mark r.2.2 fun w => { w with wasSignaled := true, sem := true }
      log := (r.2.2.map fun t => Event.taken (s.needCount t)).reverse ++
        .signaled signalCount :: s.log }, true)

/-- The number of waiters is what `num_waiters` receives. -/
def cancel (s : System ι) (setCount : ℤ) : System ι × ℕ :=
  let count := if setCount < 0 then s.sem.initCount else setCount
  ({ s with
      sem := { s.sem with waitList := [], tokenCount := count }
      threads := s.mark s.sem.waitList fun w => { w with wasCanceled := true, sem := true }
      log := .set count :: s.log }, s.sem.waitList.length)

/-- The critical section at the end of `Wait`. A waiter that nobody has marked timed out. -/
def relock (s : System ι) (t : ι) (w : WaitingThread) : System ι × Result :=
  let result := w.getResult
  ({ s with
      sem := { s.sem with
        waitList := if result = .timedOut then s.sem.waitList.erase t else s.sem.waitList }
      threads := Function.update s.threads t none }, result)

end System

/-- The calls a thread makes that is not inside `Wait`. -/
inductive Call where
  | wait (needCount : Int32) (prio : ℕ) (timeout : Option ℕ)
  | poll (needCount : Int32)
  | signal (signalCount : Int32)
  | cancel (setCount : Int32)
  deriving DecidableEq

/-- One step of one thread. -/
inductive Action (ι : Type*) where
  | call (t : ι) (c : Call)
  /-- The binary semaphore was released. -/
  | acquire (t : ι)
  /-- The timeout ran out before. -/
  | expire (t : ι)
  | relock (t : ι)
  deriving DecidableEq

inductive Fault where
  | disabled
  | signedOverflow
  deriving DecidableEq

def Call.run (s : System ι) (t : ι) : Call → Except Fault (System ι)
  | .wait needCount prio timeout => .ok (s.wait t true needCount.toInt prio timeout).1
  | .poll needCount => .ok (s.wait t false needCount.toInt 0 none).1
  | .signal signalCount =>
    match s.signal signalCount.toInt with
    | some r => .ok r.1
    | none => .error .signedOverflow
  | .cancel setCount => .ok (s.cancel setCount.toInt).1

/-- A step is disabled when the thread is not at the place it starts from. -/
def step (s : System ι) : Action ι → Except Fault (System ι)
  | .call t c =>
    match s.threads t with
    | none => c.run s t
    | some _ => .error .disabled
  | .acquire t =>
    match s.threads t with
    | some ⟨w, .parked⟩ =>
      if w.sem then
        .ok (s.setThread t (some ⟨{ w with sem := false }, .relocking⟩))
      else .error .disabled
    | _ => .error .disabled
  | .expire t =>
    match s.threads t with
    | some ⟨w, .parked⟩ =>
      if w.timed then
        .ok (s.setThread t (some ⟨w, .relocking⟩))
      else .error .disabled
    | _ => .error .disabled
  | .relock t =>
    match s.threads t with
    | some ⟨w, .relocking⟩ => .ok (s.relock t w).1
    | _ => .error .disabled

/-- A semaphore nobody has used yet. -/
def System.create (sem : OrbisSem ι) : System ι :=
  ⟨sem, fun _ => none, 0, []⟩

end PS4Droid.Threads
