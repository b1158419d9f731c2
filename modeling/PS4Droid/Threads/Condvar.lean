import Mathlib.Algebra.Ring.Nat
import Mathlib.Data.List.Basic

/-!
# Condition variables

`PthreadCond` of `condvar.cpp` with the mutexes of `mutex.cpp` and the sleep queues, for any number
of threads, condition variables and mutexes. Each stretch under the lock of a sleep queue is one
step. A release of a wake semaphore stands in `releasing` from the moment a thread decides on it
until it is done, and any steps may come in between. In the source the thread that makes it does
nothing else before, so the model has more runs than the program.

Cancellation is left out: no thread here has a pending cancel.
-/

namespace PS4Droid.Threads.Condvar

inductive PthreadMutexType where
  | errorCheck
  | recursive
  | normal
  | adaptiveNp
  deriving DecidableEq

inductive Code where
  | ok
  | perm
  | again
  | deadlk
  | timedOut
  deriving DecidableEq

structure PthreadMutex (ι : Type) where
  type : PthreadMutexType
  owner : Option ι
  count : ℕ
  deferred : Bool
  deriving DecidableEq

/-- Where a thread is between two steps. A waiting thread keeps the local variables of `Wait`;
`acquired` is the answer of `Sleep`. -/
inductive Phase (κ μ : Type) where
  | running
  | sleeping (c : κ) (mp : μ) (recurse : ℕ) (timed : Bool)
  | awake (c : κ) (mp : μ) (recurse : ℕ) (acquired : Bool)
  | relocking (mp : μ) (recurse : ℕ) (error : Code)
  | deadlocked
  | unreachable
  deriving DecidableEq

/-- Besides the state of the program, `signalled` says whether a `Signal` or `Broadcast` has removed
the thread since it was last added to a queue, and `entry` keeps the mutex of its last `Wait` with
the recursion count at the time. -/
structure System (ι κ μ : Type) where
  mutexes : μ → PthreadMutex ι
  queue : κ → List ι
  wchan : ι → Option κ
  mutexObj : ι → Option μ
  wakeSema : ι → ℕ
  deferWaiters : ι → List ι
  releasing : List ι
  threads : ι → Phase κ μ
  signalled : ι → Bool
  entry : ι → Option (μ × ℕ)

def maxDeferWaiters : ℕ := 50

/-- A step of a thread. -/
inductive Op (ι κ μ : Type) where
  | lock (t : ι) (mp : μ) (timed : Bool)
  | unlock (t : ι) (mp : μ)
  | wait (t : ι) (c : κ) (mp : μ) (timed : Bool)
  | acquire (t : ι)
  | expire (t : ι)
  | check (t : ι)
  | relock (t : ι)
  | signal (t : ι) (c : κ)
  | broadcast (t : ι) (c : κ)
  | release (td : ι)

namespace System

variable {ι κ μ : Type} [DecidableEq ι] [DecidableEq κ] [DecidableEq μ] (s : System ι κ μ)

def create (types : μ → PthreadMutexType) : System ι κ μ where
  mutexes mp := ⟨types mp, none, 0, false⟩
  queue _ := []
  wchan _ := none
  mutexObj _ := none
  wakeSema _ := 0
  deferWaiters _ := []
  releasing := []
  threads _ := .running
  signalled _ := false
  entry _ := none

def setThread (t : ι) (phase : Phase κ μ) : System ι κ μ :=
  { s with threads := Function.update s.threads t phase }

def setMutex (mp : μ) (mutex : PthreadMutex ι) : System ι κ μ :=
  { s with mutexes := Function.update s.mutexes mp mutex }

def selfLock (t : ι) (mp : μ) (timed : Bool) : System ι κ μ × Option Code :=
  let mutex := s.mutexes mp
  match mutex.type with
  | .recursive =>
    if mutex.count + 1 < 2 ^ 31 then
      (s.setMutex mp { mutex with count := mutex.count + 1 }, some .ok)
    else (s, some .again)
  | .errorCheck | .adaptiveNp => (s, some (if timed then .timedOut else .deadlk))
  | .normal => if timed then (s, some .timedOut) else (s.setThread t .deadlocked, none)

/-- A step of `Lock`: a thread that finds the mutex taken stays where it is, or its time is up. -/
def lock (t : ι) (mp : μ) (timed : Bool) : System ι κ μ × Option Code :=
  let mutex := s.mutexes mp
  if mutex.owner = some t then s.selfLock t mp timed
  else if mutex.owner = none then (s.setMutex mp { mutex with owner := some t }, some .ok)
  else (s, if timed then some .timedOut else none)

def wakeAll (t : ι) : System ι κ μ :=
  { s with
    releasing := s.releasing ++ s.deferWaiters t
    deferWaiters := Function.update s.deferWaiters t [] }

def unlock (t : ι) (mp : μ) (willSleep : Bool) : System ι κ μ × Option Code :=
  let mutex := s.mutexes mp
  if mutex.owner ≠ some t then (s, some .perm)
  else if mutex.type = .recursive ∧ 0 < mutex.count then
    (s.setMutex mp { mutex with count := mutex.count - 1 }, some .ok)
  else
    let s' := s.setMutex mp { mutex with owner := none, deferred := false }
    (if ¬ willSleep ∧ mutex.deferred then s'.wakeAll t else s', some .ok)

def cvUnlock (t : ι) (mp : μ) : System ι κ μ :=
  ((s.setMutex mp { s.mutexes mp with count := 0 }).unlock t mp true).1

def sleepqAdd (c : κ) (td : ι) : System ι κ μ :=
  { s with
    queue := Function.update s.queue c (td :: s.queue c)
    wchan := Function.update s.wchan td (some c)
    signalled := Function.update s.signalled td false }

def sleepqRemove (c : κ) (td : ι) : System ι κ μ :=
  { s with
    queue := Function.update s.queue c ((s.queue c).filter (· ≠ td))
    wchan := Function.update s.wchan td none }

/-- `Wait` up to the point where the thread sleeps, with the `WakeAll` at the start of `Sleep`. -/
def wait (t : ι) (c : κ) (mp : μ) (timed : Bool) : System ι κ μ × Option Code :=
  if (s.mutexes mp).owner ≠ some t then (s, some .perm)
  else
    let recurse := (s.mutexes mp).count
    let s := (s.cvUnlock t mp).sleepqAdd c t
    let s := { s with
      mutexObj := Function.update s.mutexObj t (some mp)
      wakeSema := Function.update s.wakeSema t (s.wakeSema t - 1)
      entry := Function.update s.entry t (some (mp, recurse)) }
    ((s.wakeAll t).setThread t (.sleeping c mp recurse timed), none)

/-- `Sleep` returns with the semaphore. -/
def acquire (t : ι) : System ι κ μ :=
  match s.threads t with
  | .sleeping c mp recurse _ =>
    if 0 < s.wakeSema t then
      { s.setThread t (.awake c mp recurse true) with
        wakeSema := Function.update s.wakeSema t (s.wakeSema t - 1) }
    else s
  | _ => s

/-- `Sleep` returns without the semaphore. -/
def expire (t : ι) : System ι κ μ :=
  match s.threads t with
  | .sleeping c mp recurse true => s.setThread t (.awake c mp recurse false)
  | _ => s

/-- The tests after `Sleep`. -/
def check (t : ι) : System ι κ μ :=
  match s.threads t with
  | .awake c mp recurse acquired =>
    if s.wchan t = none then
      { s.setThread t (.relocking mp recurse .ok) with
        mutexObj := Function.update s.mutexObj t none }
    else if ¬ acquired then
      { (s.sleepqRemove c t).setThread t (.relocking mp recurse .timedOut) with
        mutexObj := Function.update s.mutexObj t none }
    else s.setThread t .unreachable
  | _ => s

/-- `CvLock` at the end of `Wait`. -/
def relock (t : ι) : System ι κ μ × Option Code :=
  match s.threads t with
  | .relocking mp recurse error =>
    if (s.mutexes mp).owner = none then
      ((s.setMutex mp { s.mutexes mp with owner := some t, count := recurse }).setThread t .running,
        some error)
    else (s, none)
  | _ => (s, none)

/-- The wake-up of a removed thread: it is put off if the caller owns the mutex of that thread. -/
def wakeLater (t td : ι) : System ι κ μ :=
  match s.mutexObj td with
  | some mp =>
    if (s.mutexes mp).owner = some t then
      let s := if maxDeferWaiters ≤ (s.deferWaiters t).length then s.wakeAll t else s
      { s.setMutex mp { s.mutexes mp with deferred := true } with
        deferWaiters := Function.update s.deferWaiters t (s.deferWaiters t ++ [td]) }
    else { s with releasing := s.releasing ++ [td] }
  | none => s

def removeAndWake (t : ι) (c : κ) (td : ι) : System ι κ μ :=
  { (s.sleepqRemove c td).wakeLater t td with
    signalled := Function.update s.signalled td true }

/-- `Signal(nullptr)`. -/
def signal (t : ι) (c : κ) : System ι κ μ :=
  match s.queue c with
  | [] => s
  | td :: _ => s.removeAndWake t c td

def broadcast (t : ι) (c : κ) : System ι κ μ :=
  (s.queue c).foldl (fun s td => s.removeAndWake t c td) s

/-- One release that has been decided on is done. -/
def release (td : ι) : System ι κ μ :=
  if td ∈ s.releasing then
    { s with
      releasing := s.releasing.erase td
      wakeSema := Function.update s.wakeSema td (s.wakeSema td + 1) }
  else s

def step : Op ι κ μ → System ι κ μ × Option Code
  | .lock t mp timed => s.lock t mp timed
  | .unlock t mp => s.unlock t mp false
  | .wait t c mp timed => s.wait t c mp timed
  | .acquire t => (s.acquire t, none)
  | .expire t => (s.expire t, none)
  | .check t => (s.check t, none)
  | .relock t => s.relock t
  | .signal t c => (s.signal t c, some .ok)
  | .broadcast t c => (s.broadcast t c, some .ok)
  | .release td => (s.release td, none)

/-- Calls are made by threads that are not inside another one. -/
def Enabled : Op ι κ μ → Prop
  | .lock t _ _ | .unlock t _ | .wait t _ _ _ | .signal t _ | .broadcast t _ =>
      s.threads t = .running
  | _ => True

def run : List (Op ι κ μ) → System ι κ μ :=
  List.foldl (fun s op => (s.step op).1) s

/-- Every step of the list is enabled when its turn comes. -/
def EnabledRun (s : System ι κ μ) : List (Op ι κ μ) → Prop
  | [] => True
  | op :: ops => s.Enabled op ∧ EnabledRun (s.step op).1 ops

/-- A release of the wake semaphore of the thread has been decided on and is not done. -/
def Outstanding (td : ι) : Prop := td ∈ s.releasing ∨ ∃ t, td ∈ s.deferWaiters t

/-- No thread begins to wait before the release that an earlier wait of it was promised is done. -/
def WaitsAfterRelease : Op ι κ μ → Prop
  | .wait t _ _ _ => ¬ s.Outstanding t
  | _ => True

end System

/-- The states of the runs in which no release is overtaken by the next wait of its thread. -/
inductive Reachable {ι κ μ : Type} [DecidableEq ι] [DecidableEq κ] [DecidableEq μ] :
    System ι κ μ → Prop where
  | create (types : μ → PthreadMutexType) : Reachable (.create types)
  | step {s : System ι κ μ} {op : Op ι κ μ} : Reachable s → s.Enabled op → s.WaitsAfterRelease op →
      Reachable (s.step op).1

end PS4Droid.Threads.Condvar
