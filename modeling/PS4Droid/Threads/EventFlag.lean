import Mathlib.Data.UInt
import PS4Droid.Foundations.Counting

/-!
# Kernel event flags

The class `EventFlagInternal` of `event_flag.cpp` and the calls of any number of threads on one
flag. Each stretch under the mutex is one step: a waiting thread comes back to look at its condition
again at any time, and `Set`, `Clear` and `Cancel` release the mutex between their attempts.

Beside the program's state the model keeps what the statements need: the changes of the bits in
order, how many calls of `Cancel` have set their pattern, and how many threads have been told
`ECANCELED` since the last of them did. `sceKernelDeleteEventFlag` does not go through the status,
so no thread ever sees it as deleted.
-/

namespace PS4Droid.Threads.EventFlag

inductive ClearMode where
  | none
  | all
  | bits
  deriving DecidableEq

inductive WaitMode where
  | and
  | or
  deriving DecidableEq

inductive ThreadMode where
  | single
  | multi
  deriving DecidableEq

inductive Status where
  | set
  | canceled
  | deleted
  deriving DecidableEq

inductive Code where
  | ok
  | perm
  | timedOut
  | busy
  | canceled
  | access
  deriving DecidableEq

/-- The arguments of `Wait`; a `Poll` is a `Wait` with a timeout of zero. -/
structure WaitArgs where
  bits : UInt64
  waitMode : WaitMode
  clearMode : ClearMode
  timed : Bool
  poll : Bool
  deriving DecidableEq

/-- What a call returns to its thread. -/
inductive Return where
  | wait (code : Code) (result : Option UInt64)
  | set
  | clear
  | cancel (setPattern : UInt64) (numWaitThreads : ℤ)
  deriving DecidableEq

/-- Where a thread is between two stretches under the mutex. `since` is the number of calls of
`Cancel` that had set their pattern when the thread began to wait. -/
inductive Phase where
  | idle
  | waiting (args : WaitArgs) (since : ℕ)
  | setting (bits : UInt64)
  | clearing (bits : UInt64)
  | canceling (setPattern : UInt64)
  | draining (setPattern : UInt64) (numWaitThreads : ℤ)
  deriving DecidableEq

def Phase.isWaiting : Phase → Bool
  | .waiting _ _ => true
  | _ => false

/-- The changes of the bits. -/
inductive Event where
  | set (bits : UInt64)
  | clear (bits : UInt64)
  | cancel (setPattern : UInt64)
  | consume (args : WaitArgs)
  deriving DecidableEq

/-- `waitFunc` without the status. -/
def WaitArgs.satisfied (args : WaitArgs) (bits : UInt64) : Bool :=
  match args.waitMode with
  | .and => bits &&& args.bits = args.bits
  | .or => bits &&& args.bits ≠ 0

/-- The bits after the clear that a satisfied wait asks for. -/
def WaitArgs.clear (args : WaitArgs) (bits : UInt64) : UInt64 :=
  match args.clearMode with
  | .none => bits
  | .all => 0
  | .bits => bits &&& ~~~args.bits

def Event.apply (bits : UInt64) : Event → UInt64
  | .set new => bits ||| new
  | .clear kept => bits &&& kept
  | .cancel setPattern => setPattern
  | .consume args => args.clear bits

/-- The bits after the changes of a log, newest first. -/
def replay (initial : UInt64) : List Event → UInt64
  | [] => initial
  | event :: rest => event.apply (replay initial rest)

structure System (ι : Type) where
  threadMode : ThreadMode
  status : Status
  waitingThreads : ℤ
  bits : UInt64
  threads : ι → Phase
  initial : UInt64
  log : List Event
  cancels : ℕ
  canceled : ℤ

variable {ι : Type} [DecidableEq ι]

def System.create (threadMode : ThreadMode) (bits : UInt64) : System ι where
  threadMode := threadMode
  status := .set
  waitingThreads := 0
  bits := bits
  threads _ := .idle
  initial := bits
  log := []
  cancels := 0
  canceled := 0

namespace System

variable (s : System ι)

def setThread (t : ι) (phase : Phase) : System ι :=
  { s with threads := Function.update s.threads t phase }

def change (event : Event) : System ι :=
  { s with bits := event.apply s.bits, log := event :: s.log }

def waitFunc (args : WaitArgs) : Bool :=
  s.status = .canceled || s.status = .deleted || args.satisfied s.bits

/-- The end of `Wait` once `waitFunc` holds. -/
def finishWait (t : ι) (args : WaitArgs) : System ι × Option (ι × Return) :=
  let s := { s.setThread t .idle with waitingThreads := s.waitingThreads - 1 }
  match s.status with
  | .canceled =>
    ({ s with canceled := s.canceled + 1 }, some (t, .wait .canceled (some s.bits)))
  | .deleted => (s, some (t, .wait .access (some s.bits)))
  | .set => (s.change (.consume args), some (t, .wait .ok (some s.bits)))

/-- A thread enters `Wait`. -/
def beginWait (t : ι) (args : WaitArgs) : System ι × Option (ι × Return) :=
  if s.threadMode = .single ∧ 0 < s.waitingThreads then (s, some (t, .wait .perm none))
  else
    let s := { s with waitingThreads := s.waitingThreads + 1 }
    if s.waitFunc args then s.finishWait t args
    else (s.setThread t (.waiting args s.cancels), none)

/-- A waiting thread has the mutex again and looks at its condition. -/
def wake (t : ι) : System ι × Option (ι × Return) :=
  match s.threads t with
  | .waiting args _ => if s.waitFunc args then s.finishWait t args else (s, none)
  | _ => (s, none)

/-- The timeout of a waiting thread has passed, and it has the mutex again. -/
def timeOut (t : ι) : System ι × Option (ι × Return) :=
  match s.threads t with
  | .waiting args _ =>
    if ¬ args.timed then (s, none)
    else if s.waitFunc args then s.finishWait t args
    else
      ({ s.setThread t .idle with waitingThreads := s.waitingThreads - 1 },
        some (t, .wait (if args.poll then .busy else .timedOut) (some s.bits)))
  | _ => (s, none)

/-- The last test of the loop of `Cancel`. -/
def drain (t : ι) (setPattern : UInt64) (numWaitThreads : ℤ) : System ι × Option (ι × Return) :=
  if 0 < s.waitingThreads then (s.setThread t (.draining setPattern numWaitThreads), none)
  else ({ s.setThread t .idle with status := .set }, some (t, .cancel setPattern numWaitThreads))

/-- A thread inside `Set`, `Clear` or `Cancel` has the mutex and tries again. -/
def attempt (t : ι) : System ι × Option (ι × Return) :=
  match s.threads t with
  | .setting bits =>
    if s.status = .set then ((s.setThread t .idle).change (.set bits), some (t, .set))
    else (s, none)
  | .clearing bits =>
    if s.status = .set then ((s.setThread t .idle).change (.clear bits), some (t, .clear))
    else (s, none)
  | .canceling setPattern =>
    if s.status = .set then
      let s' := { s.change (.cancel setPattern) with
        status := .canceled, cancels := s.cancels + 1, canceled := 0 }
      s'.drain t setPattern s.waitingThreads
    else (s, none)
  | .draining setPattern numWaitThreads => s.drain t setPattern numWaitThreads
  | _ => (s, none)

end System

/-- A step of one thread: the start of a call, or a stretch under the mutex within one. -/
inductive Op (ι : Type) where
  | wait (t : ι) (args : WaitArgs)
  | set (t : ι) (bits : UInt64)
  | clear (t : ι) (bits : UInt64)
  | cancel (t : ι) (setPattern : UInt64)
  | wake (t : ι)
  | timeOut (t : ι)
  | attempt (t : ι)

/-- The thread that makes the step. -/
def Op.thread : Op ι → ι
  | .wait t _ | .set t _ | .clear t _ | .cancel t _ | .wake t | .timeOut t | .attempt t => t

namespace System

/-- A thread makes one call at a time, and a poll has a timeout. -/
def Enabled (s : System ι) : Op ι → Prop
  | .wait t args => s.threads t = .idle ∧ (args.poll = true → args.timed = true)
  | .set t _ | .clear t _ | .cancel t _ => s.threads t = .idle
  | _ => True

def step (s : System ι) : Op ι → System ι × Option (ι × Return)
  | .wait t args => s.beginWait t args
  | .set t bits => (s.setThread t (.setting bits), none)
  | .clear t bits => (s.setThread t (.clearing bits), none)
  | .cancel t setPattern => (s.setThread t (.canceling setPattern), none)
  | .wake t => s.wake t
  | .timeOut t => s.timeOut t
  | .attempt t => s.attempt t

/-- No thread begins to wait, unless it is refused, between the moment a `Cancel` sets its pattern
and its return. -/
def NotDuringCancel (s : System ι) : Op ι → Prop
  | .wait _ _ => s.status = .canceled → s.threadMode = .single ∧ 0 < s.waitingThreads
  | _ => True

end System

/-- The states of the runs in which no thread begins to wait during a `Cancel`. -/
inductive Reachable : System ι → Prop where
  | create (threadMode : ThreadMode) (bits : UInt64) : Reachable (.create threadMode bits)
  | step {s : System ι} {op : Op ι} : Reachable s → s.Enabled op → s.NotDuringCancel op →
      Reachable (s.step op).1

end PS4Droid.Threads.EventFlag
