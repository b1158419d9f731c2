import Mathlib.Data.UInt
import PS4Droid.Foundations.Collect

/-!
# Event queues

The class `EqueueInternal` of `equeue.cpp` and the calls of any number of threads on one queue. A
call of `WaitForEvents` takes one of three paths: it polls, it spins on the small timers, or it
blocks on the condition variable. Each stretch under the mutex is one step, and a blocked thread may
also wake up without a reason. A trigger and its `notify_one` are one step.

The callbacks of the timer events come from outside as calls of `TriggerEvent`, so the intervals of
events that are not small timers are left out. An event also counts its triggers since it was added
or last returned.
-/

namespace PS4Droid.Kernel

/-- `OrbisKernelEvent::Filter`. -/
abbrev Filter := Int16

namespace Filter

def timer : Filter := -7

def user : Filter := -11

def videoOut : Filter := -13

def hrTimer : Filter := -15

end Filter

/-- `OrbisKernelEvent::Flags`. -/
abbrev Flags := UInt16

namespace Flags

def add : Flags := 1

def oneShot : Flags := 0x10

def clear : Flags := 0x20

end Flags

structure OrbisKernelEvent where
  ident : UInt64
  filter : Filter
  flags : Flags
  fflags : UInt32
  data : UInt64
  udata : UInt64
  deriving DecidableEq

structure OrbisKernelBintime where
  sec : ℤ
  frac : ℤ
  deriving DecidableEq

/-- The interval of a small timer in nanoseconds. -/
def OrbisKernelBintime.nanoseconds (time : OrbisKernelBintime) : ℤ :=
  (1000000000 * (time.frac >>> (32 : ℕ))) >>> (32 : ℕ) + time.sec * 1000000000

namespace Equeue

structure EqueueEvent where
  event : OrbisKernelEvent
  isTriggered : Bool
  triggers : ℕ
  deriving DecidableEq

namespace EqueueEvent

/-- Events are uniquely identified by id and filter. -/
def key (e : EqueueEvent) : UInt64 × Filter := (e.event.ident, e.event.filter)

def isClear (e : EqueueEvent) : Bool := e.event.flags &&& Flags.clear ≠ 0

def isOneShot (e : EqueueEvent) : Bool := e.event.flags &&& Flags.oneShot ≠ 0

def clear (e : EqueueEvent) : EqueueEvent :=
  { e with isTriggered := false, event := { e.event with fflags := 0, data := 0 } }

def trigger (e : EqueueEvent) (data : UInt64) : EqueueEvent :=
  { e with isTriggered := true, event := { e.event with data := data } }

def triggerUser (e : EqueueEvent) (data : UInt64) : EqueueEvent :=
  { e with isTriggered := true, event := { e.event with udata := data } }

def triggerTimer (e : EqueueEvent) : EqueueEvent :=
  { e with isTriggered := true, event := { e.event with data := e.event.data + 1 } }

/-- `time` is what `FencedRDTSC` reads. -/
def triggerDisplay (e : EqueueEvent) (time data : UInt64) : EqueueEvent :=
  if data ≠ 0 ∧ data &&& 0xff = e.event.ident ∧ e.event.ident ≠ 0xfe then
    let count : UInt64 := (e.event.data >>> 12) &&& 0xf
    let counter : UInt64 := if count ≠ 0xf then count + 1 else count
    let data : UInt64 := (time &&& (0xfff : UInt64)) ||| (counter <<< (12 : UInt64)) |||
      (data &&& (0xffffffffffff0000 : UInt64))
    { e with isTriggered := true, event := { e.event with data := data } }
  else { e with isTriggered := true }

/-- The branches of `TriggerEvent`. -/
def triggerAs (e : EqueueEvent) (filter : Filter) (time data : UInt64) : EqueueEvent :=
  let e := { e with triggers := e.triggers + 1 }
  if filter = .videoOut then e.triggerDisplay time data
  else if filter = .user then e.triggerUser data
  else if filter = .timer ∨ filter = .hrTimer then e.triggerTimer
  else e.trigger data

/-- What stays in the queue of an event that has been returned. -/
def afterReturn (e : EqueueEvent) : Option EqueueEvent :=
  let e := { (if e.isClear then e.clear else e) with triggers := 0 }
  if e.isOneShot then none else some e

end EqueueEvent

structure SmallTimer where
  event : OrbisKernelEvent
  added : ℕ
  interval : ℤ
  deriving DecidableEq

def SmallTimer.expired (now : ℕ) (st : SmallTimer) : Bool := st.interval ≤ (now : ℤ) - st.added

/-- The loop of `GetTriggeredEvents` after `count` entries: what it writes from there on, and the
events it leaves. -/
def getTriggeredEvents (num count : ℕ) : List EqueueEvent → List OrbisKernelEvent × List EqueueEvent
  | [] => ([], [])
  | e :: rest =>
    if e.isTriggered then
      if count + 1 = num then ([e.event], e.afterReturn.toList ++ rest)
      else
        let (entries, left) := getTriggeredEvents num (count + 1) rest
        (e.event :: entries, e.afterReturn.toList ++ left)
    else
      let (entries, left) := getTriggeredEvents num count rest
      (entries, e :: left)

/-- The loop over the small timers in `WaitForSmallTimer` after `count` entries. -/
def getExpiredTimers (now num count : ℕ) : List SmallTimer → List OrbisKernelEvent × List SmallTimer
  | [] => ([], [])
  | st :: rest =>
    if count < num then
      if st.expired now then
        let (entries, left) := getExpiredTimers now num (count + 1) rest
        (st.event :: entries, left)
      else
        let (entries, left) := getExpiredTimers now num count rest
        (entries, st :: left)
    else ([], st :: rest)

/-- Where a thread is inside `WaitForEvents`; `waitEnd` is the time at which it gives up. -/
inductive Phase where
  | idle
  | spinning (num : ℕ) (waitEnd : Option ℕ)
  | blocked (num : ℕ) (waitEnd : Option ℕ) (notified : Bool)
  deriving DecidableEq

namespace Phase

/-- The thread waits on the condition variable and nothing has woken it. -/
def isAsleep : Phase → Bool
  | blocked _ _ false => true
  | _ => false

def isBlocked : Phase → Bool
  | blocked _ _ _ => true
  | _ => false

end Phase

structure System (ι : Type) where
  events : List EqueueEvent
  smallTimers : List SmallTimer
  now : ℕ
  threads : ι → Phase

def System.create {ι : Type} : System ι where
  events := []
  smallTimers := []
  now := 0
  threads _ := .idle

/-- The steps of the threads. `notified` is the thread that `notify_one` wakes, and `order` the
order in which the hash table of small timers is walked. -/
inductive Op (ι : Type) where
  | addEvent (event : OrbisKernelEvent)
  | removeEvent (id : UInt64) (filter : Filter)
  | addSmallTimer (event : OrbisKernelEvent) (time : OrbisKernelBintime)
  | removeSmallTimer (id : UInt64)
  | triggerEvent (ident : UInt64) (filter : Filter) (time data : UInt64) (notified : Option ι)
  | advance (elapsed : ℕ)
  | waitForEvents (t : ι) (num : ℕ) (timo : Option UInt32)
  | spin (t : ι) (order : List SmallTimer)
  | wake (t : ι)
  | timeOut (t : ι)

namespace System

variable {ι : Type} [DecidableEq ι] (s : System ι)

def setThread (t : ι) (phase : Phase) : System ι :=
  { s with threads := Function.update s.threads t phase }

def addEvent (event : OrbisKernelEvent) : System ι :=
  let old : EqueueEvent → Bool := fun e => e.key = (event.ident, event.filter)
  if s.events.any old then
    { s with
      events := s.events.map fun e =>
        if old e then { e with event := { e.event with udata := event.udata } } else e }
  else
    let flags := event.flags &&& ~~~Flags.add
    let flags := if event.filter ≠ .user then flags ||| Flags.clear else flags
    { s with
      events := s.events ++ [⟨{ event with data := 0, flags := flags }, false, 0⟩] }

def removeEvent (id : UInt64) (filter : Filter) : System ι :=
  { s with events := s.events.eraseP fun e => e.key = (id, filter) }

def addSmallTimer (event : OrbisKernelEvent) (time : OrbisKernelBintime) : System ι :=
  { s with
    smallTimers := ⟨event, s.now, time.nanoseconds⟩ ::
      s.smallTimers.filter fun st => st.event.ident ≠ event.ident }

def removeSmallTimer (id : UInt64) : System ι :=
  { s with smallTimers := s.smallTimers.filter fun st => st.event.ident ≠ id }

/-- `notify_one`. -/
def notify : Option ι → System ι
  | none => s
  | some t =>
    match s.threads t with
    | .blocked num waitEnd _ => s.setThread t (.blocked num waitEnd true)
    | _ => s

def triggerEvent (ident : UInt64) (filter : Filter) (time data : UInt64) (notified : Option ι) :
    System ι :=
  { s.notify notified with
    events := s.events.map fun e =>
      if e.key = (ident, filter) then e.triggerAs filter time data else e }

/-- A call returns what `GetTriggeredEvents` finds. -/
def returnTriggered (t : ι) (num : ℕ) : System ι × Option (ι × List OrbisKernelEvent) :=
  let (entries, left) := getTriggeredEvents num 0 s.events
  ({ s.setThread t .idle with events := left }, some (t, entries))

/-- The predicate of the wait on the condition variable, and the wait if it does not hold. -/
def tryTriggered (t : ι) (num : ℕ) (waitEnd : Option ℕ) :
    System ι × Option (ι × List OrbisKernelEvent) :=
  if (getTriggeredEvents num 0 s.events).1 ≠ [] then s.returnTriggered t num
  else (s.setThread t (.blocked num waitEnd false), none)

def waitForEvents (t : ι) (num : ℕ) (timo : Option UInt32) :
    System ι × Option (ι × List OrbisKernelEvent) :=
  if timo = some 0 then s.returnTriggered t num
  else
    let waitEnd := timo.map fun micros => s.now + micros.toNat * 1000
    if s.smallTimers ≠ [] then (s.setThread t (.spinning num waitEnd), none)
    else s.tryTriggered t num waitEnd

/-- One round of the loop of `WaitForSmallTimer`. -/
def spin (t : ι) (order : List SmallTimer) : System ι × Option (ι × List OrbisKernelEvent) :=
  match s.threads t with
  | .spinning num waitEnd =>
    let (entries, left) := getExpiredTimers s.now num 0 order
    if entries ≠ [] then ({ s.setThread t .idle with smallTimers := left }, some (t, entries))
    else if waitEnd.any fun deadline => deadline ≤ s.now then (s.setThread t .idle, some (t, []))
    else (s, none)
  | _ => (s, none)

/-- A blocked thread has the mutex again. -/
def wake (t : ι) : System ι × Option (ι × List OrbisKernelEvent) :=
  match s.threads t with
  | .blocked num waitEnd _ => s.tryTriggered t num waitEnd
  | _ => (s, none)

/-- A blocked thread has the mutex again after its timeout. -/
def timeOut (t : ι) : System ι × Option (ι × List OrbisKernelEvent) :=
  match s.threads t with
  | .blocked num waitEnd _ =>
    if waitEnd.any fun deadline => deadline ≤ s.now then s.returnTriggered t num else (s, none)
  | _ => (s, none)

def step : Op ι → System ι × Option (ι × List OrbisKernelEvent)
  | .addEvent event => (s.addEvent event, none)
  | .removeEvent id filter => (s.removeEvent id filter, none)
  | .addSmallTimer event time => (s.addSmallTimer event time, none)
  | .removeSmallTimer id => (s.removeSmallTimer id, none)
  | .triggerEvent ident filter time data notified =>
    (s.triggerEvent ident filter time data notified, none)
  | .advance elapsed => ({ s with now := s.now + elapsed }, none)
  | .waitForEvents t num timo => s.waitForEvents t num timo
  | .spin t order => s.spin t order
  | .wake t => s.wake t
  | .timeOut t => s.timeOut t

/-- A thread makes one call at a time and asks for at least one entry, `notify_one` wakes a thread
if there is one to wake, and the small timers are walked in some order. -/
def Enabled : Op ι → Prop
  | .waitForEvents t num _ => s.threads t = .idle ∧ 1 ≤ num
  | .triggerEvent _ _ _ _ (some t) => (s.threads t).isAsleep = true
  | .triggerEvent _ _ _ _ none => ∀ t, (s.threads t).isAsleep = false
  | .spin _ order => order.Perm s.smallTimers
  | _ => True

def run : List (Op ι) → System ι :=
  List.foldl (fun s op => (s.step op).1) s

/-- Every step of the list is enabled when its turn comes. -/
def EnabledRun (s : System ι) : List (Op ι) → Prop
  | [] => True
  | op :: ops => s.Enabled op ∧ EnabledRun (s.step op).1 ops

/-- Some event is triggered. -/
def hasTriggered : Bool := s.events.any (·.isTriggered)

/-- Some small timer has expired. -/
def hasExpired : Bool := s.smallTimers.any (·.expired s.now)

/-- Blocked threads do not look at the small timers, so none has expired unless there is also an
event for them. -/
def EventsServed : Prop :=
  ∀ t, (s.threads t).isBlocked = true → s.hasExpired = true → s.hasTriggered = true

/-- A poll does not look at the small timers, a spinning thread does not look at the events, and a
trigger wakes one thread only. -/
def Served : Op ι → Prop
  | .waitForEvents _ _ timo => timo = some 0 → s.hasExpired = true → s.hasTriggered = true
  | .spin _ _ => s.hasTriggered = true → s.hasExpired = true
  | .triggerEvent ident filter _ _ _ => s.events.any (·.key = (ident, filter)) = true →
      ∀ t t', (s.threads t).isAsleep = true → (s.threads t').isAsleep = true → t = t'
  | _ => True

end System

/-- The states of the runs in which each call finds something pending in the container that its path
looks at, if anything is pending. -/
inductive Reachable {ι : Type} [DecidableEq ι] : System ι → Prop where
  | create : Reachable .create
  | step {s : System ι} {op : Op ι} : Reachable s → s.EventsServed → s.Enabled op → s.Served op →
      Reachable (s.step op).1

end Equeue

end PS4Droid.Kernel
