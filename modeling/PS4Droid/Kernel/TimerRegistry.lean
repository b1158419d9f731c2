import PS4Droid.Kernel.Equeue

/-!
# High-resolution timers of an event queue

A timer lives in one of two containers of its queue: below a threshold it is a small timer that a
waiting thread spins on, above it an event whose callback comes from outside. The interval decides
at each call which container is meant; a deletion looks whether there is any small timer.
-/

namespace PS4Droid.Kernel

structure OrbisKernelTimespec where
  tv_sec : Int64
  tv_nsec : Int64
  deriving DecidableEq

namespace OrbisKernelTimespec

def totalNs (ts : OrbisKernelTimespec) : Int64 :=
  1000000000 * ts.tv_sec + ts.tv_nsec

/-- The product has the type of the field, `s64`, in which it wraps. -/
def bintime (ts : OrbisKernelTimespec) : OrbisKernelBintime :=
  ⟨ts.tv_sec.toInt, (0x44b82fa09 * ts.tv_nsec).toInt⟩

end OrbisKernelTimespec

def hrTimerSpinlockThresholdNs : Int64 := 1200000

namespace HrTimers

open Equeue

/-- An event of a queue with its interval in nanoseconds, and the time at which its asio timer
expires. -/
structure TimedEvent extends EqueueEvent where
  timerInterval : ℤ
  timer : Option ℤ
  deriving DecidableEq

/-- The two containers of a queue in which timers lie. -/
structure TimerQueue where
  events : List TimedEvent
  smallTimers : List SmallTimer
  deriving DecidableEq

/-- `ORBIS_OK` and the errors of the calls. -/
inductive Code where
  | ok
  | enoent
  | enomem
  deriving DecidableEq

/-- The identifier of an event is the sign-extended number of the caller. -/
def identOf (id : Int32) : UInt64 := id.toInt64.toUInt64

namespace TimerQueue

def create : TimerQueue := ⟨[], []⟩

variable (q : TimerQueue)

/-- `AddEvent` for a timer with the time that its data points to. Events are unique by id and
filter; one that is there keeps its asio timer, a new one is scheduled. -/
def addEvent (event : OrbisKernelEvent) (time : OrbisKernelBintime) (now : ℕ) :
    Bool × TimerQueue :=
  let old : TimedEvent → Bool := fun e => e.key = (event.ident, event.filter)
  if q.events.any old then
    (true, { q with
      events := q.events.map fun e =>
        if old e then
          { e with
            timerInterval := time.nanoseconds
            event := { e.event with udata := event.udata } }
        else e })
  else
    let flags := event.flags &&& ~~~Flags.add
    let flags := if event.filter ≠ .user then flags ||| Flags.clear else flags
    (true, { q with
      events := q.events ++ [⟨⟨{ event with data := 0, flags := flags }, false, 0⟩,
        time.nanoseconds, some (now + time.nanoseconds)⟩] })

def removeEvent (id : UInt64) (filter : Filter) : Bool × TimerQueue :=
  (q.events.any fun e => e.key = (id, filter),
    { q with events := q.events.eraseP fun e => e.key = (id, filter) })

def addSmallTimer (event : OrbisKernelEvent) (time : OrbisKernelBintime) (now : ℕ) :
    Bool × TimerQueue :=
  (true, { q with
    smallTimers := ⟨event, now, time.nanoseconds⟩ ::
      q.smallTimers.filter fun st => st.event.ident ≠ event.ident })

def hasSmallTimer : Bool := !q.smallTimers.isEmpty

def removeSmallTimer (id : UInt64) : Bool × TimerQueue :=
  if q.hasSmallTimer then
    (q.smallTimers.any fun st => st.event.ident = id,
      { q with smallTimers := q.smallTimers.filter fun st => st.event.ident ≠ id })
  else (false, q)

/-- The event that a call adds; its data is the address of the time. -/
def hrTimerEvent (id : Int32) (address udata : UInt64) : OrbisKernelEvent where
  ident := identOf id
  filter := .hrTimer
  flags := Flags.add ||| Flags.oneShot
  fflags := 0
  data := address
  udata := udata

def sceKernelAddHRTimerEvent (id : Int32) (ts : OrbisKernelTimespec) (address udata : UInt64)
    (now : ℕ) : Code × TimerQueue :=
  let event := hrTimerEvent id address udata
  let (added, q) :=
    if ts.totalNs < hrTimerSpinlockThresholdNs then q.addSmallTimer event ts.bintime now
    else q.addEvent event ts.bintime now
  (if added then .ok else .enomem, q)

def sceKernelDeleteHRTimerEvent (id : Int32) : Code × TimerQueue :=
  let (removed, q) :=
    if q.hasSmallTimer then q.removeSmallTimer (identOf id)
    else q.removeEvent (identOf id) .hrTimer
  (if removed then .ok else .enoent, q)

end TimerQueue

/-- The calls on one queue. -/
inductive Call where
  | add (id : Int32) (ts : OrbisKernelTimespec) (address udata : UInt64) (now : ℕ)
  | delete (id : Int32)
  deriving DecidableEq

def TimerQueue.step (q : TimerQueue) : Call → Code × TimerQueue
  | .add id ts address udata now => q.sceKernelAddHRTimerEvent id ts address udata now
  | .delete id => q.sceKernelDeleteHRTimerEvent id

/-!
### The timers of an id

A timer of an id may be pending in either container. Adding replaces it only in the container that
the new interval belongs to, and among the events it leaves the asio timer running as it is.
Deleting looks into the container of events only when there is no small timer at all. Runs keep one
timer for each id, due when it was last asked for, and answer deletions rightly exactly when no call
meets the other container and no event is added again for another time.
-/

namespace TimerQueue

variable (q : TimerQueue)

/-- The timers of an id in both containers, each with its interval, the time at which it is due and
its user data. -/
def pending (id : UInt64) : List (ℤ × Option ℤ × UInt64) :=
  (q.smallTimers.filter (·.event.ident = id)).map
      (fun st => (st.interval, some ((st.added : ℤ) + st.interval), st.event.udata)) ++
    (q.events.filter (·.key = (id, .hrTimer))).map fun e =>
      (e.timerInterval, e.timer, e.event.udata)

/-- At most one timer of each id is pending. -/
def Unique : Prop :=
  ∀ id, (q.pending id).length ≤ 1

/-- A timer event of the id is in the queue. -/
def InEvents (id : UInt64) : Prop :=
  ∃ e ∈ q.events, e.key = (id, .hrTimer)

/-- A small timer of the id is in the queue. -/
def InSmallTimers (id : UInt64) : Prop :=
  ∃ st ∈ q.smallTimers, st.event.ident = id

instance (id : UInt64) : Decidable (q.InEvents id) :=
  inferInstanceAs (Decidable (∃ e ∈ q.events, e.key = (id, .hrTimer)))

instance (id : UInt64) : Decidable (q.InSmallTimers id) :=
  inferInstanceAs (Decidable (∃ st ∈ q.smallTimers, st.event.ident = id))

end TimerQueue

/-- Everything else in the queue is as it was: the small timers of other ids, and the events of
other ids or filters. -/
structure Untouched (q q' : TimerQueue) (id : UInt64) : Prop where
  smallTimers : q'.smallTimers.filter (·.event.ident ≠ id) =
    q.smallTimers.filter (·.event.ident ≠ id)
  events : q'.events.filter (·.key ≠ (id, .hrTimer)) =
    q.events.filter (·.key ≠ (id, .hrTimer))

/-- What a call should do to the registry, and answer. -/
def Right (q : TimerQueue) : Call → Code × TimerQueue → Prop
  | .add id ts _ udata now, (code, q') => code = .ok ∧
      q'.pending (identOf id) =
        [(ts.bintime.nanoseconds, some (now + ts.bintime.nanoseconds), udata)] ∧
      Untouched q q' (identOf id)
  | .delete id, (code, q') => code = (if q.pending (identOf id) = [] then .enoent else .ok) ∧
      q'.pending (identOf id) = [] ∧ Untouched q q' (identOf id)

/-- The call meets its id only in the container it looks into, and an event of the id is already
due at the time the call asks for. -/
def Meets (q : TimerQueue) : Call → Prop
  | .add id ts _ _ now =>
    if ts.totalNs < hrTimerSpinlockThresholdNs then ¬ q.InEvents (identOf id)
    else ¬ q.InSmallTimers (identOf id) ∧ ∀ e ∈ q.events, e.key = (identOf id, .hrTimer) →
      e.timer = some (now + ts.bintime.nanoseconds)
  | .delete id => q.smallTimers = [] ∨ ¬ q.InEvents (identOf id)

instance (q : TimerQueue) : (call : Call) → Decidable (Meets q call)
  | .add id ts _ _ now =>
      inferInstanceAs (Decidable (if ts.totalNs < hrTimerSpinlockThresholdNs then
      ¬ q.InEvents (identOf id) else ¬ q.InSmallTimers (identOf id) ∧
        ∀ e ∈ q.events, e.key = (identOf id, .hrTimer) →
          e.timer = some (now + ts.bintime.nanoseconds)))
  | .delete id => inferInstanceAs (Decidable (q.smallTimers = [] ∨ ¬ q.InEvents (identOf id)))

/-- Every call of the run does what it should, and one timer for each id is pending after it. -/
def RightRun (q : TimerQueue) : List Call → Prop
  | [] => True
  | call :: calls => Right q call (q.step call) ∧ (q.step call).2.Unique ∧
      RightRun (q.step call).2 calls

def MeetsRun (q : TimerQueue) : List Call → Prop
  | [] => True
  | call :: calls => Meets q call ∧ MeetsRun (q.step call).2 calls

instance decidableMeetsRun (q : TimerQueue) : (calls : List Call) → Decidable (MeetsRun q calls)
  | [] => .isTrue trivial
  | call :: calls =>
    have := decidableMeetsRun (q.step call).2 calls
    inferInstanceAs (Decidable (Meets q call ∧ MeetsRun (q.step call).2 calls))

/-! ### The containers of one id -/

section Pending

variable {q : TimerQueue} {id : UInt64}

theorem filter_events_eq_nil : q.events.filter (·.key = (id, .hrTimer)) = [] ↔ ¬ q.InEvents id := by
  simp [TimerQueue.InEvents, List.filter_eq_nil_iff]

theorem filter_smallTimers_eq_nil :
    q.smallTimers.filter (·.event.ident = id) = [] ↔ ¬ q.InSmallTimers id := by
  simp [TimerQueue.InSmallTimers, List.filter_eq_nil_iff]

theorem pending_eq_nil_iff : q.pending id = [] ↔ ¬ q.InSmallTimers id ∧ ¬ q.InEvents id := by
  rw [TimerQueue.pending, List.append_eq_nil_iff, List.map_eq_nil_iff, List.map_eq_nil_iff,
    filter_smallTimers_eq_nil, filter_events_eq_nil]

/-- A timer of another id is what it was if the queue is untouched around the id. -/
theorem Untouched.pending_eq {q' : TimerQueue} {id' : UInt64} (h : Untouched q q' id)
    (hne : id' ≠ id) : q'.pending id' = q.pending id' := by
  have hsmall (l : List SmallTimer) : l.filter (·.event.ident = id') =
      (l.filter (·.event.ident ≠ id)).filter (·.event.ident = id') := by
    rw [List.filter_filter]
    congr 1
    funext st
    by_cases hst : st.event.ident = id' <;> simp [hst, hne]
  have hevents (l : List TimedEvent) : l.filter (·.key = (id', .hrTimer)) =
      (l.filter (·.key ≠ (id, .hrTimer))).filter (·.key = (id', .hrTimer)) := by
    rw [List.filter_filter]
    congr 1
    funext e
    by_cases he : e.key = (id', .hrTimer) <;> simp [he, hne]
  rw [TimerQueue.pending, TimerQueue.pending, hsmall, hevents, h.smallTimers, h.events, ← hsmall,
    ← hevents]

end Pending

/-! ### What the four operations do to them -/

section Operations

variable (q : TimerQueue) (event : OrbisKernelEvent) (time : OrbisKernelBintime) (now : ℕ)
  (id : UInt64)

theorem addSmallTimer_pending : ((q.addSmallTimer event time now).2.smallTimers.filter
      (·.event.ident = event.ident)) = [⟨event, now, time.nanoseconds⟩] ∧
    Untouched q (q.addSmallTimer event time now).2 event.ident := by
  refine ⟨?_, ?_, rfl⟩
  · simp [TimerQueue.addSmallTimer, List.filter_filter]
  · simp [TimerQueue.addSmallTimer, List.filter_filter]

theorem removeSmallTimer_pending :
    ((q.removeSmallTimer id).2.smallTimers.filter (·.event.ident = id)) = [] ∧
      (q.removeSmallTimer id).1 = decide (q.InSmallTimers id) ∧
        Untouched q (q.removeSmallTimer id).2 id := by
  unfold TimerQueue.removeSmallTimer
  split_ifs with hsome
  · refine ⟨?_, ?_, ?_, rfl⟩
    · simp [List.filter_filter]
    · rw [Bool.eq_iff_iff, List.any_eq_true, decide_eq_true_iff]
      simp [TimerQueue.InSmallTimers]
    · simp [List.filter_filter]
  · have hnil : q.smallTimers = [] := by simpa [TimerQueue.hasSmallTimer] using hsome
    refine ⟨by simp [hnil], by simp [TimerQueue.InSmallTimers, hnil], rfl, rfl⟩

/-- The update of an event that is already there. -/
def updated (e : TimedEvent) : TimedEvent :=
  if e.key = (event.ident, event.filter) then
    { e with
      timerInterval := time.nanoseconds
      event := { e.event with udata := event.udata } }
  else e

theorem key_updated (e : TimedEvent) : (updated event time e).key = e.key := by
  unfold updated
  split_ifs <;> rfl

/-- An event that is there gets the new interval and user data but keeps its asio timer, and a new
one is the only one of its id. -/
theorem addEvent_pending (hfilter : event.filter = .hrTimer) :
    (((q.addEvent event time now).2.events.filter (·.key = (event.ident, .hrTimer))).map
        fun e => (e.timerInterval, e.timer, e.event.udata)) =
      (if q.InEvents event.ident then
        (q.events.filter (·.key = (event.ident, .hrTimer))).map
          fun e => (time.nanoseconds, e.timer, event.udata)
      else [(time.nanoseconds, some (now + time.nanoseconds), event.udata)]) ∧
    Untouched q (q.addEvent event time now).2 event.ident := by
  by_cases hin : q.InEvents event.ident
  · have hevents : (q.addEvent event time now).2 =
        { q with events := q.events.map (updated event time) } := by
      have hany : q.events.any (fun e => decide (e.key = (event.ident, event.filter))) = true := by
        simpa [TimerQueue.InEvents, hfilter] using hin
      simp only [TimerQueue.addEvent, hany, if_true, decide_eq_true_eq]
      rfl
    refine ⟨?_, ?_⟩
    · rw [hevents, if_pos hin, List.filter_map, List.map_map]
      simp only [Function.comp_def, key_updated]
      apply List.map_congr_left
      intro e he
      have hkey : e.key = (event.ident, event.filter) := by
        simpa [hfilter] using (List.mem_filter.1 he).2
      simp [updated, hkey]
    · refine ⟨by rw [hevents], ?_⟩
      rw [hevents, List.filter_map]
      simp only [Function.comp_def, key_updated]
      nth_rewrite 2 [← List.map_id (q.events.filter _)]
      apply List.map_congr_left
      intro e he
      have hkey : ¬ e.key = (event.ident, event.filter) := by
        simpa [hfilter] using (List.mem_filter.1 he).2
      simp [updated, hkey]
  · have hnil := filter_events_eq_nil.2 hin
    have hany : q.events.any (fun e => decide (e.key = (event.ident, event.filter))) = false := by
      simpa [TimerQueue.InEvents, hfilter] using hin
    obtain ⟨new, hevents, hkey, hinterval, htimer, hudata⟩ : ∃ new : TimedEvent,
        (q.addEvent event time now).2 = { q with events := q.events ++ [new] } ∧
          new.key = (event.ident, event.filter) ∧ new.timerInterval = time.nanoseconds ∧
          new.timer = some (now + time.nanoseconds) ∧ new.event.udata = event.udata := by
      simp only [TimerQueue.addEvent, hany, Bool.false_eq_true, if_false]
      exact ⟨_, rfl, rfl, rfl, rfl, rfl⟩
    rw [hfilter] at hkey
    refine ⟨?_, by rw [hevents], ?_⟩
    · rw [hevents, List.filter_append, hnil, if_neg hin]
      simp [hkey, hinterval, htimer, hudata]
    · rw [hevents, List.filter_append]
      simp [hkey]

variable {α : Type*}

theorem filter_eraseP_self (p : α → Bool) (l : List α) :
    (l.eraseP p).filter p = (l.filter p).tail := by
  induction l with
  | nil => rfl
  | cons a l ih =>
    by_cases ha : p a = true
    · simp [ha]
    · simp [ha, ih]

theorem filter_eraseP_not (p : α → Bool) (l : List α) :
    (l.eraseP p).filter (fun a => !p a) = l.filter fun a => !p a := by
  induction l with
  | nil => rfl
  | cons a l ih =>
    by_cases ha : p a = true
    · simp [ha]
    · simp [ha, ih]

theorem removeEvent_pending :
    ((q.removeEvent id .hrTimer).2.events.filter (·.key = (id, .hrTimer))) =
        (q.events.filter (·.key = (id, .hrTimer))).tail ∧
      (q.removeEvent id .hrTimer).1 = decide (q.InEvents id) ∧
      Untouched q (q.removeEvent id .hrTimer).2 id := by
  refine ⟨filter_eraseP_self _ _, ?_, rfl, ?_⟩
  · rw [Bool.eq_iff_iff, decide_eq_true_iff]
    simp [TimerQueue.removeEvent, TimerQueue.InEvents]
  · have hnot := filter_eraseP_not (fun e : TimedEvent => decide (e.key = (id, .hrTimer))) q.events
    simpa [TimerQueue.removeEvent] using hnot

end Operations

/-! ### Calls and runs -/

section Steps

variable {q : TimerQueue}

/-- With one timer for each id, the event of an id is the only one of it, and no small timer has
the id. -/
theorem TimerQueue.Unique.events (h : q.Unique) {id : UInt64} (hin : q.InEvents id) :
    (∃ e, q.events.filter (·.key = (id, .hrTimer)) = [e]) ∧ ¬ q.InSmallTimers id := by
  have hlen := h id
  have hne := filter_events_eq_nil.not.2 (not_not.2 hin)
  rw [TimerQueue.pending, List.length_append, List.length_map, List.length_map] at hlen
  have hpos := List.length_pos_iff.2 hne
  have hone : (q.events.filter (·.key = (id, .hrTimer))).length = 1 := by omega
  refine ⟨List.length_eq_one_iff.1 hone, ?_⟩
  rw [← filter_smallTimers_eq_nil, ← List.length_eq_zero_iff]
  omega

theorem right_add_small (event : OrbisKernelEvent) (time : OrbisKernelBintime)
    (now : ℕ) : (q.addSmallTimer event time now).2.pending event.ident =
      [(time.nanoseconds, some (now + time.nanoseconds), event.udata)] ↔
        ¬ q.InEvents event.ident := by
  obtain ⟨hsmall, -⟩ := addSmallTimer_pending q event time now
  have hevents : (q.addSmallTimer event time now).2.events = q.events := rfl
  rw [TimerQueue.pending, hsmall, hevents]
  simp only [List.map_cons, List.map_nil, List.singleton_append, List.cons.injEq, true_and,
    List.map_eq_nil_iff, filter_events_eq_nil]

theorem right_add_large (h : q.Unique) {event : OrbisKernelEvent} (time : OrbisKernelBintime)
    (now : ℕ) (hfilter : event.filter = .hrTimer) :
    (q.addEvent event time now).2.pending event.ident =
        [(time.nanoseconds, some (now + time.nanoseconds), event.udata)] ↔
      ¬ q.InSmallTimers event.ident ∧ ∀ e ∈ q.events, e.key = (event.ident, .hrTimer) →
        e.timer = some (now + time.nanoseconds) := by
  obtain ⟨hevents, -⟩ := addEvent_pending q event time now hfilter
  have hsmall : (q.addEvent event time now).2.smallTimers = q.smallTimers := by
    unfold TimerQueue.addEvent
    dsimp only
    split <;> rfl
  rw [TimerQueue.pending, hevents, hsmall, ← filter_smallTimers_eq_nil]
  by_cases hin : q.InEvents event.ident
  · -- The only event of the id keeps its asio timer.
    obtain ⟨⟨e, he⟩, hnot⟩ := h.events hin
    have hmem (e' : TimedEvent) : e' ∈ q.events ∧ e'.key = (event.ident, .hrTimer) ↔ e' = e := by
      rw [← @List.mem_singleton _ e' e, ← he, List.mem_filter, decide_eq_true_iff]
    have htimer : (∀ e' ∈ q.events, e'.key = (event.ident, .hrTimer) →
        e'.timer = some (now + time.nanoseconds)) ↔ e.timer = some (now + time.nanoseconds) :=
      ⟨fun hall => hall e ((hmem e).2 rfl).1 ((hmem e).2 rfl).2,
        fun heq e' he' hkey => (hmem e').1 ⟨he', hkey⟩ ▸ heq⟩
    rw [if_pos hin, he, htimer, filter_smallTimers_eq_nil.2 hnot]
    simp
  · have hall : ∀ e ∈ q.events, e.key = (event.ident, .hrTimer) →
        e.timer = some (now + time.nanoseconds) := fun e he hkey => absurd ⟨e, he, hkey⟩ hin
    rw [if_neg hin, and_iff_left hall]
    simp

section Step

variable (q) (id : Int32) (ts : OrbisKernelTimespec) (address udata : UInt64) (now : ℕ)

theorem step_add_small (hsmall : ts.totalNs < hrTimerSpinlockThresholdNs) :
    q.step (.add id ts address udata now) =
      (.ok, (q.addSmallTimer (TimerQueue.hrTimerEvent id address udata) ts.bintime now).2) := by
  simp only [TimerQueue.step, TimerQueue.sceKernelAddHRTimerEvent, if_pos hsmall]
  rfl

theorem step_add_large (hlarge : ¬ ts.totalNs < hrTimerSpinlockThresholdNs) :
    q.step (.add id ts address udata now) =
      (.ok, (q.addEvent (TimerQueue.hrTimerEvent id address udata) ts.bintime now).2) := by
  have hadded : (q.addEvent (TimerQueue.hrTimerEvent id address udata) ts.bintime now).1 =
    true := by
    unfold TimerQueue.addEvent
    dsimp only
    split <;> rfl
  simp only [TimerQueue.step, TimerQueue.sceKernelAddHRTimerEvent, if_neg hlarge, hadded, if_true]

theorem step_delete_small (hsome : q.smallTimers ≠ []) : q.step (.delete id) =
    (if q.InSmallTimers (identOf id) then .ok else .enoent,
      (q.removeSmallTimer (identOf id)).2) := by
  have hhas : q.hasSmallTimer = true := by simpa [TimerQueue.hasSmallTimer] using hsome
  simp only [TimerQueue.step, TimerQueue.sceKernelDeleteHRTimerEvent, hhas, if_true,
    (removeSmallTimer_pending q (identOf id)).2.1, decide_eq_true_eq]

theorem step_delete_events (hnil : q.smallTimers = []) : q.step (.delete id) =
    (if q.InEvents (identOf id) then .ok else .enoent,
      (q.removeEvent (identOf id) .hrTimer).2) := by
  have hhas : q.hasSmallTimer = false := by simp [TimerQueue.hasSmallTimer, hnil]
  simp only [TimerQueue.step, TimerQueue.sceKernelDeleteHRTimerEvent, hhas, Bool.false_eq_true,
    if_false, (removeEvent_pending q (identOf id)).2.1, decide_eq_true_eq]

end Step

/-- A call does what it should exactly when it meets its id only where it looks. -/
theorem right_step_iff (h : q.Unique) (call : Call) : Right q call (q.step call) ↔
    Meets q call := by
  cases call with
  | add id ts address udata now =>
    by_cases hsmall : ts.totalNs < hrTimerSpinlockThresholdNs
    · have huntouched := (addSmallTimer_pending q (TimerQueue.hrTimerEvent id address udata)
        ts.bintime now).2
      rw [step_add_small q id ts address udata now hsmall, Meets, if_pos hsmall]
      exact ⟨fun hright => (right_add_small _ _ now).1 hright.2.1,
        fun hnot => ⟨rfl, (right_add_small _ _ now).2 hnot, huntouched⟩⟩
    · have huntouched := (addEvent_pending q (TimerQueue.hrTimerEvent id address udata)
        ts.bintime now rfl).2
      rw [step_add_large q id ts address udata now hsmall, Meets, if_neg hsmall]
      exact ⟨fun hright => (right_add_large h ts.bintime now rfl).1 hright.2.1,
        fun hmeets => ⟨rfl, (right_add_large h ts.bintime now rfl).2 hmeets, huntouched⟩⟩
  | delete id =>
    by_cases hnil : q.smallTimers = []
    · -- without small timers the timer is looked for among the events
      obtain ⟨hrest, -, huntouched⟩ := removeEvent_pending q (identOf id)
      have hnot : ¬ q.InSmallTimers (identOf id) := by simp [TimerQueue.InSmallTimers, hnil]
      have hpending : (q.removeEvent (identOf id) .hrTimer).2.pending (identOf id) = [] := by
        have hsmall : (q.removeEvent (identOf id) .hrTimer).2.smallTimers = q.smallTimers := rfl
        rw [TimerQueue.pending, hsmall, hnil, hrest]
        by_cases hin : q.InEvents (identOf id)
        · obtain ⟨⟨e, he⟩, -⟩ := h.events hin
          simp [he]
        · simp [filter_events_eq_nil.2 hin]
      rw [step_delete_events q id hnil, Meets]
      refine ⟨fun _ => .inl hnil, fun _ => ⟨?_, hpending, huntouched⟩⟩
      by_cases hin : q.InEvents (identOf id) <;> simp [pending_eq_nil_iff, hnot, hin]
    · -- with one, an event of the id is neither found nor removed
      obtain ⟨hrest, -, huntouched⟩ := removeSmallTimer_pending q (identOf id)
      have hevents : (q.removeSmallTimer (identOf id)).2.events = q.events := by
        unfold TimerQueue.removeSmallTimer
        split_ifs <;> rfl
      have hpending : (q.removeSmallTimer (identOf id)).2.pending (identOf id) = [] ↔
          ¬ q.InEvents (identOf id) := by
        rw [TimerQueue.pending, hrest, hevents]
        simp only [List.map_nil, List.nil_append, List.map_eq_nil_iff, filter_events_eq_nil]
      rw [step_delete_small q id hnil, Meets]
      refine ⟨fun hright => .inr (hpending.1 hright.2.1), fun hmeets => ?_⟩
      have hnot := hmeets.resolve_left hnil
      refine ⟨?_, hpending.2 hnot, huntouched⟩
      by_cases hin : q.InSmallTimers (identOf id) <;> simp [pending_eq_nil_iff, hnot, hin]

theorem Right.unique (h : q.Unique) {call : Call} {code : Code} {q' : TimerQueue}
    (hright : Right q call (code, q')) : q'.Unique := by
  intro id'
  cases call with
  | add id ts address udata now | delete id =>
    obtain ⟨-, hpending, huntouched⟩ := hright
    by_cases hid : id' = identOf id
    · rw [hid, hpending]
      simp
    · rw [huntouched.pending_eq hid]
      exact h id'

end Steps

/-- A run keeps one timer for each id and every call of it does what it should, exactly when each
call meets its id only in the container it looks into and adds no event again for another time. -/
theorem rightRun_iff (q : TimerQueue) (h : q.Unique) (calls : List Call) :
    RightRun q calls ↔ MeetsRun q calls := by
  induction calls generalizing q with
  | nil => exact Iff.rfl
  | cons call calls ih =>
    have hstep := right_step_iff h call
    constructor
    · rintro ⟨hright, hunique, hrest⟩
      exact ⟨hstep.1 hright, (ih _ hunique).1 hrest⟩
    · rintro ⟨hmeets, hrest⟩
      have hright := hstep.2 hmeets
      have hunique := Right.unique h hright
      exact ⟨hright, hunique, (ih _ hunique).2 hrest⟩

theorem unique_create : TimerQueue.create.Unique := fun _ => Nat.zero_le 1

/-- A timer of two milliseconds is deleted, and one of half a millisecond is added twice before it
is deleted. -/
theorem rightRun_twice : RightRun .create [.add 5 ⟨0, 2000000⟩ 0x1000 1 0, .delete 5,
    .add 5 ⟨0, 500000⟩ 0x1000 2 0, .add 5 ⟨0, 600000⟩ 0x1000 3 0, .delete 5] :=
  (rightRun_iff .create unique_create _).2 (by decide)

/-- A timer of two milliseconds is not replaced by one of half a millisecond, replaced by one of
five it is still due after two, and it cannot be deleted while another id has a small timer. -/
theorem not_rightRun_mixed :
    ((TimerQueue.create.step (.add 5 ⟨0, 2000000⟩ 0x1000 1 0)).2.step
        (.add 5 ⟨0, 500000⟩ 0x1000 2 0)).2.pending 5 =
          [(499999, some 499999, 2), (1999999, some 1999999, 1)] ∧
      ¬ RightRun .create [.add 5 ⟨0, 2000000⟩ 0x1000 1 0, .add 5 ⟨0, 500000⟩ 0x1000 2 0] ∧
      ((TimerQueue.create.step (.add 5 ⟨0, 2000000⟩ 0x1000 1 0)).2.step
        (.add 5 ⟨0, 5000000⟩ 0x1000 2 0)).2.pending 5 = [(4999999, some 1999999, 2)] ∧
      ¬ RightRun .create [.add 5 ⟨0, 2000000⟩ 0x1000 1 0, .add 5 ⟨0, 5000000⟩ 0x1000 2 0] ∧
      (((TimerQueue.create.step (.add 5 ⟨0, 2000000⟩ 0x1000 1 0)).2.step
        (.add 7 ⟨0, 500000⟩ 0x1000 2 0)).2.step (.delete 5)).1 = .enoent ∧
      ¬ RightRun .create [.add 5 ⟨0, 2000000⟩ 0x1000 1 0, .add 7 ⟨0, 500000⟩ 0x1000 2 0,
        .delete 5] := by
  refine ⟨by decide, ?_, by decide, ?_, by decide, ?_⟩
  · rintro ⟨-, -, ⟨-, hpending, -⟩, -⟩
    revert hpending
    decide
  · rintro ⟨-, -, ⟨-, hpending, -⟩, -⟩
    revert hpending
    decide
  · rintro ⟨-, -, -, -, ⟨hcode, -⟩, -⟩
    revert hcode
    decide

end HrTimers

end PS4Droid.Kernel
