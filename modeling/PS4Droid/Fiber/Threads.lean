import Mathlib.Data.List.Basic

/-!
# Threads that run fibers

`libraries/fiber/fiber.cpp` without attached contexts: `sceFiberRun`, `sceFiberSwitch`,
`sceFiberReturnToThread` and `sceFiberFinalize`, one step for each access to what threads share, and
`_sceFiberSwitchToFiber`, `_sceFiberSwitch`, `_sceFiberTerminate`. `_sceFiberSetJmp` saves where a
thread is, `_sceFiberLongJmp` goes on from there, and `_sceFiberSwitchEntry` stores `Idle` and calls
the entry. Entries do not return, and stacks do not overflow.
-/

namespace PS4Droid.Fiber

/-!
### The life of a fiber

What happens to one fiber, whatever threads it happens on: it is run from its entry or from a saved
continuation, it saves a continuation, and its state becomes idle or terminated. The newest event
stands first.
-/

section Lifecycle

variable {K : Type} [DecidableEq K]

inductive Event (K : Type) where
  /-- Control passes to the fiber: to a continuation, or to its entry. -/
  | ran (resumedAt : Option K)
  | stored (continuation : K)
  | idled
  | terminated

/-- Where a fiber is in its life. -/
inductive Phase (K : Type) where
  | idle (saved : Option K)
  | running
  | left (saved : K)
  | terminated

/-- A fiber with a stack of its own saves a continuation before it is idle again, and then goes on
from there; one without starts anew each time. -/
def Phase.next (hasStack : Bool) : Phase K → Event K → Option (Phase K)
  | .idle saved, .ran resumedAt => if resumedAt = saved then some .running else none
  | .idle _, .terminated => some .terminated
  | .running, .stored k => if hasStack then some (.left k) else none
  | .running, .idled => if hasStack then none else some (.idle none)
  | .left k, .idled => some (.idle (some k))
  | _, _ => none

/-- The phase after a list of events; `none` when they are not those of a fiber. -/
def lifecycle (hasStack : Bool) : List (Event K) → Option (Phase K)
  | [] => some (.idle none)
  | event :: older => (lifecycle hasStack older).bind (·.next hasStack event)

/-- The continuation that was stored last. -/
def lastStored : List (Event K) → Option K
  | [] => none
  | .stored k :: _ => some k
  | _ :: older => lastStored older

variable {hasStack : Bool} {events newer older : List (Event K)} {phase : Phase K} {event : Event K}

theorem lifecycle_cons (h : lifecycle hasStack (event :: older) = some phase) :
    ∃ before, lifecycle hasStack older = some before ∧ before.next hasStack event = some phase :=
  Option.bind_eq_some_iff.mp h

theorem lifecycle_append (h : lifecycle hasStack (newer ++ older) = some phase) :
    ∃ before, lifecycle hasStack older = some before := by
  induction newer generalizing phase with
  | nil => exact ⟨phase, h⟩
  | cons event newer ih =>
    obtain ⟨before, hbefore, -⟩ := lifecycle_cons h
    exact ih hbefore

theorem lastStored_eq_none (h : lifecycle false events = some phase) :
    lastStored events = none := by
  induction events generalizing phase with
  | nil => rfl
  | cons event older ih =>
    obtain ⟨before, hbefore, hnext⟩ := lifecycle_cons h
    cases event with
    | stored k =>
      cases before with
      | running => cases hnext
      | _ => cases hnext
    | _ => exact ih hbefore

/-- What a phase says of the last stored continuation. -/
def Phase.Saves (events : List (Event K)) : Phase K → Prop
  | .idle saved => lastStored events = saved
  | .left k => lastStored events = some k
  | _ => True

theorem saves_of_lifecycle (h : lifecycle hasStack events = some phase) : phase.Saves events := by
  induction events generalizing phase with
  | nil =>
    cases h
    rfl
  | cons event older ih =>
    obtain ⟨before, hbefore, hnext⟩ := lifecycle_cons h
    cases before with
    | idle saved =>
      cases event with
      | ran resumedAt =>
        rw [Phase.next] at hnext
        split at hnext
        · cases hnext
          trivial
        · cases hnext
      | terminated =>
        cases hnext
        trivial
      | _ => cases hnext
    | running =>
      cases event with
      | stored k =>
        rw [Phase.next] at hnext
        split at hnext
        · cases hnext
          rfl
        · cases hnext
      | idled =>
        rw [Phase.next] at hnext
        split at hnext
        · cases hnext
        · rename_i hstack
          cases hnext
          rw [Bool.eq_false_iff.mpr hstack] at hbefore
          have hnone : lastStored older = none := lastStored_eq_none hbefore
          exact hnone
      | _ => cases hnext
    | left k =>
      cases event with
      | idled =>
        cases hnext
        exact ih hbefore
      | _ => cases hnext
    | terminated => cases event <;> cases hnext

variable {resumedAt : Option K}

theorem ran_lastStored (h : lifecycle hasStack (newer ++ .ran resumedAt :: older) = some phase) :
    resumedAt = lastStored older := by
  obtain ⟨after, hafter⟩ := lifecycle_append h
  obtain ⟨before, hbefore, hnext⟩ := lifecycle_cons hafter
  cases before with
  | idle saved =>
    rw [Phase.next] at hnext
    split at hnext
    · rename_i heq
      exact heq.trans (saves_of_lifecycle hbefore).symm
    · cases hnext
  | _ => cases hnext

/-- A fiber with a stack becomes idle right after it has stored a continuation. -/
theorem idled_stored (h : lifecycle true (newer ++ .idled :: older) = some phase) :
    ∃ k rest, older = .stored k :: rest := by
  obtain ⟨after, hafter⟩ := lifecycle_append h
  obtain ⟨before, hbefore, hnext⟩ := lifecycle_cons hafter
  cases before with
  | left k =>
    cases older with
    | nil => cases hbefore
    | cons event rest =>
      obtain ⟨before', -, hleft⟩ := lifecycle_cons hbefore
      cases event with
      | stored k' => exact ⟨k', rest, rfl⟩
      | ran resumedAt =>
        cases before' with
        | idle saved =>
          rw [Phase.next] at hleft
          split at hleft <;> cases hleft
        | _ => cases hleft
      | idled | terminated => cases before' <;> cases hleft
  | _ => cases hnext

theorem phase_of_terminated (h : lifecycle hasStack events = some phase)
    (hmem : .terminated ∈ events) :
    phase = .terminated := by
  induction events generalizing phase with
  | nil => cases hmem
  | cons event older ih =>
    obtain ⟨before, hbefore, hnext⟩ := lifecycle_cons h
    rcases List.mem_cons.mp hmem with rfl | hmem
    · cases before <;> cases hnext
      rfl
    · rw [ih hbefore hmem] at hnext
      cases event <;> cases hnext

theorem ran_not_terminated
    (h : lifecycle hasStack (newer ++ .ran resumedAt :: older) = some phase) :
    .terminated ∉ older := by
  intro hmem
  obtain ⟨after, hafter⟩ := lifecycle_append h
  obtain ⟨before, hbefore, hnext⟩ := lifecycle_cons hafter
  rw [phase_of_terminated hbefore hmem] at hnext
  cases hnext

end Lifecycle

/-! ### The threads -/

inductive FiberState
  | run
  | idle
  | terminated
  deriving DecidableEq

/-- Whose code a thread executes. -/
inductive Code
  | thread
  | fiber (fiber : ℕ)
  deriving DecidableEq

/-- What `_sceFiberSetJmp` saves in a context: the code, and which of all saves it is. -/
structure Continuation where
  code : Code
  save : ℕ
  deriving DecidableEq

/-- The fields of `OrbisFiber` that initialisation fixes. Pointers are addresses, and `0` is
null. -/
structure FiberInfo where
  magicStart : UInt32
  magicEnd : UInt32
  entry : ℕ
  argOnInitialize : UInt64
  addrContext : ℕ
  sizeContext : ℕ

def fiberSignature0 : UInt32 := 0xdef1649c
def fiberSignature1 : UInt32 := 0xb37592a0

/-- `OrbisFiberData`. -/
structure FiberData where
  entry : ℕ
  argOnInitialize : UInt64
  argOnRunTo : UInt64
  stackAddr : ℕ
  /-- The fiber whose state the new stack makes idle. -/
  state : Option ℕ

/-- `OrbisFiberContext`. -/
structure FiberContext where
  rsp : ℕ
  currentFiber : Option ℕ
  prevFiber : Option ℕ
  argOnRunTo : UInt64
  argOnReturn : UInt64

inductive FiberError
  | null
  | alignment
  | invalid
  | permission
  | state
  deriving DecidableEq

/-- Where a thread is. -/
inductive Place
  /-- In the code of a game, its own or that of a fiber. -/
  | guest
  /-- `sceFiberRunImpl`: before the exchange of the state, after it, and with a context. -/
  | runClaim (fiber : ℕ) (arg : UInt64)
  | runClaimed (fiber : ℕ) (arg : UInt64)
  | runSaved (fiber : ℕ) (arg : UInt64)
  | switchToFiber (fiber : ℕ) (arg : UInt64)
  | switchEntry (fiber : ℕ) (data : FiberData)
  | longJmp (k : Continuation)
  /-- After `_sceFiberSetJmp` has returned for the second time in the code of a fiber. -/
  | resumed
  | resumedIdle
  /-- `sceFiberSwitchImpl`: before the exchange of the state, and after it. -/
  | switchClaim (fiber : ℕ) (arg : UInt64)
  | switchClaimed (fiber : ℕ) (arg : UInt64)
  /-- `_sceFiberSwitch`. -/
  | switch (curFiber fiber : ℕ) (arg : UInt64)
  /-- `sceFiberReturnToThread`, and `_sceFiberTerminate`. -/
  | returnToThread (arg : UInt64)
  | terminate (arg : UInt64)
  /-- `sceFiberRunImpl` after `_sceFiberSetJmp` has returned for the second time. -/
  | runReturned
  | runIdle (curFiber : ℕ)
  | runDone
  | finalize (fiber : ℕ)

structure Thread where
  /-- The context that `tcb_fiber` points to. -/
  tcbFiber : Option FiberContext
  code : Code
  place : Place
  /-- What the last call returned, with the argument passed on. -/
  result : Except FiberError UInt64

def Thread.start : Thread where
  tcbFiber := none
  code := .thread
  place := .guest
  result := .ok 0

structure State where
  /-- `fiber->state` and `fiber->context`. -/
  fiberState : ℕ → FiberState
  context : ℕ → Option Continuation
  threads : ℕ → Thread
  saves : ℕ
  /-- What has happened to each fiber; no step reads it. -/
  log : ℕ → List (Event Continuation)

/-- The calls of a game. -/
inductive Call
  | run (fiber : ℕ) (argOnRunTo : UInt64)
  | switch (fiber : ℕ) (argOnRunTo : UInt64)
  | returnToThread (argOnReturn : UInt64)
  | finalize (fiber : ℕ)

section Calls

variable (info : ℕ → FiberInfo)

/-- The checks of the argument. -/
def checkFiber (fiber : ℕ) : Option FiberError :=
  if fiber = 0 then
    some .null
  else if fiber % 8 ≠ 0 then
    some .alignment
  else if (info fiber).magicStart ≠ fiberSignature0 ∨ (info fiber).magicEnd ≠ fiberSignature1 then
    some .invalid
  else
    none

namespace Thread

/-- A call returns. -/
def returns (th : Thread) (result : Except FiberError UInt64) : Thread :=
  { th with place := .guest, result }

/-- The part of a call in front of its first access to what threads share. -/
def enter (th : Thread) : Call → Thread
  | .run fiber arg =>
    match checkFiber info fiber with
    | some error => th.returns (.error error)
    | none =>
      if th.tcbFiber.isSome then th.returns (.error .permission)
        else { th with place := .runClaim fiber arg }
  | .switch fiber arg =>
    match checkFiber info fiber with
    | some error => th.returns (.error error)
    | none =>
      if th.tcbFiber.isSome then { th with place := .switchClaim fiber arg }
      else th.returns (.error .permission)
  | .returnToThread arg =>
    if th.tcbFiber.isSome then { th with place := .returnToThread arg }
      else th.returns (.error .permission)
  | .finalize fiber =>
    match checkFiber info fiber with
    | some error => th.returns (.error error)
    | none => { th with place := .finalize fiber }

end Thread

/-- The data for the entry of a fiber that starts on the stack at `stackAddr`. -/
def dataFor (fiber : ℕ) (arg : UInt64) (stackAddr : ℕ) (state : Option ℕ) : FiberData where
  entry := (info fiber).entry
  argOnInitialize := (info fiber).argOnInitialize
  argOnRunTo := arg
  stackAddr := stackAddr
  state := state

end Calls

namespace State

variable (s : State) (t : ℕ)

/-- Thread `t` goes on as `th`. -/
def go (th : Thread) : State := { s with threads := Function.update s.threads t th }

def record (fiber : ℕ) (event : Event Continuation) : State :=
  { s with log := Function.update s.log fiber (event :: s.log fiber) }

def setFiberState (fiber : ℕ) (state : FiberState) : State :=
  { s with fiberState := Function.update s.fiberState fiber state }

/-- `fiber->state = FiberState::Idle`. -/
def setIdle (fiber : ℕ) : State := (s.setFiberState fiber .idle).record fiber .idled

def setIdle? : Option ℕ → State
  | some fiber => s.setIdle fiber
  | none => s

/-- `_sceFiberSetJmp(&ctx)` in the code of a fiber, and `cur_fiber->context = &ctx`. -/
def saveContext (fiber : ℕ) : State :=
  let k : Continuation := ⟨(s.threads t).code, s.saves⟩
  { s.record fiber (.stored k) with
    context := Function.update s.context fiber (some k), saves := s.saves + 1 }

/-- The exchange of `Idle` for `state`: on success the thread goes on at `place`. -/
def claim (fiber : ℕ) (state : FiberState) (place : Place) : State :=
  let th := s.threads t
  if s.fiberState fiber = .idle then
    (s.setFiberState fiber state).go t { th with place }
  else
    s.go t (th.returns (.error .state))

end State

/-- Steps of a thread that has a context. -/
def stepContext (info : ℕ → FiberInfo) (s : State) (t : ℕ) (ctx : FiberContext) : State :=
  let th := s.threads t
  match th.place, ctx.currentFiber with
  | .runSaved fiber arg, _ =>
    if (info fiber).addrContext ≠ 0 then
      s.go t { th with place := .switchToFiber fiber arg }
    else
      s.go t
        { th with place := .switchEntry fiber (dataFor info fiber arg (ctx.rsp / 16 * 16) none) }
  | .switchToFiber fiber arg, _ =>
    match s.context fiber with
    | some k => s.go t
        { th with tcbFiber := some { ctx with argOnRunTo := arg }, place := .longJmp k }
    | none =>
      let stackAddr := (info fiber).addrContext + (info fiber).sizeContext
      let data := dataFor info fiber arg stackAddr ctx.prevFiber
      s.go t
        { th with tcbFiber := some { ctx with prevFiber := none }
                  place := .switchEntry fiber data }
  | .switchEntry fiber data, _ =>
    ((s.setIdle? data.state).record fiber (.ran none)).go t
      { th with code := .fiber fiber, place := .guest }
  | .longJmp k, some fiber =>
    (s.record fiber (.ran (some k))).go t { th with code := k.code, place := .resumed }
  | .resumed, _ =>
    match ctx.prevFiber with
    | some prevFiber => (s.setIdle prevFiber).go t { th with place := .resumedIdle }
    | none => s.go t (th.returns (.ok ctx.argOnRunTo))
  | .resumedIdle, _ =>
    s.go t
      ({ th with tcbFiber := some { ctx with prevFiber := none } }.returns (.ok ctx.argOnRunTo))
  | .switchClaimed fiber arg, some curFiber =>
    if (info curFiber).addrContext = 0 then
      s.go t { th with place := .switch curFiber fiber arg }
    else
      (s.saveContext t curFiber).go t { th with place := .switch curFiber fiber arg }
  | .switch curFiber fiber arg, _ =>
    if (info fiber).addrContext = 0 then
      let data := dataFor info fiber arg (ctx.rsp / 16 * 16) (some curFiber)
      s.go t { th with
        tcbFiber := some { ctx with currentFiber := some fiber, prevFiber := none }
        place := .switchEntry fiber data }
    else
      s.go t { th with
        tcbFiber := some { ctx with currentFiber := some fiber, prevFiber := some curFiber }
        place := .switchToFiber fiber arg }
  | .returnToThread arg, some curFiber =>
    if (info curFiber).addrContext = 0 then
      s.go t { th with place := .terminate arg }
    else
      (s.saveContext t curFiber).go t { th with place := .terminate arg }
  | .terminate arg, _ =>
    s.go t
      { th with
        tcbFiber := some { ctx with argOnReturn := arg }, code := .thread, place := .runReturned }
  | .runReturned, some curFiber =>
    s.go t
      { th with tcbFiber := some { ctx with currentFiber := none }, place := .runIdle curFiber }
  | .runIdle curFiber, _ => (s.setIdle curFiber).go t { th with place := .runDone }
  | .runDone, _ => s.go t ({ th with tcbFiber := none }.returns (.ok ctx.argOnReturn))
  | _, _ => s

/-- One step of thread `t`; the call is the one it makes when it is in the code of the game, and
`rsp` its stack pointer. -/
def step (info : ℕ → FiberInfo) (s : State) (t : ℕ) (call : Call) (rsp : ℕ) : State :=
  let th := s.threads t
  match th.place with
  | .guest => s.go t (th.enter info call)
  | .runClaim fiber arg => s.claim t fiber .run (.runClaimed fiber arg)
  | .runClaimed fiber arg =>
    s.go t { th with tcbFiber := some ⟨rsp, some fiber, none, 0, 0⟩, place := .runSaved fiber arg }
  | .switchClaim fiber arg => s.claim t fiber .run (.switchClaimed fiber arg)
  | .finalize fiber =>
    if s.fiberState fiber = .idle then
      ((s.setFiberState fiber .terminated).record fiber .terminated).go t (th.returns (.ok 0))
    else
      s.go t (th.returns (.error .state))
  | _ =>
    match th.tcbFiber with
    | some ctx => stepContext info s t ctx
    | none => s

def Initialised (info : ℕ → FiberInfo) (fiber : ℕ) : Prop := checkFiber info fiber = none

/-- All threads are outside of fibers, and the initialised fibers were not yet run. -/
structure IsInitial (info : ℕ → FiberInfo) (s : State) : Prop where
  threads : ∀ t, s.threads t = .start
  fibers : ∀ fiber, Initialised info fiber →
    s.fiberState fiber = .idle ∧ s.context fiber = none ∧ s.log fiber = []

inductive Reachable (info : ℕ → FiberInfo) : State → Prop
  | start {s : State} : IsInitial info s → Reachable info s
  | step {s : State} (t : ℕ) (call : Call) (rsp : ℕ) : Reachable info s →
      Reachable info (step info s t call rsp)

end PS4Droid.Fiber
