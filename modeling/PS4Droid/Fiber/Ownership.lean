import PS4Droid.Fiber.Threads

/-!
# A fiber runs on at most one thread

A fiber whose state is `Run` belongs to one thread: it is the current fiber of the thread's context,
or the thread has claimed it and not made it current yet, or the thread is leaving it.
-/

namespace PS4Droid.Fiber

/-! ## What a fiber is to its thread -/

inductive Stage
  | entering
  | running
  | leaving
  deriving DecidableEq

def holding (fiber : Option ℕ) (stage : Stage) (others : ℕ → Option Stage) : ℕ → Option Stage :=
  match fiber with
  | some fiber => Function.update others fiber (some stage)
  | none => others

def holdingNone : ℕ → Option Stage := fun _ => none

@[simp] theorem holdingNone_apply (f : ℕ) : holdingNone f = none := rfl

@[simp] theorem holding_none (stage : Stage) (others : ℕ → Option Stage) :
    holding none stage others = others :=
  rfl

@[simp] theorem holding_some_apply (fiber f : ℕ) (stage : Stage) (others : ℕ → Option Stage) :
    holding (some fiber) stage others f = if f = fiber then some stage else others f :=
  Function.update_apply _ _ _ _

namespace Thread

def currentFiber (th : Thread) : Option ℕ := th.tcbFiber.bind (·.currentFiber)

def prevFiber (th : Thread) : Option ℕ := th.tcbFiber.bind (·.prevFiber)

/-- What each fiber is to a thread. -/
def stage (th : Thread) : ℕ → Option Stage :=
  match th.place with
  | .guest | .runClaim _ _ | .switchClaim _ _ | .finalize _ | .returnToThread _ | .resumedIdle =>
    holding th.currentFiber .running holdingNone
  | .runClaimed fiber _ => holding (some fiber) .entering holdingNone
  | .runSaved _ _ => holding th.currentFiber .entering holdingNone
  | .switchToFiber _ _ | .longJmp _ =>
    holding th.currentFiber .entering (holding th.prevFiber .leaving holdingNone)
  | .switchEntry _ data =>
      holding th.currentFiber .entering (holding data.state .leaving holdingNone)
  | .resumed => holding th.currentFiber .running (holding th.prevFiber .leaving holdingNone)
  | .switchClaimed fiber _ =>
      holding (some fiber) .entering (holding th.currentFiber .running holdingNone)
  | .switch curFiber fiber _ =>
      holding (some fiber) .entering (holding (some curFiber) .leaving holdingNone)
  | .terminate _ | .runReturned => holding th.currentFiber .leaving holdingNone
  | .runIdle curFiber => holding (some curFiber) .leaving holdingNone
  | .runDone => holdingNone

end Thread

/-! ## What a thread knows -/

/-- A thread outside of fibers. -/
def Outside (th : Thread) : Prop := th.tcbFiber = none ∧ th.code = .thread

/-- A thread in the code of its current fiber. -/
def Inside (th : Thread) (fiber : ℕ) : Prop :=
  ∃ ctx, th.tcbFiber = some ctx ∧ ctx.currentFiber = some fiber ∧ ctx.prevFiber = none ∧
    th.code = .fiber fiber

/-- On the way to a fiber, from the code of the thread or of another fiber. -/
def ComesFrom (code : Code) (fiber : ℕ) : Option ℕ → Prop
  | none => code = .thread
  | some prevFiber => code = .fiber prevFiber ∧ prevFiber ≠ fiber

/-- The fields of a thread agree with its place. -/
def Valid (info : ℕ → FiberInfo) (context : ℕ → Option Continuation) (th : Thread) : Prop :=
  match th.place with
  | .guest | .finalize _ => Outside th ∨ ∃ fiber, Inside th fiber
  | .runClaim fiber _ | .runClaimed fiber _ => Outside th ∧ Initialised info fiber
  | .runSaved fiber _ => ∃ ctx, th.tcbFiber = some ctx ∧ ctx.currentFiber = some fiber ∧
      ctx.prevFiber = none ∧ th.code = .thread
  | .switchToFiber fiber _ => ∃ ctx, th.tcbFiber = some ctx ∧ ctx.currentFiber = some fiber ∧
      ComesFrom th.code fiber ctx.prevFiber
  | .longJmp k => ∃ ctx fiber, th.tcbFiber = some ctx ∧ ctx.currentFiber = some fiber ∧
      ComesFrom th.code fiber ctx.prevFiber ∧ context fiber = some k
  | .switchEntry fiber data => ∃ ctx, th.tcbFiber = some ctx ∧ ctx.currentFiber = some fiber ∧
      ctx.prevFiber = none ∧ ComesFrom th.code fiber data.state ∧ context fiber = none
  | .resumed => ∃ ctx fiber, th.tcbFiber = some ctx ∧ ctx.currentFiber = some fiber ∧
      th.code = .fiber fiber ∧ ctx.prevFiber ≠ some fiber
  | .resumedIdle => ∃ ctx fiber, th.tcbFiber = some ctx ∧ ctx.currentFiber = some fiber ∧
      th.code = .fiber fiber
  | .switchClaim fiber _ => Initialised info fiber ∧ ∃ curFiber, Inside th curFiber
  | .switchClaimed fiber _ => ∃ curFiber, Inside th curFiber ∧ curFiber ≠ fiber
  | .switch curFiber fiber _ => Inside th curFiber ∧ curFiber ≠ fiber
  | .returnToThread _ | .terminate _ => ∃ fiber, Inside th fiber
  | .runReturned => ∃ ctx fiber, th.tcbFiber = some ctx ∧ ctx.currentFiber = some fiber ∧
      ctx.prevFiber = none ∧ th.code = .thread
  | .runIdle _ | .runDone => ∃ ctx, th.tcbFiber = some ctx ∧ ctx.currentFiber = none ∧
      ctx.prevFiber = none ∧ th.code = .thread

/-! ## What a fiber has been through -/

def hasStack (info : ℕ → FiberInfo) (fiber : ℕ) : Bool := (info fiber).addrContext != 0

/-- The state, the context and the log of a fiber at its stage. -/
def Lives (stack : Bool) (state : FiberState) (context : Option Continuation)
    (log : List (Event Continuation)) :
    Option Stage → Prop
  | some .entering => state = .run ∧ lifecycle stack log = some (.idle context)
  | some .running => state = .run ∧ lifecycle stack log = some .running
  | some .leaving => state = .run ∧
      (stack = true ∧ (∃ k, context = some k ∧ lifecycle stack log = some (.left k)) ∨
        stack = false ∧ lifecycle stack log = some .running)
  | none => state = .idle ∧ lifecycle stack log = some (.idle context) ∨
      state = .terminated ∧ lifecycle stack log = some .terminated

structure Fits (stack : Bool) (fiber : ℕ) (state : FiberState) (context : Option Continuation)
    (log : List (Event Continuation)) (stage : Option Stage) : Prop where
  stackless : stack = false → context = none
  continues : ∀ k, context = some k → k.code = .fiber fiber
  lives : Lives stack state context log stage

namespace Fits

variable {stack : Bool} {fiber : ℕ} {state : FiberState} {context : Option Continuation}
  {log : List (Event Continuation)} {stage : Stage}

theorem state_eq_run (h : Fits stack fiber state context log (some stage)) : state = .run := by
  cases stage <;> exact h.lives.1

theorem claim (h : Fits stack fiber .idle context log none) :
    Fits stack fiber .run context log (some .entering) where
  stackless := h.stackless
  continues := h.continues
  lives := by
    rcases h.lives with ⟨-, hlife⟩ | ⟨hstate, -⟩
    · exact ⟨rfl, hlife⟩
    · cases hstate

theorem finalize (h : Fits stack fiber .idle context log none) :
    Fits stack fiber .terminated context (.terminated :: log) none where
  stackless := h.stackless
  continues := h.continues
  lives := by
    rcases h.lives with ⟨-, hlife⟩ | ⟨hstate, -⟩
    · exact .inr ⟨rfl, by rw [lifecycle, hlife]; rfl⟩
    · cases hstate

theorem run (h : Fits stack fiber state context log (some .entering)) :
    Fits stack fiber state context (.ran context :: log) (some .running) where
  stackless := h.stackless
  continues := h.continues
  lives := ⟨h.lives.1, by rw [lifecycle, h.lives.2]; exact if_pos rfl⟩

theorem save (h : Fits true fiber state context log (some .running)) {k : Continuation}
    (hcode : k.code = .fiber fiber) :
    Fits true fiber state (some k) (.stored k :: log) (some .leaving) where
  stackless := nofun
  continues := by
    rintro k' ⟨⟩
    exact hcode
  lives := ⟨h.lives.1, .inl ⟨rfl, k, rfl, by rw [lifecycle, h.lives.2]; rfl⟩⟩

theorem leave (h : Fits false fiber state context log (some .running)) :
    Fits false fiber state context log (some .leaving) where
  stackless := h.stackless
  continues := h.continues
  lives := ⟨h.lives.1, .inr ⟨rfl, h.lives.2⟩⟩

theorem idle (h : Fits stack fiber state context log (some .leaving)) :
    Fits stack fiber .idle context (.idled :: log) none where
  stackless := h.stackless
  continues := h.continues
  lives := by
    obtain ⟨-, ⟨rfl, k, rfl, hlife⟩ | ⟨rfl, hlife⟩⟩ := h.lives
    · exact .inl ⟨rfl, by rw [lifecycle, hlife]; rfl⟩
    · rw [h.stackless rfl]
      exact .inl ⟨rfl, by rw [lifecycle, hlife]; rfl⟩

end Fits

def FiberFits (info : ℕ → FiberInfo) (s : State) (fiber : ℕ) (stage : Option Stage) : Prop :=
  Fits (hasStack info fiber) fiber (s.fiberState fiber) (s.context fiber) (s.log fiber) stage

/-- A step leaves a fiber as it was. -/
structure Untouched (s s' : State) (fiber : ℕ) : Prop where
  fiberState : s'.fiberState fiber = s.fiberState fiber
  context : s'.context fiber = s.context fiber
  log : s'.log fiber = s.log fiber

section Touch

variable {info : ℕ → FiberInfo} {s s' : State} {t fiber fiber' : ℕ}

theorem Untouched.fits (h : Untouched s s' fiber) {stage : Option Stage}
    (hfits : FiberFits info s fiber stage) :
    FiberFits info s' fiber stage := by
  rwa [FiberFits, h.fiberState, h.context, h.log]

theorem untouched_setFiberState {state : FiberState} (hne : fiber' ≠ fiber) :
    Untouched s (s.setFiberState fiber state) fiber' :=
  ⟨Function.update_of_ne hne _ _, rfl, rfl⟩

theorem untouched_record {event : Event Continuation} (hne : fiber' ≠ fiber) :
    Untouched s (s.record fiber event) fiber' :=
  ⟨rfl, rfl, Function.update_of_ne hne _ _⟩

theorem untouched_setIdle (hne : fiber' ≠ fiber) : Untouched s (s.setIdle fiber) fiber' :=
  ⟨Function.update_of_ne hne _ _, rfl, Function.update_of_ne hne _ _⟩

theorem untouched_saveContext (hne : fiber' ≠ fiber) : Untouched s (s.saveContext t fiber) fiber' :=
  ⟨rfl, Function.update_of_ne hne _ _, Function.update_of_ne hne _ _⟩

theorem FiberFits.claim (h : FiberFits info s fiber none) (hidle : s.fiberState fiber = .idle) :
    FiberFits info (s.setFiberState fiber .run) fiber (some .entering) := by
  rw [FiberFits, hidle] at h
  simp only [FiberFits, State.setFiberState, Function.update_self]
  exact h.claim

theorem FiberFits.finalize (h : FiberFits info s fiber none) (hidle : s.fiberState fiber = .idle) :
    FiberFits info ((s.setFiberState fiber .terminated).record fiber .terminated) fiber none := by
  rw [FiberFits, hidle] at h
  simp only [FiberFits, State.record, State.setFiberState, Function.update_self]
  exact h.finalize

theorem FiberFits.ran (h : FiberFits info s fiber (some .entering)) {context : Option Continuation}
    (hcontext : s.context fiber = context) :
    FiberFits info (s.record fiber (.ran context)) fiber (some .running) := by
  simp only [FiberFits, State.record, Function.update_self]
  exact hcontext ▸ Fits.run h

theorem FiberFits.setIdle (h : FiberFits info s fiber (some .leaving)) :
    FiberFits info (s.setIdle fiber) fiber none := by
  simp only [FiberFits, State.setIdle, State.record, State.setFiberState, Function.update_self]
  exact Fits.idle h

theorem FiberFits.saveContext (h : FiberFits info s fiber (some .running))
    (hstack : (info fiber).addrContext ≠ 0) (hcode : (s.threads t).code = .fiber fiber) :
    FiberFits info (s.saveContext t fiber) fiber (some .leaving) := by
  have hstack : hasStack info fiber = true := bne_iff_ne.mpr hstack
  rw [FiberFits, hstack] at h
  simp only [FiberFits, hstack, State.saveContext, State.record, Function.update_self]
  exact h.save hcode

theorem FiberFits.leave (h : FiberFits info s fiber (some .running))
    (hstack : (info fiber).addrContext = 0) :
    FiberFits info s fiber (some .leaving) := by
  have hstack : hasStack info fiber = false := by rw [hasStack, hstack]; rfl
  rw [FiberFits, hstack] at h ⊢
  exact h.leave

theorem FiberFits.context_eq_none {stage : Option Stage} (h : FiberFits info s fiber stage)
    (hstack : (info fiber).addrContext = 0) : s.context fiber = none :=
  h.stackless (by rw [hasStack, hstack]; rfl)

end Touch

/-! ## The invariant -/

structure Inv (info : ℕ → FiberInfo) (s : State) : Prop where
  valid : ∀ t, Valid info s.context (s.threads t)
  initialised : ∀ t fiber, (s.threads t).stage fiber ≠ none → Initialised info fiber
  alone : ∀ t t' fiber, (s.threads t).stage fiber ≠ none → (s.threads t').stage fiber ≠ none →
    t = t'
  held : ∀ t fiber stage, (s.threads t).stage fiber = some stage →
    FiberFits info s fiber (some stage)
  free : ∀ fiber, Initialised info fiber → (∀ t, (s.threads t).stage fiber = none) →
    FiberFits info s fiber none

section Inv

variable {info : ℕ → FiberInfo} {s s' : State} {t : ℕ} {th th' : Thread} {fiber : ℕ}

theorem Inv.valid_of (h : Inv info s) (hth : s.threads t = th) : Valid info s.context th :=
  hth ▸ h.valid t

theorem inv_of_isInitial (h : IsInitial info s) : Inv info s := by
  have hstage (t fiber : ℕ) : (s.threads t).stage fiber = none := by
    rw [h.threads]
    rfl
  refine ⟨?_, ?_, ?_, ?_, ?_⟩
  · intro t
    rw [h.threads]
    exact .inl ⟨rfl, rfl⟩
  · exact fun t fiber hheld => absurd (hstage t fiber) hheld
  · exact fun t t' fiber hheld => absurd (hstage t fiber) hheld
  · intro t fiber stage hheld
    rw [hstage] at hheld
    cases hheld
  · intro fiber hfiber _
    obtain ⟨hstate, hcontext, hlog⟩ := h.fibers fiber hfiber
    rw [FiberFits, hstate, hcontext, hlog]
    exact ⟨fun _ => rfl, nofun, .inl ⟨rfl, rfl⟩⟩

theorem Inv.alone_of_stage (h : Inv info s) (hheld : (s.threads t).stage fiber ≠ none) {t' : ℕ}
    (hne : t' ≠ t) :
    (s.threads t').stage fiber = none := by
  by_contra hheld'
  exact hne (h.alone t' t fiber hheld' hheld)

theorem Inv.free_of_idle (h : Inv info s) (hidle : s.fiberState fiber = .idle) (t : ℕ) :
    (s.threads t).stage fiber = none := by
  cases hheld : (s.threads t).stage fiber with
  | none => rfl
  | some stage => cases hidle.symm.trans (h.held t fiber stage hheld).state_eq_run

/-- Another thread keeps what it knows as long as its fibers are left alone. -/
theorem Valid.mono {context context' : ℕ → Option Continuation} (h : Valid info context th)
    (hcontext : ∀ fiber, th.stage fiber ≠ none → context' fiber = context fiber) :
    Valid info context' th := by
  obtain ⟨tcbFiber, code, place, result⟩ := th
  cases place with
  | longJmp k =>
    obtain ⟨ctx, fiber, rfl, hcurrent, hfrom, hk⟩ := h
    refine ⟨ctx, fiber, rfl, hcurrent, hfrom, (hcontext fiber ?_).trans hk⟩
    simp [Thread.stage, Thread.currentFiber, hcurrent]
  | switchEntry fiber data =>
    obtain ⟨ctx, rfl, hcurrent, hprev, hfrom, hnone⟩ := h
    refine ⟨ctx, rfl, hcurrent, hprev, hfrom, (hcontext fiber ?_).trans hnone⟩
    simp [Thread.stage, Thread.currentFiber, hcurrent]
  | _ => exact h

/-- Thread `t` moves on; each fiber is left as it was, or is touched by no other thread. -/
theorem Inv.move (h : Inv info s) (hthreads : s'.threads = s.threads)
    (hvalid : Valid info s'.context th')
    (hinitialised : ∀ fiber, th'.stage fiber ≠ none → Initialised info fiber)
    (hfibers : ∀ fiber, Initialised info fiber →
      (th'.stage fiber = (s.threads t).stage fiber ∧ Untouched s s' fiber) ∨
      (∀ t', t' ≠ t → (s.threads t').stage fiber = none) ∧
        FiberFits info s' fiber (th'.stage fiber)) :
    Inv info (s'.go t th') := by
  have hself : (s'.go t th').threads t = th' := Function.update_self ..
  have hother {t' : ℕ} (hne : t' ≠ t) : (s'.go t th').threads t' = s.threads t' := by
    rw [State.go, hthreads]
    exact Function.update_of_ne hne _ _
  -- A fiber of another thread is left as it was.
  have hleft {t' fiber : ℕ} (hne : t' ≠ t) (hheld : (s.threads t').stage fiber ≠ none) :
      th'.stage fiber = (s.threads t).stage fiber ∧ Untouched s s' fiber := by
    rcases hfibers fiber (h.initialised t' fiber hheld) with hsame | ⟨halone, -⟩
    · exact hsame
    · exact absurd (halone t' hne) hheld
  refine ⟨?_, ?_, ?_, ?_, ?_⟩
  · intro t'
    by_cases hne : t' = t
    · rwa [hne, hself]
    · rw [hother hne]
      exact (h.valid t').mono fun fiber hheld => (hleft hne hheld).2.context
  · intro t' fiber hheld
    by_cases hne : t' = t
    · rw [hne, hself] at hheld
      exact hinitialised fiber hheld
    · rw [hother hne] at hheld
      exact h.initialised t' fiber hheld
  · have hmixed {t' fiber : ℕ} (hne : t' ≠ t) (hheld : th'.stage fiber ≠ none) :
        (s.threads t').stage fiber = none := by
      by_contra hheld'
      rw [(hleft hne hheld').1] at hheld
      exact hne (h.alone t' t fiber hheld' hheld)
    intro t₁ t₂ fiber h₁ h₂
    by_cases hne₁ : t₁ = t <;> by_cases hne₂ : t₂ = t
    · exact hne₁.trans hne₂.symm
    · rw [hne₁, hself] at h₁
      rw [hother hne₂] at h₂
      exact absurd (hmixed hne₂ h₁) h₂
    · rw [hne₂, hself] at h₂
      rw [hother hne₁] at h₁
      exact absurd (hmixed hne₁ h₂) h₁
    · rw [hother hne₁] at h₁
      rw [hother hne₂] at h₂
      exact h.alone t₁ t₂ fiber h₁ h₂
  · intro t' fiber stage hheld
    by_cases hne : t' = t
    · rw [hne, hself] at hheld
      rcases hfibers fiber (hinitialised fiber (by simp [hheld])) with ⟨hstage, hsame⟩ | ⟨-, hnew⟩
      · exact hsame.fits (h.held t fiber stage (hstage ▸ hheld))
      · rwa [hheld] at hnew
    · rw [hother hne] at hheld
      have hsome : (s.threads t').stage fiber ≠ none := by simp [hheld]
      exact (hleft hne hsome).2.fits (h.held t' fiber stage hheld)
  · intro fiber hfiber hnone
    have hth' : th'.stage fiber = none := hself ▸ hnone t
    rcases hfibers fiber hfiber with ⟨hstage, hsame⟩ | ⟨-, hnew⟩
    · refine hsame.fits (h.free fiber hfiber fun t' => ?_)
      by_cases hne : t' = t
      · rw [hne, ← hstage, hth']
      · exact hother hne ▸ hnone t'
    · rwa [hth'] at hnew

theorem Inv.keep (h : Inv info s) (hstage : th'.stage = (s.threads t).stage)
    (hvalid : Valid info s.context th') : Inv info (s.go t th') := by
  refine h.move rfl hvalid ?_ fun fiber _ => .inl ⟨congrFun hstage fiber, ⟨rfl, rfl, rfl⟩⟩
  intro fiber hheld
  rw [hstage] at hheld
  exact h.initialised t fiber hheld

/-! ## The steps -/

variable {call : Call} {arg : UInt64} {rsp : ℕ}

theorem inv_enter (h : Inv info s) (hplace : (s.threads t).place = .guest) :
    Inv info (s.go t ((s.threads t).enter info call)) := by
  have hvalid := h.valid t
  generalize hth : s.threads t = th at *
  obtain ⟨tcbFiber, code, place, result⟩ := th
  obtain rfl : place = .guest := hplace
  have hreturns (result' : Except FiberError UInt64) :
    Inv info (s.go t ⟨tcbFiber, code, .guest, result'⟩) :=
    h.keep (by rw [hth]; rfl) hvalid
  cases call with
  | run fiber arg =>
    rw [Thread.enter]
    split
    · exact hreturns _
    rename_i hchecked
    split
    · exact hreturns _
    rename_i hnone
    refine h.keep (by rw [hth]; rfl) ⟨?_, hchecked⟩
    rcases hvalid with hout | ⟨_, _, rfl, -⟩
    · exact hout
    · exact absurd rfl hnone
  | switch fiber arg =>
    rw [Thread.enter]
    split
    · exact hreturns _
    rename_i hchecked
    split
    · rename_i hsome
      refine h.keep (by rw [hth]; rfl) ⟨hchecked, ?_⟩
      rcases hvalid with ⟨rfl, -⟩ | hin
      · cases hsome
      · exact hin
    · exact hreturns _
  | returnToThread arg =>
    rw [Thread.enter]
    split
    · rename_i hsome
      refine h.keep (by rw [hth]; rfl) ?_
      rcases hvalid with ⟨rfl, -⟩ | hin
      · cases hsome
      · exact hin
    · exact hreturns _
  | finalize fiber =>
    rw [Thread.enter]
    split
    · exact hreturns _
    · exact h.keep (by rw [hth]; rfl) hvalid

theorem inv_runClaim (h : Inv info s) (hplace : (s.threads t).place = .runClaim fiber arg) :
    Inv info (s.claim t fiber .run (.runClaimed fiber arg)) := by
  have hvalid := h.valid t
  generalize hth : s.threads t = th at *
  obtain ⟨tcbFiber, code, place, result⟩ := th
  obtain rfl : place = .runClaim fiber arg := hplace
  obtain ⟨hout, hfiber⟩ := hvalid
  rw [State.claim, hth]
  dsimp only
  split
  · rename_i hidle
    refine h.move rfl ⟨hout, hfiber⟩ ?_ ?_
    · intro f hheld
      by_cases hf : f = fiber
      · exact hf ▸ hfiber
      · simp [Thread.stage, hf] at hheld
    · intro f _
      by_cases hf : f = fiber
      · subst hf
        refine .inr ⟨fun t' _ => h.free_of_idle hidle t', ?_⟩
        simp only [Thread.stage, holding_some_apply, if_true]
        exact (h.free f hfiber (h.free_of_idle hidle)).claim hidle
      · refine .inl ⟨?_, untouched_setFiberState hf⟩
        obtain ⟨rfl, -⟩ := hout
        simp [hth, Thread.stage, Thread.currentFiber, hf]
  · refine h.keep ?_ (.inl hout)
    rw [hth]
    rfl

theorem inv_switchClaim (h : Inv info s) (hplace : (s.threads t).place = .switchClaim fiber arg) :
    Inv info (s.claim t fiber .run (.switchClaimed fiber arg)) := by
  have hvalid := h.valid t
  generalize hth : s.threads t = th at *
  obtain ⟨tcbFiber, code, place, result⟩ := th
  obtain rfl : place = .switchClaim fiber arg := hplace
  obtain ⟨hfiber, curFiber, hin⟩ := hvalid
  rw [State.claim, hth]
  dsimp only
  split
  · rename_i hidle
    have hstage : (s.threads t).stage = holding (some curFiber) .running holdingNone := by
      obtain ⟨ctx, rfl, hcurrent, -⟩ := hin
      rw [hth, Thread.stage, Thread.currentFiber]
      simp [hcurrent]
    have hne : curFiber ≠ fiber := by
      rintro rfl
      have hfree := h.free_of_idle hidle t
      rw [hstage] at hfree
      simp at hfree
    have hstage' : Thread.stage ⟨tcbFiber, code, .switchClaimed fiber arg, result⟩ =
        holding (some fiber) .entering (s.threads t).stage := by
      rw [hth]
      rfl
    refine h.move rfl ⟨curFiber, hin, hne⟩ ?_ ?_
    · intro f hheld
      by_cases hf : f = fiber
      · exact hf ▸ hfiber
      · rw [hstage', holding_some_apply, if_neg hf] at hheld
        exact h.initialised t f hheld
    · intro f _
      rw [hstage', holding_some_apply]
      by_cases hf : f = fiber
      · subst hf
        rw [if_pos rfl]
        exact .inr ⟨fun t' _ => h.free_of_idle hidle t',
          (h.free f hfiber (h.free_of_idle hidle)).claim hidle⟩
      · rw [if_neg hf]
        exact .inl ⟨rfl, untouched_setFiberState hf⟩
  · refine h.keep ?_ (.inr ⟨curFiber, hin⟩)
    rw [hth]
    rfl

theorem inv_runClaimed (h : Inv info s)
    (hplace : (s.threads t).place = .runClaimed fiber arg) : Inv info (s.go t { s.threads t with
      tcbFiber := some ⟨rsp, some fiber, none, 0, 0⟩, place := .runSaved fiber arg }) := by
  have hvalid := h.valid t
  generalize hth : s.threads t = th at *
  obtain ⟨tcbFiber, code, place, result⟩ := th
  obtain rfl : place = .runClaimed fiber arg := hplace
  refine h.keep ?_ ⟨_, rfl, rfl, rfl, hvalid.1.2⟩
  rw [hth]
  rfl

theorem inv_finalize (h : Inv info s) (hplace : (s.threads t).place = .finalize fiber) :
    Inv info (if s.fiberState fiber = .idle then
        ((s.setFiberState fiber .terminated).record fiber .terminated).go t
          ((s.threads t).returns (.ok 0))
      else s.go t ((s.threads t).returns (.error .state))) := by
  have hvalid := h.valid t
  generalize hth : s.threads t = th at *
  obtain ⟨tcbFiber, code, place, result⟩ := th
  obtain rfl : place = .finalize fiber := hplace
  have hstage (result' : Except FiberError UInt64) :
      Thread.stage ⟨tcbFiber, code, .guest, result'⟩ = (s.threads t).stage := by
    rw [hth]
    rfl
  split
  · rename_i hidle
    refine h.move rfl hvalid ?_ ?_
    · intro f hheld
      rw [Thread.returns, hstage] at hheld
      exact h.initialised t f hheld
    · intro f hinit
      rw [Thread.returns, hstage]
      by_cases hf : f = fiber
      · subst hf
        rw [h.free_of_idle hidle t]
        exact .inr ⟨fun t' _ => h.free_of_idle hidle t',
          (h.free f hinit (h.free_of_idle hidle)).finalize hidle⟩
      · exact .inl ⟨rfl, ⟨Function.update_of_ne hf _ _, rfl, Function.update_of_ne hf _ _⟩⟩
  · exact h.keep (hstage _) hvalid

/-- One fiber changes its stage, and the fiber that is left behind, if any, becomes free. -/
theorem Inv.moveTo (h : Inv info s) (hthreads : s'.threads = s.threads)
    (hvalid : Valid info s'.context th')
    {stage : Stage} (hheld : (s.threads t).stage fiber = some stage)
    (hfits : FiberFits info s' fiber (th'.stage fiber))
    (hfibers : ∀ f, f ≠ fiber → th'.stage f = (s.threads t).stage f ∧ Untouched s s' f ∨
      (s.threads t).stage f ≠ none ∧ th'.stage f = none ∧ FiberFits info s' f none) :
    Inv info (s'.go t th') := by
  have hsome : (s.threads t).stage fiber ≠ none := by simp [hheld]
  refine h.move hthreads hvalid ?_ ?_
  · intro f hf
    by_cases hne : f = fiber
    · exact hne ▸ h.initialised t fiber hsome
    · rcases hfibers f hne with ⟨hstage, -⟩ | ⟨-, hnone, -⟩
      · exact h.initialised t f (hstage ▸ hf)
      · exact absurd hnone hf
  · intro f _
    by_cases hne : f = fiber
    · subst hne
      exact .inr ⟨fun t' ht' => h.alone_of_stage hsome ht', hfits⟩
    · rcases hfibers f hne with hsame | ⟨hheld', hnone, hfits'⟩
      · exact .inl hsame
      · exact .inr ⟨fun t' ht' => h.alone_of_stage hheld' ht', hnone ▸ hfits'⟩

section Context

variable {ctx : FiberContext} {code : Code} {result : Except FiberError UInt64} {arg : UInt64}
  {curFiber : ℕ}

theorem inv_runSaved (h : Inv info s)
    (hth : s.threads t = ⟨some ctx, code, .runSaved fiber arg, result⟩) :
    Inv info (stepContext info s t ctx) := by
  obtain ⟨_, ⟨⟩, hcurrent, hprev, hcode⟩ := h.valid_of hth
  rw [stepContext, hth]
  dsimp only
  split
  · refine h.keep ?_ ⟨ctx, rfl, hcurrent, hprev ▸ hcode⟩
    simp [hth, Thread.stage, Thread.currentFiber, Thread.prevFiber, hcurrent, hprev]
  · rename_i hstack
    have hheld : (s.threads t).stage fiber = some .entering := by
      simp [hth, Thread.stage, Thread.currentFiber, hcurrent]
    refine h.keep ?_ ⟨ctx, rfl, hcurrent, hprev, hcode, ?_⟩
    · simp [hth, Thread.stage, Thread.currentFiber, hcurrent, dataFor]
    · exact (h.held t fiber _ hheld).context_eq_none (not_not.mp hstack)

theorem inv_switchToFiber (h : Inv info s)
    (hth : s.threads t = ⟨some ctx, code, .switchToFiber fiber arg, result⟩) :
    Inv info (stepContext info s t ctx) := by
  obtain ⟨_, ⟨⟩, hcurrent, hfrom⟩ := h.valid_of hth
  rw [stepContext, hth]
  dsimp only
  split
  · refine h.keep ?_ ⟨_, fiber, rfl, hcurrent, hfrom, ‹_›⟩
    rw [hth]
    rfl
  · refine h.keep ?_ ⟨_, rfl, hcurrent, rfl, hfrom, ‹_›⟩
    rw [hth]
    rfl

theorem inv_switchEntry {data : FiberData} (h : Inv info s)
    (hth : s.threads t = ⟨some ctx, code, .switchEntry fiber data, result⟩) :
    Inv info (stepContext info s t ctx) := by
  obtain ⟨_, ⟨⟩, hcurrent, hprev, hfrom, hcontext⟩ := h.valid_of hth
  have hstage (f : ℕ) : (s.threads t).stage f =
      holding (some fiber) .entering (holding data.state .leaving holdingNone) f := by
    rw [hth, Thread.stage, Thread.currentFiber]
    simp [hcurrent]
  have hstage' (f : ℕ) : Thread.stage ⟨some ctx, .fiber fiber, .guest, result⟩ f =
      holding (some fiber) .running holdingNone f := by
    simp [Thread.stage, Thread.currentFiber, hcurrent]
  have hheld : (s.threads t).stage fiber = some .entering := by simp [hstage]
  have hin : Valid info s.context ⟨some ctx, .fiber fiber, .guest, result⟩ :=
    .inr ⟨fiber, ctx, rfl, hcurrent, hprev, rfl⟩
  rw [stepContext, hth]
  dsimp only
  cases hdata : data.state with
  | none =>
    refine h.moveTo rfl hin hheld ?_ ?_
    · simp only [hstage', holding_some_apply, if_true]
      exact (h.held t fiber _ hheld).ran hcontext
    · intro f hf
      exact .inl ⟨by simp [hstage, hstage', hf, hdata], untouched_record hf⟩
  | some prevFiber =>
    rw [hdata] at hfrom
    have hne : prevFiber ≠ fiber := hfrom.2
    have hleft : (s.threads t).stage prevFiber = some .leaving := by simp [hstage, hdata, hne]
    refine h.moveTo rfl hin hheld ?_ ?_
    · simp only [hstage', holding_some_apply, if_true]
      have hfits := (untouched_setIdle hne.symm).fits (h.held t fiber _ hheld)
      exact hfits.ran hcontext
    · intro f hf
      by_cases hf' : f = prevFiber
      · subst hf'
        refine .inr ⟨by simp [hleft], by simp [hstage', hf], ?_⟩
        exact (untouched_record hf).fits (h.held t f _ hleft).setIdle
      · refine .inl ⟨by simp [hstage, hstage', hf, hdata, hf'], ?_⟩
        exact ⟨(untouched_setIdle hf').fiberState, rfl,
          (untouched_record hf).log.trans (untouched_setIdle hf').log⟩

theorem inv_longJmp {k : Continuation} (h : Inv info s)
    (hth : s.threads t = ⟨some ctx, code, .longJmp k, result⟩) :
    Inv info (stepContext info s t ctx) := by
  obtain ⟨_, fiber, ⟨⟩, hcurrent, hfrom, hk⟩ := h.valid_of hth
  have hstage (f : ℕ) : (s.threads t).stage f =
      holding (some fiber) .entering (holding ctx.prevFiber .leaving holdingNone) f := by
    rw [hth, Thread.stage, Thread.currentFiber, Thread.prevFiber]
    simp [hcurrent]
  have hheld : (s.threads t).stage fiber = some .entering := by simp [hstage]
  have hcode : k.code = .fiber fiber := (h.held t fiber _ hheld).continues k hk
  have hprev : ctx.prevFiber ≠ some fiber := by
    intro hprev
    rw [hprev] at hfrom
    exact hfrom.2 rfl
  rw [stepContext, hth, hcurrent]
  dsimp only
  have hstage' (f : ℕ) : Thread.stage ⟨some ctx, k.code, .resumed, result⟩ f =
      holding (some fiber) .running (holding ctx.prevFiber .leaving holdingNone) f := by
    simp [Thread.stage, Thread.currentFiber, Thread.prevFiber, hcurrent]
  refine h.moveTo rfl ⟨ctx, fiber, rfl, hcurrent, hcode, hprev⟩ hheld ?_ ?_
  · simp only [hstage', holding_some_apply, if_true]
    exact (h.held t fiber _ hheld).ran hk
  · intro f hf
    exact .inl ⟨by simp [hstage, hstage', hf], untouched_record hf⟩

theorem inv_resumed (h : Inv info s) (hth : s.threads t = ⟨some ctx, code, .resumed, result⟩) :
    Inv info (stepContext info s t ctx) := by
  obtain ⟨_, fiber, ⟨⟩, hcurrent, hcode, hne⟩ := h.valid_of hth
  have hstage (f : ℕ) : (s.threads t).stage f =
      holding (some fiber) .running (holding ctx.prevFiber .leaving holdingNone) f := by
    rw [hth, Thread.stage, Thread.currentFiber, Thread.prevFiber]
    simp [hcurrent]
  rw [stepContext, hth]
  dsimp only
  split
  · rename_i prevFiber hprev
    have hneq : prevFiber ≠ fiber := fun heq => hne (heq ▸ hprev)
    have hleft : (s.threads t).stage prevFiber = some .leaving := by simp [hstage, hprev, hneq]
    have hnone : Thread.stage ⟨some ctx, code, .resumedIdle, result⟩ prevFiber = none := by
      simp [Thread.stage, Thread.currentFiber, hcurrent, hneq]
    refine h.moveTo rfl ⟨ctx, fiber, rfl, hcurrent, hcode⟩ hleft ?_ ?_
    · rw [hnone]
      exact (h.held t prevFiber _ hleft).setIdle
    · intro f hf
      refine .inl ⟨?_, untouched_setIdle hf⟩
      rw [hstage]
      simp [Thread.stage, Thread.currentFiber, hcurrent, hprev, hf]
  · rename_i hprev
    refine h.keep ?_ (.inr ⟨fiber, ctx, rfl, hcurrent, hprev, hcode⟩)
    funext f
    rw [hstage]
    simp [Thread.returns, Thread.stage, Thread.currentFiber, hcurrent, hprev]

theorem inv_resumedIdle (h : Inv info s)
    (hth : s.threads t = ⟨some ctx, code, .resumedIdle, result⟩) :
    Inv info (stepContext info s t ctx) := by
  obtain ⟨_, fiber, ⟨⟩, hcurrent, hcode⟩ := h.valid_of hth
  rw [stepContext, hth]
  refine h.keep ?_ (.inr ⟨fiber, _, rfl, hcurrent, rfl, hcode⟩)
  rw [hth]
  rfl

/-- A thread leaves its current fiber, which saves where it is when it has a stack. -/
theorem inv_leave {place : Place} (h : Inv info s) (hth : s.threads t = th)
    (hin : Inside th fiber) (hrunning : th.stage fiber = some .running)
    (hleaving : Thread.stage { th with place } fiber = some .leaving)
    (hsame : ∀ f, f ≠ fiber → Thread.stage { th with place } f = th.stage f)
    (hvalid : ∀ context, Valid info context { th with place }) :
    Inv info (if (info fiber).addrContext = 0 then s.go t { th with place }
      else (s.saveContext t fiber).go t { th with place }) := by
  have hheld : (s.threads t).stage fiber = some .running := hth ▸ hrunning
  split
  · rename_i hstack
    refine h.moveTo rfl (hvalid _) hheld ?_ ?_
    · rw [hleaving]
      exact (h.held t fiber _ hheld).leave hstack
    · intro f hf
      exact .inl ⟨hth ▸ hsame f hf, ⟨rfl, rfl, rfl⟩⟩
  · rename_i hstack
    obtain ⟨_, -, -, -, hcode⟩ := hin
    refine h.moveTo rfl (hvalid _) hheld ?_ ?_
    · rw [hleaving]
      exact (h.held t fiber _ hheld).saveContext hstack (hth ▸ hcode)
    · intro f hf
      exact .inl ⟨hth ▸ hsame f hf, untouched_saveContext hf⟩

theorem inv_switchClaimed (h : Inv info s)
    (hth : s.threads t = ⟨some ctx, code, .switchClaimed fiber arg, result⟩) :
    Inv info (stepContext info s t ctx) := by
  obtain ⟨curFiber, ⟨_, ⟨⟩, hcurrent, hprev, hcode⟩, hne⟩ := h.valid_of hth
  rw [stepContext, hth, hcurrent]
  dsimp only
  refine inv_leave h hth ⟨ctx, rfl, hcurrent, hprev, hcode⟩ ?_ ?_ ?_ ?_
  · simp [Thread.stage, Thread.currentFiber, hcurrent, hne]
  · simp [Thread.stage, hne]
  · intro f hf
    simp [Thread.stage, Thread.currentFiber, hcurrent, hf]
  · exact fun _ => ⟨⟨ctx, rfl, hcurrent, hprev, hcode⟩, hne⟩

theorem inv_returnToThread (h : Inv info s)
    (hth : s.threads t = ⟨some ctx, code, .returnToThread arg, result⟩) :
    Inv info (stepContext info s t ctx) := by
  obtain ⟨curFiber, _, ⟨⟩, hcurrent, hprev, hcode⟩ := h.valid_of hth
  rw [stepContext, hth, hcurrent]
  dsimp only
  refine inv_leave h hth ⟨ctx, rfl, hcurrent, hprev, hcode⟩ ?_ ?_ ?_ ?_
  · simp [Thread.stage, Thread.currentFiber, hcurrent]
  · simp [Thread.stage, Thread.currentFiber, hcurrent]
  · intro f hf
    simp [Thread.stage, Thread.currentFiber, hcurrent, hf]
  · exact fun _ => ⟨curFiber, ctx, rfl, hcurrent, hprev, hcode⟩

theorem inv_switch (h : Inv info s)
    (hth : s.threads t = ⟨some ctx, code, .switch curFiber fiber arg, result⟩) :
    Inv info (stepContext info s t ctx) := by
  obtain ⟨⟨_, ⟨⟩, hcurrent, hprev, hcode⟩, hne⟩ := h.valid_of hth
  rw [stepContext, hth]
  dsimp only
  split
  · rename_i hstack
    have hheld : (s.threads t).stage fiber = some .entering := by simp [hth, Thread.stage]
    refine h.keep ?_ ⟨_, rfl, rfl, rfl, ⟨hcode, hne⟩,
      (h.held t fiber _ hheld).context_eq_none hstack⟩
    rw [hth]
    rfl
  · refine h.keep ?_ ⟨_, rfl, rfl, hcode, hne⟩
    rw [hth]
    rfl

theorem inv_terminate (h : Inv info s)
    (hth : s.threads t = ⟨some ctx, code, .terminate arg, result⟩) :
    Inv info (stepContext info s t ctx) := by
  obtain ⟨curFiber, _, ⟨⟩, hcurrent, hprev, hcode⟩ := h.valid_of hth
  rw [stepContext, hth]
  refine h.keep ?_ ⟨_, curFiber, rfl, hcurrent, hprev, rfl⟩
  rw [hth]
  rfl

theorem inv_runReturned (h : Inv info s)
    (hth : s.threads t = ⟨some ctx, code, .runReturned, result⟩) :
    Inv info (stepContext info s t ctx) := by
  obtain ⟨_, curFiber, ⟨⟩, hcurrent, hprev, hcode⟩ := h.valid_of hth
  rw [stepContext, hth, hcurrent]
  refine h.keep ?_ ⟨_, rfl, rfl, hprev, hcode⟩
  simp [hth, Thread.stage, Thread.currentFiber, hcurrent]

theorem inv_runIdle (h : Inv info s)
    (hth : s.threads t = ⟨some ctx, code, .runIdle curFiber, result⟩) :
    Inv info (stepContext info s t ctx) := by
  have hvalid := h.valid t
  rw [hth] at hvalid
  have hheld : (s.threads t).stage curFiber = some .leaving := by simp [hth, Thread.stage]
  rw [stepContext, hth]
  refine h.moveTo rfl hvalid hheld (h.held t curFiber _ hheld).setIdle ?_
  intro f hf
  exact .inl ⟨by simp [hth, Thread.stage, hf], untouched_setIdle hf⟩

theorem inv_runDone (h : Inv info s) (hth : s.threads t = ⟨some ctx, code, .runDone, result⟩) :
    Inv info (stepContext info s t ctx) := by
  obtain ⟨_, ⟨⟩, hcurrent, hprev, hcode⟩ := h.valid_of hth
  rw [stepContext, hth]
  refine h.keep ?_ (.inl ⟨rfl, hcode⟩)
  rw [hth]
  rfl

theorem inv_stepContext (h : Inv info s) (hctx : (s.threads t).tcbFiber = some ctx) :
    Inv info (stepContext info s t ctx) := by
  rcases hth : s.threads t with ⟨tcbFiber, code, place, result⟩
  rw [hth] at hctx
  obtain rfl : tcbFiber = some ctx := hctx
  cases place with
  | runSaved => exact inv_runSaved h hth
  | switchToFiber => exact inv_switchToFiber h hth
  | switchEntry => exact inv_switchEntry h hth
  | longJmp => exact inv_longJmp h hth
  | resumed => exact inv_resumed h hth
  | resumedIdle => exact inv_resumedIdle h hth
  | switchClaimed => exact inv_switchClaimed h hth
  | switch => exact inv_switch h hth
  | returnToThread => exact inv_returnToThread h hth
  | terminate => exact inv_terminate h hth
  | runReturned => exact inv_runReturned h hth
  | runIdle => exact inv_runIdle h hth
  | runDone => exact inv_runDone h hth
  | _ =>
    rw [stepContext, hth]
    exact h

end Context

theorem inv_step (h : Inv info s) : Inv info (step info s t call rsp) := by
  rw [step]
  split
  · exact inv_enter h ‹_›
  · exact inv_runClaim h ‹_›
  · exact inv_runClaimed h ‹_›
  · exact inv_switchClaim h ‹_›
  · exact inv_finalize h ‹_›
  · split
    · exact inv_stepContext h ‹_›
    · exact h

theorem inv_of_reachable (h : Reachable info s) : Inv info s := by
  induction h with
  | start hinitial => exact inv_of_isInitial hinitial
  | step t call rsp _ ih => exact inv_step ih

end Inv

end PS4Droid.Fiber
