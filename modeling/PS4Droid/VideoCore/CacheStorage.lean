import Mathlib.Order.Interval.Finset.Nat

/-!
# The worker of the pipeline cache

`cache_storage.cpp`: `Save` puts a request into the queue under one mutex and counts it under
another, the worker `ProcessIO` takes the requests while the count is not zero, and `Close` stops
it. A request is what it writes; opening, loading and the archive are left out.
-/

namespace PS4Droid.VideoCore.CacheStorage

/-- Where the worker is in `ProcessIO`. -/
inductive Worker (Blob : Type) where
  | outer
  | wait
  | woken
  | inner
  | take
  | write (blob : Blob)
  | finish
  | exited

/-- The global variables and the worker. The `Save` calls are numbered in the order in which their
requests are put into the queue: `saved` has all requests, `between` the calls that are between
their two critical sections, and `accepted` those that returned before `Close` was called. -/
structure State (Blob : Type) where
  reqQueue : List Blob
  numRequests : ℕ
  stopRequested : Bool
  opened : Bool
  worker : Worker Blob
  written : List Blob
  saved : List Blob
  between : Finset ℕ
  accepted : Finset ℕ
  closing : Bool
  closed : Bool

/-- The requests that were taken and are still counted. -/
def Worker.inProgress {Blob : Type} : Worker Blob → ℕ
  | .write _ | .finish => 1
  | _ => 0

/-- The requests that were taken and are not yet written. -/
def Worker.unwritten {Blob : Type} : Worker Blob → ℕ
  | .write _ => 1
  | _ => 0

def Worker.isExited {Blob : Type} : Worker Blob → Bool
  | .exited => true
  | _ => false

/-- The worker is in its inner loop. -/
def Worker.isDraining {Blob : Type} : Worker Blob → Bool
  | .inner | .take | .write _ | .finish => true
  | _ => false

inductive Action (Blob : Type) where
  | save (blob : Blob)
  | count (call : ℕ)
  | close
  | requestStop
  | join
  | process

variable {Blob : Type}

/-- After `Open`. -/
def initial : State Blob where
  reqQueue := []
  numRequests := 0
  stopRequested := false
  opened := true
  worker := .outer
  written := []
  saved := []
  between := ∅
  accepted := ∅
  closing := false
  closed := false

/-- One step of `ProcessIO`. -/
def processIO (s : State Blob) : Option (State Blob) :=
  match s.worker with
  | .outer => some { s with worker := if s.stopRequested then .exited else .wait }
  | .wait => if s.numRequests ≠ 0 ∨ s.stopRequested then some { s with worker := .woken } else none
  | .woken => some { s with worker := if s.stopRequested then .exited else .inner }
  | .inner => some { s with worker := if s.numRequests ≠ 0 then .take else .outer }
  | .take =>
    match s.reqQueue with
    | [] => some { s with worker := .inner }
    | blob :: rest => some { s with reqQueue := rest, worker := .write blob }
  | .write blob => some { s with written := s.written ++ [blob], worker := .finish }
  | .finish => some { s with numRequests := s.numRequests - 1, worker := .inner }
  | .exited => none

def step (s : State Blob) : Action Blob → Option (State Blob)
  -- The first critical section of `WriteVector`; `Save` returns false when nothing is open.
  | .save blob =>
    if s.opened then
      some { s with
        reqQueue := s.reqQueue ++ [blob]
        saved := s.saved ++ [blob]
        between := insert s.saved.length s.between }
    else some s
  -- The second one, and the return of `Save`.
  | .count call =>
    if call ∈ s.between then
      some { s with
        numRequests := s.numRequests + 1
        between := s.between.erase call
        accepted := if s.closing then s.accepted else insert call s.accepted }
    else none
  | .close => if s.opened ∧ ¬ s.closing then some { s with closing := true } else none
  | .requestStop => if s.closing ∧ ¬ s.stopRequested then some { s with stopRequested := true }
      else none
  | .join =>
    if s.stopRequested ∧ s.worker.isExited ∧ ¬ s.closed then
      some { s with closed := true, opened := false }
    else none
  | .process => processIO s

/-- The runs whose steps meet a condition. -/
inductive Reachable (ok : State Blob → Action Blob → Prop) : State Blob → Prop
  | initial : Reachable ok initial
  | step {s s' : State Blob} {action : Action Blob} :
    Reachable ok s → ok s action → step s action = some s' → Reachable ok s'

/-- The first call whose request is still in the queue. -/
def State.firstQueued (s : State Blob) : ℕ := s.saved.length - s.reqQueue.length

/-- When `Close` stops the worker, no accepted request is in the queue, or the worker is in its
inner loop and a call that is not counted yet came after the accepted requests in the queue. -/
def StopsDraining (s : State Blob) : Action Blob → Prop
  | .requestStop =>
    (∀ call ∈ s.accepted, call < s.firstQueued) ∨
      s.worker.isDraining = true ∧
        ∀ call ∈ s.between, ∀ call' ∈ s.accepted, s.firstQueued ≤ call' → call' < call
  | _ => True

/-! ## The queue and the counter -/

/-- How many requests the worker has taken. -/
def State.taken (s : State Blob) : ℕ := s.written.length + s.worker.unwritten

structure Inv (s : State Blob) : Prop where
  queue : s.reqQueue = s.saved.drop s.taken
  bound : s.taken ≤ s.saved.length
  written : s.written = s.saved.take s.written.length
  writing : ∀ blob, s.worker = .write blob → s.saved[s.written.length]? = some blob
  count : s.numRequests + s.between.card = s.reqQueue.length + s.worker.inProgress
  counted : s.worker.inProgress ≠ 0 ∨ s.worker = .take → s.numRequests ≠ 0
  between : ∀ call ∈ s.between, call < s.saved.length
  accepted : ∀ call ∈ s.accepted, call < s.saved.length

variable {s s' : State Blob} {worker : Worker Blob} {blob : Blob} {action : Action Blob}
  {ok : State Blob → Action Blob → Prop}

theorem Inv.firstQueued (h : Inv s) : s.firstQueued = s.taken := by
  have hbound := h.bound
  rw [State.firstQueued, h.queue, List.length_drop]
  omega

theorem inv_initial : Inv (initial : State Blob) where
  queue := rfl
  bound := Nat.le_refl 0
  written := rfl
  writing blob h := by cases h
  count := rfl
  counted h := by
    rcases h with h | h
    · exact absurd rfl h
    · cases h
  between call h := absurd h (Finset.notMem_empty call)
  accepted call h := absurd h (Finset.notMem_empty call)

theorem inv_save (h : Inv s) (blob : Blob) : Inv { s with
      reqQueue := s.reqQueue ++ [blob]
      saved := s.saved ++ [blob]
      between := insert s.saved.length s.between } := by
  have hfresh : s.saved.length ∉ s.between := fun hmem => Nat.lt_irrefl _ (h.between _ hmem)
  have hbound := h.bound
  have hcount := h.count
  have hle : s.written.length ≤ s.saved.length := by
    rw [State.taken] at hbound
    omega
  refine ⟨?_, ?_, ?_, ?_, ?_, h.counted, ?_, ?_⟩
  · change s.reqQueue ++ [blob] = (s.saved ++ [blob]).drop s.taken
    rw [List.drop_append_of_le_length hbound, ← h.queue]
  · change s.taken ≤ (s.saved ++ [blob]).length
    rw [List.length_append]
    omega
  · change s.written = (s.saved ++ [blob]).take s.written.length
    rw [List.take_append_of_le_length hle, ← h.written]
  · intro blob' hworker
    have hold := h.writing blob' hworker
    obtain ⟨hlt, -⟩ := List.getElem?_eq_some_iff.mp hold
    change (s.saved ++ [blob])[s.written.length]? = some blob'
    rw [List.getElem?_append_left hlt, hold]
  · change s.numRequests + (insert s.saved.length s.between).card =
      (s.reqQueue ++ [blob]).length + s.worker.inProgress
    rw [Finset.card_insert_of_notMem hfresh, List.length_append, List.length_singleton]
    omega
  · intro call hcall
    change call < (s.saved ++ [blob]).length
    rw [List.length_append, List.length_singleton]
    rcases Finset.mem_insert.mp hcall with rfl | hcall
    · omega
    · have hlt := h.between call hcall
      omega
  · intro call hcall
    change call < (s.saved ++ [blob]).length
    rw [List.length_append]
    exact Nat.lt_of_lt_of_le (h.accepted call hcall) (Nat.le_add_right _ _)

theorem inv_count (h : Inv s) {call : ℕ} (hcall : call ∈ s.between) (closing : Bool) :
    Inv { s with
      numRequests := s.numRequests + 1
      between := s.between.erase call
      accepted := if closing then s.accepted else insert call s.accepted } := by
  have hcount := h.count
  have hcard := Finset.card_pos.mpr ⟨call, hcall⟩
  refine ⟨h.queue, h.bound, h.written, h.writing, ?_, fun _ => Nat.succ_ne_zero _, ?_, ?_⟩
  · change s.numRequests + 1 + (s.between.erase call).card = s.reqQueue.length + s.worker.inProgress
    rw [Finset.card_erase_of_mem hcall]
    omega
  · exact fun call' hcall' => h.between call' (Finset.mem_of_mem_erase hcall')
  · intro call' hcall'
    cases closing with
    | true => exact h.accepted call' hcall'
    | false =>
      rcases Finset.mem_insert.mp hcall' with rfl | hcall'
      · exact h.between _ hcall
      · exact h.accepted call' hcall'

theorem Worker.unwritten_of (h : worker.inProgress = 0) : worker.unwritten = 0 := by
  cases worker with
  | write blob => cases h
  | _ => rfl

theorem Inv.of_worker (h : Inv s) (hbefore : s.worker.inProgress = 0)
    (hafter : worker.inProgress = 0) (htake : worker = .take → s.numRequests ≠ 0) :
    Inv { s with worker := worker } := by
  have htaken : State.taken { s with worker := worker } = s.taken := by
    rw [State.taken, State.taken, Worker.unwritten_of hbefore, Worker.unwritten_of hafter]
  have hcount := h.count
  refine ⟨?_, ?_, h.written, ?_, ?_, ?_, h.between, h.accepted⟩
  · rw [htaken]
    exact h.queue
  · rw [htaken]
    exact h.bound
  · rintro blob hworker
    change worker = .write blob at hworker
    rw [hworker] at hafter
    cases hafter
  · change s.numRequests + s.between.card = s.reqQueue.length + worker.inProgress
    omega
  · intro hcounted
    exact htake (hcounted.resolve_left fun hprogress => hprogress hafter)

theorem inv_take (h : Inv s) (hworker : s.worker = .take) {rest : List Blob}
    (hqueue : s.reqQueue = blob :: rest) :
    Inv { s with reqQueue := rest, worker := .write blob } := by
  have htaken : s.taken = s.written.length := by
    rw [State.taken, hworker]
    exact Nat.add_zero _
  have hdrop : s.saved.drop s.written.length = blob :: rest := by rw [← htaken, ← h.queue, hqueue]
  have hcount := h.count
  rw [hqueue, hworker] at hcount
  have hlt : s.written.length < s.saved.length := by
    by_contra hge
    rw [List.drop_eq_nil_of_le (by omega)] at hdrop
    cases hdrop
  rw [List.drop_eq_getElem_cons hlt] at hdrop
  obtain ⟨hblob, hrest⟩ := List.cons.inj hdrop
  refine ⟨hrest.symm, hlt, h.written, ?_, ?_, fun _ => h.counted (.inr hworker), h.between,
    h.accepted⟩
  · intro blob' hworker'
    obtain rfl := Worker.write.inj hworker'
    exact List.getElem?_eq_some_iff.mpr ⟨hlt, hblob⟩
  · change s.numRequests + s.between.card = rest.length + 1
    rw [List.length_cons] at hcount
    exact hcount

theorem inv_write (h : Inv s) (hworker : s.worker = .write blob) :
    Inv { s with written := s.written ++ [blob], worker := .finish } := by
  have htaken : s.taken = s.written.length + 1 := by
    rw [State.taken, hworker]
    rfl
  have hlength : (s.written ++ [blob]).length = s.written.length + 1 := by simp
  have hcount := h.count
  rw [hworker] at hcount
  have htaken' : State.taken { s with written := s.written ++ [blob], worker := .finish } =
    s.taken := by
    rw [htaken]
    exact hlength
  refine ⟨?_, ?_, ?_, ?_, hcount, fun _ => h.counted (.inl ?_), h.between, h.accepted⟩
  · rw [htaken']
    exact h.queue
  · rw [htaken']
    exact h.bound
  · change s.written ++ [blob] = s.saved.take (s.written ++ [blob]).length
    rw [hlength, List.take_add_one, ← h.written, h.writing blob hworker]
    rfl
  · intro blob' hworker'
    cases hworker'
  · rw [hworker]
    exact Nat.one_ne_zero

theorem inv_finish (h : Inv s) (hworker : s.worker = .finish) :
    Inv { s with numRequests := s.numRequests - 1, worker := .inner } := by
  have htaken : s.taken = s.written.length := by
    rw [State.taken, hworker]
    exact Nat.add_zero _
  have hcount := h.count
  have hcounted := h.counted (.inl (by rw [hworker]; exact Nat.one_ne_zero))
  rw [hworker] at hcount
  refine ⟨?_, ?_, h.written, ?_, ?_, ?_, h.between, h.accepted⟩
  · exact h.queue.trans (by rw [htaken]; rfl)
  · exact Nat.le_trans (Nat.le_of_eq htaken.symm) h.bound
  · intro blob hworker'
    cases hworker'
  · change s.numRequests - 1 + s.between.card = s.reqQueue.length + 0
    change s.numRequests + s.between.card = s.reqQueue.length + 1 at hcount
    omega
  · intro hinner
    rcases hinner with hinner | hinner
    · exact absurd rfl hinner
    · cases hinner

/-- What a step of the worker does: it moves on, or handles one request. -/
inductive Processes (s : State Blob) : State Blob → Prop
  | move (worker : Worker Blob) (hbefore : s.worker.inProgress = 0) (hafter : worker.inProgress = 0)
      (htake : worker = .take → s.numRequests ≠ 0) (hrunning : s.worker.isExited = false)
      (hexited : worker.isExited = true → s.stopRequested = true)
      (hdraining : s.worker.isDraining = true →
        worker.isDraining = true ∨ s.worker = .inner ∧ s.numRequests = 0) :
      Processes s { s with worker := worker }
  | take {blob : Blob} {rest : List Blob} (hworker : s.worker = .take)
      (hqueue : s.reqQueue = blob :: rest) :
      Processes s { s with reqQueue := rest, worker := .write blob }
  | write {blob : Blob} (hworker : s.worker = .write blob) :
      Processes s { s with written := s.written ++ [blob], worker := .finish }
  | finish (hworker : s.worker = .finish) :
      Processes s { s with numRequests := s.numRequests - 1, worker := .inner }

theorem processIO_cases (hstep : processIO s = some s') : Processes s s' := by
  unfold processIO at hstep
  split at hstep
  case h_6 => exact Option.some.inj hstep ▸ .write ‹_›
  case h_7 => exact Option.some.inj hstep ▸ .finish ‹_›
  case h_8 => cases hstep
  all_goals
    rename_i hworker
    split at hstep
    all_goals try cases hstep
  -- Only the step with a request in the queue is not a move.
  case h_2.refl => exact .take hworker ‹_›
  all_goals
    constructor <;> simp_all [Worker.inProgress, Worker.isExited, Worker.isDraining]

theorem inv_processIO (h : Inv s) (hstep : processIO s = some s') : Inv s' := by
  cases processIO_cases hstep with
  | move worker hbefore hafter htake => exact h.of_worker hbefore hafter htake
  | take hworker hqueue => exact inv_take h hworker hqueue
  | write hworker => exact inv_write h hworker
  | finish hworker => exact inv_finish h hworker

theorem inv_step (h : Inv s) (hstep : step s action = some s') :
    Inv s' := by
  have hsame {s' : State Blob}
    (heq : s'.reqQueue = s.reqQueue ∧ s'.saved = s.saved ∧ s'.written = s.written ∧
      s'.worker = s.worker ∧ s'.numRequests = s.numRequests ∧ s'.between = s.between ∧
      s'.accepted = s.accepted) : Inv s' := by
    obtain ⟨hqueue, hsaved, hwritten, hworker, hnum, hbetween, haccepted⟩ := heq
    have htaken : s'.taken = s.taken := by rw [State.taken, State.taken, hwritten, hworker]
    refine ⟨?_, ?_, ?_, ?_, ?_, ?_, ?_, ?_⟩
    · rw [hqueue, hsaved, htaken, h.queue]
    · rw [htaken, hsaved]
      exact h.bound
    · rw [hwritten, hsaved]
      exact h.written
    · rw [hworker, hsaved, hwritten]
      exact h.writing
    · rw [hnum, hbetween, hqueue, hworker]
      exact h.count
    · rw [hworker, hnum]
      exact h.counted
    · rw [hbetween, hsaved]
      exact h.between
    · rw [haccepted, hsaved]
      exact h.accepted
  cases action with
  | save blob =>
    rw [step] at hstep
    split at hstep
    · obtain rfl := Option.some.inj hstep
      exact inv_save h blob
    · obtain rfl := Option.some.inj hstep
      exact h
  | count call =>
    rw [step] at hstep
    split at hstep
    · obtain rfl := Option.some.inj hstep
      exact inv_count h ‹_› s.closing
    · cases hstep
  | close | requestStop | join =>
    rw [step] at hstep
    split at hstep
    · obtain rfl := Option.some.inj hstep
      exact hsame ⟨rfl, rfl, rfl, rfl, rfl, rfl, rfl⟩
    · cases hstep
  | process => exact inv_processIO h hstep

/-! ## After the stop -/

/-- The accepted requests are taken, or will be before the worker leaves its inner loop. -/
def State.WillDrain (s : State Blob) : Prop :=
  (∀ call ∈ s.accepted, call < s.taken) ∨
    s.worker.isDraining = true ∧ ∀ call ∈ s.between, ∀ call' ∈ s.accepted, s.taken ≤ call' →
      call' < call

structure Stopped (s : State Blob) : Prop where
  closing : s.stopRequested = true → s.closing = true
  drained : s.stopRequested = true → s.WillDrain
  exited : s.worker.isExited = true → s.stopRequested = true
  closed : s.closed = true → s.worker.isExited = true

/-- The inner loop ends when every request in the queue belongs to a call that is not counted. -/
theorem taken_of_uncounted (h : Inv s) (hworker : s.worker = .inner) (hnum : s.numRequests = 0)
    (hbetween : ∀ call ∈ s.between, ∀ call' ∈ s.accepted, s.taken ≤ call' → call' < call) :
    ∀ call' ∈ s.accepted, call' < s.taken := by
  intro call' hcall'
  by_contra hqueued
  have hlt := h.accepted call' hcall'
  have hsubset : s.between ⊆ Finset.Ioo call' s.saved.length := by
    intro call hcall
    rw [Finset.mem_Ioo]
    exact ⟨hbetween call hcall call' hcall' (Nat.le_of_not_lt hqueued), h.between call hcall⟩
  have hcard := Finset.card_le_card hsubset
  rw [Nat.card_Ioo] at hcard
  have hcount := h.count
  rw [hworker, hnum, h.queue, List.length_drop] at hcount
  change 0 + s.between.card = s.saved.length - s.taken + 0 at hcount
  omega

theorem willDrain_processIO (h : Inv s) (hdrain : s.WillDrain)
    (hstep : processIO s = some s') : s'.WillDrain := by
  -- Nothing that was taken is given back.
  have hmono (htaken : s.taken ≤ s'.taken) (haccepted : s'.accepted = s.accepted)
      (hall : ∀ call ∈ s.accepted, call < s.taken) : s'.WillDrain := by
    left
    rw [haccepted]
    exact fun call hcall => Nat.lt_of_lt_of_le (hall call hcall) htaken
  have hloop (htaken : s.taken ≤ s'.taken) (haccepted : s'.accepted = s.accepted)
      (hbetween : s'.between = s.between) (hdraining : s'.worker.isDraining = true)
      (hbefore : s.worker.isDraining = true) : s'.WillDrain := by
    rcases hdrain with hall | ⟨-, hbehind⟩
    · exact hmono htaken haccepted hall
    · right
      rw [haccepted, hbetween]
      exact ⟨hdraining, fun call hcall call' hcall' hqueued =>
        hbehind call hcall call' hcall' (Nat.le_trans htaken hqueued)⟩
  have htaken_of (hold : s.worker.unwritten = 0)
    (hwritten : s'.written = s.written) : s.taken ≤ s'.taken := by
    rw [State.taken, State.taken, hold, hwritten]
    exact Nat.le_add_right _ _
  cases processIO_cases hstep with
  | move worker hbefore _ _ _ _ hdraining =>
    have htaken := htaken_of (Worker.unwritten_of hbefore) rfl
    rcases hdrain with hall | ⟨hwas, hbehind⟩
    · exact hmono htaken rfl hall
    · rcases hdraining hwas with hstill | ⟨hinner, hnum⟩
      · exact hloop htaken rfl rfl hstill hwas
      · exact hmono htaken rfl (taken_of_uncounted h hinner hnum hbehind)
  | take hworker | finish hworker =>
    exact hloop (htaken_of (by rw [hworker]; rfl) rfl) rfl rfl rfl (by rw [hworker]; rfl)
  | write hworker =>
    refine hloop (Nat.le_of_eq ?_) rfl rfl rfl (by rw [hworker]; rfl)
    rw [State.taken, State.taken, hworker, List.length_append]
    rfl

theorem processIO_frame (hstep : processIO s = some s') :
    s'.stopRequested = s.stopRequested ∧ s'.closing = s.closing ∧ s'.closed = s.closed ∧
      s.worker.isExited = false ∧ (s'.worker.isExited = true → s.stopRequested = true) := by
  cases processIO_cases hstep with
  | move worker _ _ _ hrunning hexited => exact ⟨rfl, rfl, rfl, hrunning, hexited⟩
  | take hworker | write hworker | finish hworker =>
      exact ⟨rfl, rfl, rfl, by rw [hworker]; rfl, nofun⟩

theorem stopped_step (h : Inv s) (hstopped : Stopped s)
    (hok : StopsDraining s action) (hstep : step s action = some s') : Stopped s' := by
  cases action with
  | save blob =>
    rw [step] at hstep
    split at hstep
    · obtain rfl := Option.some.inj hstep
      refine ⟨hstopped.closing, fun hstop => ?_, hstopped.exited, hstopped.closed⟩
      refine (hstopped.drained hstop).imp_right fun hdraining => ⟨hdraining.1, ?_⟩
      intro call hcall call' hcall' hqueued
      rcases Finset.mem_insert.mp hcall with rfl | hcall
      · exact h.accepted call' hcall'
      · exact hdraining.2 call hcall call' hcall' hqueued
    · obtain rfl := Option.some.inj hstep
      exact hstopped
  | count call =>
    rw [step] at hstep
    split at hstep
    · obtain rfl := Option.some.inj hstep
      refine ⟨hstopped.closing, fun hstop => ?_, hstopped.exited, hstopped.closed⟩
      have hclosing := hstopped.closing hstop
      simp only [State.WillDrain, State.taken, hclosing, if_true]
      refine (hstopped.drained hstop).imp_right fun hdraining => ⟨hdraining.1, ?_⟩
      exact fun call' hcall' => hdraining.2 call' (Finset.mem_of_mem_erase hcall')
    · cases hstep
  | close =>
    rw [step] at hstep
    split at hstep
    · obtain rfl := Option.some.inj hstep
      exact ⟨fun _ => rfl, hstopped.drained, hstopped.exited, hstopped.closed⟩
    · cases hstep
  | requestStop =>
    rw [step] at hstep
    split at hstep
    · rename_i hguard
      obtain rfl := Option.some.inj hstep
      refine ⟨fun _ => hguard.1, fun _ => ?_, fun _ => rfl, hstopped.closed⟩
      rw [StopsDraining, h.firstQueued] at hok
      exact hok
    · cases hstep
  | join =>
    rw [step] at hstep
    split at hstep
    · rename_i hguard
      obtain rfl := Option.some.inj hstep
      exact ⟨hstopped.closing, hstopped.drained, hstopped.exited, fun _ => hguard.2.1⟩
    · cases hstep
  | process =>
    obtain ⟨hstop, hclosing, hclosed, hrunning, hexited⟩ := processIO_frame hstep
    refine ⟨?_, ?_, ?_, ?_⟩
    · rw [hstop, hclosing]
      exact hstopped.closing
    · rw [hstop]
      exact fun hstop => willDrain_processIO h (hstopped.drained hstop) hstep
    · rw [hstop]
      exact hexited
    · rw [hclosed]
      intro hwas
      cases (hstopped.closed hwas).symm.trans hrunning

theorem reachable_inv (h : Reachable ok s) : Inv s := by
  induction h with
  | initial => exact inv_initial
  | step _ _ hstep ih => exact inv_step ih hstep

theorem reachable_stopped (h : Reachable StopsDraining s) : Stopped s := by
  induction h with
  | initial => exact ⟨nofun, nofun, nofun, nofun⟩
  | step hbefore hok hstep ih => exact stopped_step (reachable_inv hbefore) ih hok hstep

/-- What was accepted is written when `Close` returns, requests are written in the order of the
calls, and the counter is that of the requests when no call is between its critical sections. -/
theorem accepted_written {s : State Blob} (h : Reachable StopsDraining s) :
    (s.closed = true → ∀ call ∈ s.accepted, call < s.written.length) ∧
    s.written = s.saved.take s.written.length ∧
    (s.between = ∅ → s.numRequests = s.reqQueue.length + s.worker.inProgress) := by
  have hinv := reachable_inv h
  have hstopped := reachable_stopped h
  refine ⟨?_, hinv.written, ?_⟩
  · intro hclosed
    have hexited := hstopped.closed hclosed
    have hworker : s.worker = .exited := by
      cases hworker : s.worker with
      | exited => rfl
      | _ => simp [hworker, Worker.isExited] at hexited
    have htaken : s.taken = s.written.length := by
      rw [State.taken, hworker]
      exact Nat.add_zero _
    rw [← htaken]
    refine (hstopped.drained (hstopped.exited hexited)).resolve_right ?_
    rw [hworker]
    exact fun hdraining => by cases hdraining.1
  · intro hbetween
    have hcount := hinv.count
    rw [hbetween, Finset.card_empty] at hcount
    exact hcount

/-! ## A request that is lost -/

/-- The state after some actions that pass a test. -/
def runs (test : State Blob → Action Blob → Bool) (s : State Blob) :
    List (Action Blob) → Option (State Blob)
  | [] => some s
  | action :: actions => if test s action then (step s action).bind fun s' => runs test s' actions
      else none

theorem Reachable.runs {test : State Blob → Action Blob → Bool}
    (htest : ∀ s action, test s action = true → ok s action)
    {actions : List (Action Blob)} (h : Reachable ok s) (hruns : runs test s actions = some s') :
    Reachable ok s' := by
  induction actions generalizing s with
  | nil =>
    obtain rfl := Option.some.inj hruns
    exact h
  | cons action actions ih =>
    rw [CacheStorage.runs] at hruns
    split at hruns
    · obtain ⟨s₁, hstep, hrest⟩ := Option.bind_eq_some_iff.mp hruns
      exact ih (.step h (htest s action ‹_›) hstep) hrest
    · cases hruns

/-- A test for `StopsDraining`. -/
def stopsDrainingNow (s : State Blob) : Action Blob → Bool
  | .requestStop => s.worker.isDraining && decide (s.between = ∅)
  | _ => true

theorem stopsDraining_of_now (s : State Blob) (action : Action Blob)
    (h : stopsDrainingNow s action = true) :
    StopsDraining s action := by
  cases action with
  | requestStop =>
    simp only [stopsDrainingNow, Bool.and_eq_true, decide_eq_true_eq] at h
    refine .inr ⟨h.1, fun call hcall => ?_⟩
    rw [h.2] at hcall
    exact absurd hcall (Finset.notMem_empty call)
  | _ => trivial

/-- The worker is stopped in its inner loop. -/
def sampleDrained : List (Action ℕ) :=
  [.process, .save 7, .count 0, .process, .process, .close, .requestStop] ++
    List.replicate 6 .process ++ [.join]

theorem accepted_written_sample :
    (runs stopsDrainingNow initial sampleDrained).map (fun s => (s.closed, s.accepted, s.written)) =
      some (true, {0}, [7]) ∧
    ∀ s, runs stopsDrainingNow initial sampleDrained = some s → s.closed = true →
      ∀ call ∈ s.accepted, call < s.written.length := by
  refine ⟨by decide, fun s hs => ?_⟩
  exact (accepted_written (Reachable.initial.runs stopsDraining_of_now hs)).1

/-- The worker waits while a blob is saved, and is stopped before it looks at the queue. -/
def sampleLost : List (Action ℕ) :=
  [.process, .save 7, .count 0, .close, .requestStop, .process, .process, .join]

/-- `Close` returns, and the blob is not written. -/
theorem accepted_lost :
    ¬ ∀ s : State ℕ, Reachable (fun _ _ => True) s → s.closed = true →
      ∀ call ∈ s.accepted, call < s.written.length := by
  intro h
  cases hs : runs (fun _ _ => true) initial sampleLost with
  | none => exact absurd hs (by decide)
  | some s =>
    have hfacts : (runs (fun _ _ => true) initial sampleLost).map
      (fun s => (s.closed, s.accepted, s.written)) = some (true, {0}, []) := by decide
    rw [hs] at hfacts
    obtain ⟨hclosed, hrest⟩ := Prod.mk.inj (Option.some.inj hfacts)
    obtain ⟨haccepted, hwritten⟩ := Prod.mk.inj hrest
    have hreachable : Reachable (fun _ _ => True) s :=
      Reachable.initial.runs (fun _ _ _ => trivial) hs
    have hlt := h s hreachable hclosed 0 (by rw [haccepted]; decide)
    rw [hwritten] at hlt
    cases hlt

end PS4Droid.VideoCore.CacheStorage
