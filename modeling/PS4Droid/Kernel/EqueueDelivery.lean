import PS4Droid.Kernel.Equeue

/-!
# Event queues deliver what is pending

In the runs where every call finds something pending in the container that its path looks at,
nothing pending is missed. Both loops that fill the caller's array are `collect` over their
container, so what a call takes and what it leaves follows from the rules for `collect`.
-/

namespace PS4Droid.Kernel.Equeue

namespace EqueueEvent

variable {e left : EqueueEvent}

@[simp]
theorem key_triggerAs (e : EqueueEvent) (filter : Filter) (time data : UInt64) :
    (e.triggerAs filter time data).key = e.key := by
  unfold triggerAs triggerDisplay
  dsimp only
  split_ifs <;> rfl

@[simp]
theorem isTriggered_triggerAs (e : EqueueEvent) (filter : Filter) (time data : UInt64) :
    (e.triggerAs filter time data).isTriggered = true := by
  unfold triggerAs triggerDisplay
  dsimp only
  split_ifs <;> rfl

@[simp]
theorem triggers_triggerAs (e : EqueueEvent) (filter : Filter) (time data : UInt64) :
    (e.triggerAs filter time data).triggers = e.triggers + 1 := by
  unfold triggerAs triggerDisplay
  dsimp only
  split_ifs <;> rfl

/-- A returned event stays unless it is one-shot, and a clear event stays without its trigger. -/
theorem afterReturn_eq_some (h : e.afterReturn = some left) :
    left.key = e.key ∧ left.triggers = 0 ∧ e.isOneShot = false ∧ left.isClear = e.isClear ∧
      (e.isClear = true → left.isTriggered = false) := by
  unfold afterReturn at h
  cases hclear : e.isClear <;> simp only [hclear, if_true, Bool.false_eq_true, if_false] at h
  all_goals
    split at h
    · cases h
    · rename_i honeShot
      cases h
      exact ⟨rfl, rfl, Bool.eq_false_iff.mpr honeShot, hclear, by simp [clear]⟩

/-- The trigger of an event is there as long as it has not been returned since, and that of a clear
event no longer. -/
structure Sound (e : EqueueEvent) : Prop where
  kept : 0 < e.triggers → e.isTriggered = true
  fresh : e.isClear = true → e.isTriggered = true → 0 < e.triggers

theorem sound_afterReturn (h : e.afterReturn = some left) : left.Sound where
  kept hpos := by
    have := (afterReturn_eq_some h).2.1
    omega
  fresh hclear htriggered := by
    obtain ⟨-, -, -, heq, hfalse⟩ := afterReturn_eq_some h
    rw [hfalse (heq ▸ hclear)] at htriggered
    cases htriggered

theorem sound_triggerAs (e : EqueueEvent) (filter : Filter) (time data : UInt64) :
    (e.triggerAs filter time data).Sound where
  kept _ := isTriggered_triggerAs e filter time data
  fresh _ _ := by simp

end EqueueEvent

/-- What the call takes out of the events, and what stays. -/
abbrev takeTriggered (num : ℕ) (events : List EqueueEvent) : List EqueueEvent × List EqueueEvent :=
  collect EqueueEvent.isTriggered EqueueEvent.afterReturn num events

/-- What the call takes out of the small timers, and what stays. -/
abbrev takeExpired (now num : ℕ) (timers : List SmallTimer) : List SmallTimer × List SmallTimer :=
  collect (SmallTimer.expired now) (fun _ => none) num timers

theorem getTriggeredEvents_eq {num count : ℕ} (h : count < num) (events : List EqueueEvent) :
    getTriggeredEvents num count events = ((takeTriggered (num - count) events).1.map (·.event),
        (takeTriggered (num - count) events).2) := by
  induction events generalizing count with
  | nil => simp [getTriggeredEvents]
  | cons e events ih =>
    obtain ⟨room, hroom⟩ : ∃ room, num - count = room + 1 := ⟨num - count - 1, by omega⟩
    cases he : e.isTriggered with
    | true =>
      rw [hroom, takeTriggered, collect_cons_pos he, getTriggeredEvents, if_pos he]
      by_cases hlast : count + 1 = num
      · obtain rfl : room = 0 := by omega
        simp [hlast]
      · have hrest : num - (count + 1) = room := by omega
        rw [if_neg hlast, ih (by omega), hrest]
        rfl
    | false =>
      rw [hroom, takeTriggered, collect_cons_neg he, getTriggeredEvents, if_neg (by simp [he]),
        ih h, hroom]

theorem getExpiredTimers_eq (now num count : ℕ) (timers : List SmallTimer) :
    getExpiredTimers now num count timers = ((takeExpired now (num - count) timers).1.map (·.event),
        (takeExpired now (num - count) timers).2) := by
  induction timers generalizing count with
  | nil => simp [getExpiredTimers]
  | cons st timers ih =>
    rw [getExpiredTimers]
    by_cases hcount : count < num
    · obtain ⟨room, hroom⟩ : ∃ room, num - count = room + 1 := ⟨num - count - 1, by omega⟩
      rw [if_pos hcount, hroom]
      cases hst : st.expired now with
      | true =>
        have hrest : num - (count + 1) = room := by omega
        rw [takeExpired, collect_cons_pos hst, if_pos rfl, ih, hrest]
        rfl
      | false =>
        rw [takeExpired, collect_cons_neg hst, if_neg (by simp), ih, hroom]
    · have hroom : num - count = 0 := by omega
      rw [if_neg hcount, hroom, takeExpired, collect_zero]
      rfl

namespace System

variable {ι : Type} {s : System ι} {t : ι} {num : ℕ}

@[simp]
theorem threads_setThread_self [DecidableEq ι] (s : System ι) (t : ι) (phase : Phase) :
    (s.setThread t phase).threads t = phase := by
  simp [setThread]

theorem threads_setThread_of_ne [DecidableEq ι] {t' : ι} (h : t ≠ t') (phase : Phase) :
    (s.setThread t' phase).threads t = s.threads t := by
  simp [setThread, Function.update_of_ne h]

theorem returnTriggered_eq [DecidableEq ι] (hnum : 1 ≤ num) : s.returnTriggered t num =
    ({ s.setThread t .idle with events := (takeTriggered num s.events).2 },
      some (t, (takeTriggered num s.events).1.map (·.event))) := by
  rw [returnTriggered, getTriggeredEvents_eq (by omega)]
  rfl

theorem tryTriggered_eq [DecidableEq ι] (hnum : 1 ≤ num) (waitEnd : Option ℕ) :
    s.tryTriggered t num waitEnd =
    if (takeTriggered num s.events).1 ≠ [] then s.returnTriggered t num
    else (s.setThread t (.blocked num waitEnd false), none) := by
  rw [tryTriggered, getTriggeredEvents_eq (by omega)]
  simp

/-- An event that is already there gets the new user data, another one comes in at the end. -/
theorem events_addEvent (s : System ι) (event : OrbisKernelEvent) :
    (s.addEvent event).events = (s.events.map fun e =>
        if e.key = (event.ident, event.filter) then
          { e with event := { e.event with udata := event.udata } }
        else e) ∨
      (∀ e ∈ s.events, e.key ≠ (event.ident, event.filter)) ∧ ∃ new : EqueueEvent,
        new.key = (event.ident, event.filter) ∧ new.isTriggered = false ∧ new.triggers = 0 ∧
        (s.addEvent event).events = s.events ++ [new] := by
  unfold addEvent
  dsimp only
  by_cases hold : s.events.any (fun e => e.key = (event.ident, event.filter)) = true
  · left
    rw [if_pos hold]
    simp only [decide_eq_true_eq]
  · right
    rw [if_neg hold]
    refine ⟨fun e he heq => hold (List.any_eq_true.mpr ⟨e, he, decide_eq_true heq⟩), _,
      ?_, ?_, ?_, rfl⟩ <;> rfl

@[simp]
theorem smallTimers_addEvent (s : System ι) (event : OrbisKernelEvent) :
    (s.addEvent event).smallTimers = s.smallTimers := by
  unfold addEvent
  dsimp only
  split <;> rfl

@[simp]
theorem smallTimers_notify [DecidableEq ι] (s : System ι) (notified : Option ι) :
    (s.notify notified).smallTimers = s.smallTimers := by
  unfold notify
  split
  · rfl
  · split <;> rfl

theorem takeTriggered_ne_nil (hnum : 1 ≤ num) :
    (takeTriggered num s.events).1 ≠ [] ↔ s.hasTriggered = true := by
  rw [hasTriggered, List.any_eq_true]
  constructor
  · intro hne
    obtain ⟨e, he⟩ := List.exists_mem_of_ne_nil _ hne
    exact ⟨e, mem_of_mem_collect he⟩
  · rintro ⟨e, he, htriggered⟩
    exact collect_ne_nil he htriggered hnum

theorem takeExpired_ne_nil (hnum : 1 ≤ num) {order : List SmallTimer}
    (horder : order.Perm s.smallTimers) :
    (takeExpired s.now num order).1 ≠ [] ↔ s.hasExpired = true := by
  rw [hasExpired, List.any_eq_true]
  constructor
  · intro hne
    obtain ⟨st, hst⟩ := List.exists_mem_of_ne_nil _ hne
    exact ⟨st, horder.subset (mem_of_mem_collect hst).1, (mem_of_mem_collect hst).2⟩
  · rintro ⟨st, hst, hexpired⟩
    exact collect_ne_nil (horder.symm.subset hst) hexpired hnum

/-- The number of entries the caller of a step has room for. -/
def room (s : System ι) : Op ι → ℕ
  | .waitForEvents _ num _ => num
  | .spin t _ | .wake t | .timeOut t =>
    match s.threads t with
    | .idle => 0
    | .spinning num _ | .blocked num _ _ => num
  | _ => 0

/-- The step lets a call of the thread look at the container of its path. -/
def Looks (s : System ι) (t : ι) : Op ι → Prop
  | .waitForEvents t' _ timo => t' = t ∧ (timo = some 0 ∨ s.smallTimers = [])
  | .spin t' _ => t' = t ∧ ∃ num waitEnd, s.threads t = .spinning num waitEnd
  | .wake t' => t' = t ∧ ∃ num waitEnd notified, s.threads t = .blocked num waitEnd notified
  | .timeOut t' => t' = t ∧ ∃ num deadline notified,
      s.threads t = .blocked num (some deadline) notified ∧ deadline ≤ s.now
  | _ => False

end System

/-- The entry of an event that was triggered. A one-shot event has left the queue, and a clear event
has lost its trigger. -/
def FromEvent {ι : Type} (s s' : System ι) (entry : OrbisKernelEvent) : Prop :=
  ∃ e ∈ s.events, e.isTriggered = true ∧ e.event = entry ∧
    (e.isOneShot = true → ∀ e' ∈ s'.events, e'.key ≠ e.key) ∧
    (e.isClear = true → ∀ e' ∈ s'.events, e'.key = e.key → e'.isTriggered = false)

/-- The entry of a small timer that had expired and has left the queue. -/
def FromTimer {ι : Type} (s s' : System ι) (entry : OrbisKernelEvent) : Prop :=
  ∃ st ∈ s.smallTimers, st.expired s.now = true ∧ st.event = entry ∧
    ∀ st' ∈ s'.smallTimers, st'.event.ident ≠ entry.ident

/-- What a step returns to a caller. -/
structure Returned {ι : Type} (s s' : System ι) (room : ℕ) (entries : List OrbisKernelEvent) :
    Prop where
  length_le : entries.length ≤ room
  distinct : (entries.map fun entry => (entry.ident, entry.filter)).Nodup
  pending : ∀ entry ∈ entries, FromEvent s s' entry ∨ FromTimer s s' entry

/-- An event keeps its trigger, or is returned. -/
def EventKept {ι : Type} (e : EqueueEvent) (s' : System ι)
    (result : Option (ι × List OrbisKernelEvent)) : Prop :=
  (∃ t entries, result = some (t, entries) ∧ e.event ∈ entries) ∨
    ∃ e' ∈ s'.events, e'.key = e.key ∧ e'.isTriggered = true

/-- A small timer stays in the queue, or is returned. -/
def TimerKept {ι : Type} (st : SmallTimer) (s' : System ι)
    (result : Option (ι × List OrbisKernelEvent)) : Prop :=
  (∃ t entries, result = some (t, entries) ∧ st.event ∈ entries) ∨ st ∈ s'.smallTimers

/-- The step takes the event with this key out of the queue. -/
def Op.removes {ι : Type} (key : UInt64 × Filter) : Op ι → Prop
  | .removeEvent id filter => (id, filter) = key
  | _ => False

/-- The step takes the small timer with this id out of the queue, or sets it again. -/
def Op.resets {ι : Type} (id : UInt64) : Op ι → Prop
  | .removeSmallTimer id' => id' = id
  | .addSmallTimer event _ => event.ident = id
  | _ => False

/-- The delivery of events from one state on. -/
structure Delivers {ι : Type} [DecidableEq ι] (s : System ι) : Prop where
  unique : (s.events.map EqueueEvent.key).Nodup
  runnable : s.hasTriggered = true ∨ s.hasExpired = true → ∀ t, (s.threads t).isAsleep = false
  returns : ∀ op t, s.Enabled op → s.Served op → s.Looks t op →
    s.hasTriggered = true ∨ s.hasExpired = true →
    ∃ entries, entries ≠ [] ∧ (s.step op).2 = some (t, entries)
  returned : ∀ op t entries, s.Enabled op → (s.step op).2 = some (t, entries) →
    Returned s (s.step op).1 (s.room op) entries
  fresh : ∀ e ∈ s.events, e.isClear = true → e.isTriggered = true → 0 < e.triggers
  kept : ∀ op, s.Enabled op → ∀ e ∈ s.events, e.isTriggered = true → ¬ op.removes e.key →
    EventKept e (s.step op).1 (s.step op).2
  keptTimer : ∀ op, s.Enabled op → ∀ st ∈ s.smallTimers, ¬ op.resets st.event.ident →
    TimerKept st (s.step op).1 (s.step op).2

/-- A waiting call asks for at least one entry. -/
def Phase.HasRoom : Phase → Prop
  | .idle => True
  | .spinning num _ | .blocked num _ _ => 1 ≤ num

structure Inv {ι : Type} (s : System ι) : Prop where
  keys : (s.events.map EqueueEvent.key).Nodup
  idents : (s.smallTimers.map (·.event.ident)).Nodup
  sound : ∀ e ∈ s.events, e.Sound
  awake : s.hasTriggered = true → ∀ t, (s.threads t).isAsleep = false
  hasRoom : ∀ t, (s.threads t).HasRoom

section Steps

variable {ι : Type} [DecidableEq ι] {s : System ι} {t : ι} {op : Op ι}

/-- What a step of a call does. -/
inductive CallStep (s : System ι) (num : ℕ) : System ι × Option (ι × List OrbisKernelEvent) →
    Prop where
  | triggered (t : ι) : 1 ≤ num → CallStep s num (s.returnTriggered t num)
  | expired (t : ι) (order : List SmallTimer) : 1 ≤ num → order.Perm s.smallTimers →
      CallStep s num ({ s.setThread t .idle with smallTimers := (takeExpired s.now num order).2 },
        some (t, (takeExpired s.now num order).1.map (·.event)))
  | waits (t : ι) (phase : Phase) : phase.HasRoom →
      (phase.isAsleep = true → s.hasTriggered = false) →
      CallStep s num (s.setThread t phase, none)
  | gaveUp (t : ι) : CallStep s num (s.setThread t .idle, some (t, []))

def Op.isCall : Op ι → Bool
  | .waitForEvents _ _ _ | .spin _ _ | .wake _ | .timeOut _ => true
  | _ => false

theorem CallStep.tryTriggered {num : ℕ} (hnum : 1 ≤ num) (t : ι) (waitEnd : Option ℕ) :
    CallStep s num (s.tryTriggered t num waitEnd) := by
  rw [System.tryTriggered_eq hnum]
  split_ifs with hne
  · exact .triggered t hnum
  · exact .waits t (.blocked num waitEnd false) hnum fun _ =>
      Bool.eq_false_iff.mpr fun htriggered =>
        hne ((System.takeTriggered_ne_nil hnum).mpr htriggered)

theorem Inv.callStep_refl (h : Inv s) (num : ℕ) (t : ι) : CallStep s num (s, none) := by
  have hself : s.setThread t (s.threads t) = s := by simp [System.setThread]
  have hawake : (s.threads t).isAsleep = true → s.hasTriggered = false := by
    intro hasleep
    rw [← Bool.not_eq_true]
    intro htriggered
    rw [h.awake htriggered t] at hasleep
    cases hasleep
  have hstep : CallStep s num (s.setThread t (s.threads t), none) :=
    .waits t (s.threads t) (h.hasRoom t) hawake
  rwa [hself] at hstep

theorem Inv.callStep (h : Inv s) (henabled : s.Enabled op) (hcall : op.isCall = true) :
    CallStep s (s.room op) (s.step op) := by
  cases op with
  | waitForEvents t num timo =>
    simp only [System.step, System.waitForEvents, System.room]
    split_ifs with hpoll hempty
    · exact .triggered t henabled.2
    · exact .waits t (.spinning num _) henabled.2 nofun
    · exact .tryTriggered henabled.2 t _
  | spin t order =>
    have hnum := h.hasRoom t
    cases hphase : s.threads t <;> simp only [System.step, System.spin, System.room, hphase]
    case spinning num waitEnd =>
      rw [hphase] at hnum
      simp only [getExpiredTimers_eq, Nat.sub_zero]
      split_ifs with hne hlate
      · exact .expired t order hnum henabled
      · exact .gaveUp t
      · exact h.callStep_refl _ t
    all_goals exact h.callStep_refl _ t
  | wake t =>
    have hnum := h.hasRoom t
    cases hphase : s.threads t <;> simp only [System.step, System.wake, System.room, hphase]
    case blocked num waitEnd notified =>
      rw [hphase] at hnum
      exact .tryTriggered hnum t waitEnd
    all_goals exact h.callStep_refl _ t
  | timeOut t =>
    have hnum := h.hasRoom t
    cases hphase : s.threads t <;> simp only [System.step, System.timeOut, System.room, hphase]
    case blocked num waitEnd notified =>
      rw [hphase] at hnum
      split_ifs with hlate
      · exact .triggered t hnum
      · exact h.callStep_refl _ t
    all_goals exact h.callStep_refl _ t
  | _ => cases hcall

/-- What a return of triggered events gives to the caller and leaves in the queue. -/
theorem Inv.returned_triggered (h : Inv s) {num : ℕ} (hnum : 1 ≤ num) :
    Returned s (s.returnTriggered t num).1 num ((takeTriggered num s.events).1.map (·.event)) where
  length_le := by
    rw [List.length_map]
    exact collect_length_le
  distinct := by
    have hsub : (takeTriggered num s.events).1.Sublist s.events := collect_taken_sublist
    rw [List.map_map]
    exact h.keys.sublist (hsub.map _)
  pending := by
    have hkey : ∀ e left : EqueueEvent, e.afterReturn = some left → left.key = e.key :=
      fun e left hleft => (EqueueEvent.afterReturn_eq_some hleft).1
    rw [System.returnTriggered_eq hnum]
    intro entry hentry
    obtain ⟨e, he, rfl⟩ := List.mem_map.mp hentry
    refine .inl ⟨e, (mem_of_mem_collect he).1, (mem_of_mem_collect he).2, rfl, ?_, ?_⟩
    · intro honeShot e' he' heq
      have hleft := collect_rest_of_taken hkey h.keys he he' heq
      rw [(EqueueEvent.afterReturn_eq_some hleft).2.2.1] at honeShot
      cases honeShot
    · intro hclear e' he' heq
      have hleft := collect_rest_of_taken hkey h.keys he he' heq
      exact (EqueueEvent.afterReturn_eq_some hleft).2.2.2.2 hclear

omit [DecidableEq ι] in
/-- What a return of expired small timers gives to the caller and leaves in the queue. -/
theorem Inv.returned_expired (h : Inv s) {s' : System ι} {num : ℕ} {order : List SmallTimer}
    (horder : order.Perm s.smallTimers) (hleft : s'.smallTimers = (takeExpired s.now num order).2) :
    Returned s s' num ((takeExpired s.now num order).1.map (·.event)) where
  length_le := by
    rw [List.length_map]
    exact collect_length_le
  distinct := by
    have hsub : (takeExpired s.now num order).1.Sublist order := collect_taken_sublist
    have hidents : (order.map (·.event.ident)).Nodup := (horder.map _).nodup_iff.mpr h.idents
    refine List.Nodup.of_map Prod.fst ?_
    rw [List.map_map, List.map_map]
    exact hidents.sublist (hsub.map _)
  pending := by
    have hkey : ∀ a b : SmallTimer, (none : Option SmallTimer) = some b →
      b.event.ident = a.event.ident :=
      fun _ _ hnone => nomatch hnone
    have hidents : (order.map (·.event.ident)).Nodup := (horder.map _).nodup_iff.mpr h.idents
    intro entry hentry
    obtain ⟨st, hst, rfl⟩ := List.mem_map.mp hentry
    refine .inr ⟨st, horder.subset (mem_of_mem_collect hst).1, (mem_of_mem_collect hst).2, rfl, ?_⟩
    intro st' hst' heq
    rw [hleft] at hst'
    cases collect_rest_of_taken hkey hidents hst hst' heq

theorem Inv.returned (h : Inv s) (henabled : s.Enabled op) {entries : List OrbisKernelEvent}
    (hreturn : (s.step op).2 = some (t, entries)) :
    Returned s (s.step op).1 (s.room op) entries := by
  have hcall : op.isCall = true := by cases op <;> first | rfl | cases hreturn
  generalize hresult : s.step op = result at *
  cases hresult ▸ h.callStep henabled hcall with
  | triggered t' hnum =>
    have hreturned := h.returned_triggered (t := t') hnum
    rw [System.returnTriggered_eq hnum] at hreturn hreturned ⊢
    cases hreturn
    exact hreturned
  | expired t' order hnum horder =>
    cases hreturn
    exact h.returned_expired horder rfl
  | waits => cases hreturn
  | gaveUp =>
    cases hreturn
    exact ⟨Nat.zero_le _, List.nodup_nil, nofun⟩

/-- The steps outside the calls keep the trigger of an event that they do not remove. -/
theorem eventKept_step (hcall : op.isCall = false) {e : EqueueEvent} (he : e ∈ s.events)
    (htriggered : e.isTriggered = true) (hremoves : ¬ op.removes e.key) :
    EventKept e (s.step op).1 (s.step op).2 := by
  cases op with
  | addEvent event =>
    right
    obtain hevents | ⟨-, new, -, -, -, hevents⟩ := s.events_addEvent event
    · simp only [System.step, hevents]
      refine ⟨_, List.mem_map_of_mem he, ?_⟩
      split_ifs <;> exact ⟨rfl, htriggered⟩
    · simp only [System.step, hevents]
      exact ⟨e, List.mem_append_left _ he, rfl, htriggered⟩
  | removeEvent id filter =>
    refine .inr ⟨e, ?_, rfl, htriggered⟩
    refine (List.mem_eraseP_of_neg ?_).mpr he
    simpa [Op.removes, eq_comm] using hremoves
  | triggerEvent ident filter time data notified =>
    refine .inr ⟨_, List.mem_map_of_mem he, ?_⟩
    split_ifs
    · simp
    · exact ⟨rfl, htriggered⟩
  | addSmallTimer | removeSmallTimer | advance => exact .inr ⟨e, he, rfl, htriggered⟩
  | _ => cases hcall

theorem Inv.eventKept (h : Inv s) (henabled : s.Enabled op) {e : EqueueEvent} (he : e ∈ s.events)
    (htriggered : e.isTriggered = true) (hremoves : ¬ op.removes e.key) :
    EventKept e (s.step op).1 (s.step op).2 := by
  cases hcall : op.isCall with
  | false => exact eventKept_step hcall he htriggered hremoves
  | true =>
    generalize hresult : s.step op = result
    cases hresult ▸ h.callStep henabled hcall with
    | triggered t hnum =>
      rw [System.returnTriggered_eq hnum]
      have hmem : e ∈ (takeTriggered (s.room op) s.events).1 ∨
          e ∈ (takeTriggered (s.room op) s.events).2 := mem_collect_or he
      obtain htaken | hleft := hmem
      · exact .inl ⟨t, _, rfl, List.mem_map_of_mem htaken⟩
      · exact .inr ⟨e, hleft, rfl, htriggered⟩
    | expired | waits | gaveUp => exact .inr ⟨e, he, rfl, htriggered⟩

theorem Inv.timerKept (h : Inv s) (henabled : s.Enabled op) {st : SmallTimer}
    (hst : st ∈ s.smallTimers) (hresets : ¬ op.resets st.event.ident) :
    TimerKept st (s.step op).1 (s.step op).2 := by
  cases hcall : op.isCall with
  | false =>
    right
    cases op with
    | addEvent event =>
      rw [System.step, System.smallTimers_addEvent]
      exact hst
    | addSmallTimer event time =>
      refine List.mem_cons_of_mem _ (List.mem_filter.mpr ⟨hst, ?_⟩)
      exact decide_eq_true fun heq => hresets heq.symm
    | removeSmallTimer id =>
      refine List.mem_filter.mpr ⟨hst, ?_⟩
      exact decide_eq_true fun heq => hresets heq.symm
    | triggerEvent ident filter time data notified =>
      simp only [System.step, System.triggerEvent, System.smallTimers_notify]
      exact hst
    | removeEvent | advance => exact hst
    | _ => cases hcall
  | true =>
    generalize hresult : s.step op = result
    cases hresult ▸ h.callStep henabled hcall with
    | triggered t hnum =>
      rw [System.returnTriggered_eq hnum]
      exact .inr hst
    | expired t order hnum horder =>
      have hmem : st ∈ (takeExpired s.now (s.room op) order).1 ∨
          st ∈ (takeExpired s.now (s.room op) order).2 := mem_collect_or (horder.symm.subset hst)
      obtain htaken | hleft := hmem
      · exact .inl ⟨t, _, rfl, List.mem_map_of_mem htaken⟩
      · exact .inr hleft
    | waits | gaveUp => exact .inr hst

/-- A call that looks at its container while something is pending there returns it. -/
theorem Inv.returns (h : Inv s) (hevents : s.EventsServed) (henabled : s.Enabled op)
    (hserved : s.Served op) (hlooks : s.Looks t op)
    (hpending : s.hasTriggered = true ∨ s.hasExpired = true) :
    ∃ entries, entries ≠ [] ∧ (s.step op).2 = some (t, entries) := by
  have htriggered : ∀ num, 1 ≤ num → s.hasTriggered = true →
      ∃ entries, entries ≠ [] ∧ (s.returnTriggered t num).2 = some (t, entries) := by
    intro num hnum hsome
    rw [System.returnTriggered_eq hnum]
    refine ⟨_, ?_, rfl⟩
    rw [Ne, List.map_eq_nil_iff]
    exact (System.takeTriggered_ne_nil hnum).mpr hsome
  have htry : ∀ num waitEnd, 1 ≤ num → s.hasTriggered = true →
      ∃ entries, entries ≠ [] ∧ (s.tryTriggered t num waitEnd).2 = some (t, entries) := by
    intro num waitEnd hnum hsome
    rw [System.tryTriggered_eq hnum, if_pos ((System.takeTriggered_ne_nil hnum).mpr hsome)]
    exact htriggered num hnum hsome
  have hnum := h.hasRoom t
  cases op with
  | waitForEvents t' num timo =>
    obtain ⟨rfl, hpath⟩ := hlooks
    by_cases hpoll : timo = some 0
    · simp only [System.step, System.waitForEvents, if_pos hpoll]
      exact htriggered num henabled.2 (hpending.elim id (hserved hpoll))
    · have hempty := hpath.resolve_left hpoll
      have hsome : s.hasTriggered = true := by
        refine hpending.resolve_right ?_
        simp [System.hasExpired, hempty]
      simp only [System.step, System.waitForEvents, if_neg hpoll, hempty, ne_eq, not_true_eq_false,
        if_false]
      exact htry num _ henabled.2 hsome
  | spin t' order =>
    obtain ⟨rfl, num, waitEnd, hphase⟩ := hlooks
    rw [hphase] at hnum
    have hne := (System.takeExpired_ne_nil hnum henabled).mpr (hpending.elim hserved id)
    simp only [System.step, System.spin, hphase, getExpiredTimers_eq, Nat.sub_zero, ne_eq,
      List.map_eq_nil_iff, hne, not_false_eq_true, if_true]
    exact ⟨_, by rwa [List.map_eq_nil_iff], rfl⟩
  | wake t' =>
    obtain ⟨rfl, num, waitEnd, notified, hphase⟩ := hlooks
    rw [hphase] at hnum
    have hsome := hpending.elim id (hevents t' (by rw [hphase]; rfl))
    simp only [System.step, System.wake, hphase]
    exact htry num waitEnd hnum hsome
  | timeOut t' =>
    obtain ⟨rfl, num, deadline, notified, hphase, hlate⟩ := hlooks
    rw [hphase] at hnum
    have hsome := hpending.elim id (hevents t' (by rw [hphase]; rfl))
    simp only [System.step, System.timeOut, hphase, Option.any_some, hlate, decide_true, if_true]
    exact htriggered num hnum hsome
  | _ => cases hlooks

theorem System.notify_cases (s : System ι) (notified : Option ι) :
    (s.notify notified = s ∧ ∀ t, notified = some t → (s.threads t).isAsleep = false) ∨
      ∃ t num waitEnd old, notified = some t ∧ s.threads t = .blocked num waitEnd old ∧
        s.notify notified = s.setThread t (.blocked num waitEnd true) := by
  cases notified with
  | none => exact .inl ⟨rfl, nofun⟩
  | some t =>
    cases hphase : s.threads t with
    | blocked num waitEnd old =>
      refine .inr ⟨t, num, waitEnd, old, rfl, hphase, ?_⟩
      simp only [notify, hphase]
    | _ =>
      refine .inl ⟨by simp only [notify, hphase], ?_⟩
      rintro _ ⟨⟩
      rw [hphase]
      rfl

variable {notified : Option ι}

theorem System.asleep_notify (h : ((s.notify notified).threads t).isAsleep = true) :
    (s.threads t).isAsleep = true ∧ notified ≠ some t := by
  obtain ⟨hsame, hawake⟩ | ⟨t', num, waitEnd, old, rfl, hphase, hmoved⟩ := s.notify_cases notified
  · rw [hsame] at h
    refine ⟨h, fun hsome => ?_⟩
    rw [hawake t hsome] at h
    cases h
  · rw [hmoved] at h
    by_cases heq : t = t'
    · subst heq
      rw [threads_setThread_self] at h
      cases h
    · rw [threads_setThread_of_ne heq] at h
      exact ⟨h, fun hsome => heq (Option.some.inj hsome).symm⟩

theorem System.hasRoom_notify (h : ∀ t, (s.threads t).HasRoom) (notified : Option ι) (t : ι) :
    ((s.notify notified).threads t).HasRoom := by
  obtain ⟨hsame, -⟩ | ⟨t', num, waitEnd, old, -, hphase, hmoved⟩ := s.notify_cases notified
  · rw [hsame]
    exact h t
  · have hroom := h t'
    rw [hphase] at hroom
    rw [hmoved]
    by_cases heq : t = t'
    · subst heq
      rwa [threads_setThread_self]
    · rw [threads_setThread_of_ne heq]
      exact h t

theorem Inv.setThread (h : Inv s) (t : ι) (phase : Phase) (hroom : phase.HasRoom)
    (hasleep : phase.isAsleep = true → s.hasTriggered = false) : Inv (s.setThread t phase) where
  keys := h.keys
  idents := h.idents
  sound := h.sound
  awake htriggered t' := by
    by_cases heq : t' = t
    · subst heq
      rw [System.threads_setThread_self, ← Bool.not_eq_true]
      intro hphase
      rw [show s.hasTriggered = true from htriggered] at hasleep
      cases hasleep hphase
    · rw [System.threads_setThread_of_ne heq]
      exact h.awake htriggered t'
  hasRoom t' := by
    by_cases heq : t' = t
    · subst heq
      rwa [System.threads_setThread_self]
    · rw [System.threads_setThread_of_ne heq]
      exact h.hasRoom t'

omit [DecidableEq ι] in
theorem Inv.withEvents (h : Inv s) {events : List EqueueEvent}
    (hkeys : (events.map EqueueEvent.key).Nodup) (hsound : ∀ e ∈ events, e.Sound)
    (htriggered : ∀ e ∈ events, e.isTriggered = true → s.hasTriggered = true) :
    Inv { s with events := events } where
  keys := hkeys
  idents := h.idents
  sound := hsound
  awake hsome := by
    obtain ⟨e, he, hetriggered⟩ := List.any_eq_true.mp hsome
    exact h.awake (htriggered e he hetriggered)
  hasRoom := h.hasRoom

omit [DecidableEq ι] in
theorem Inv.withTimers (h : Inv s) {smallTimers : List SmallTimer} (now : ℕ)
    (hidents : (smallTimers.map (·.event.ident)).Nodup) :
    Inv { s with smallTimers := smallTimers, now := now } :=
  ⟨h.keys, hidents, h.sound, h.awake, h.hasRoom⟩

omit [DecidableEq ι] in
theorem System.hasTriggered_of_mem {e : EqueueEvent} (he : e ∈ s.events)
    (htriggered : e.isTriggered = true) : s.hasTriggered = true :=
  List.any_eq_true.mpr ⟨e, he, htriggered⟩

omit [DecidableEq ι] in
theorem Inv.addEvent (h : Inv s) (event : OrbisKernelEvent) : Inv (s.addEvent event) := by
  have hcongr : s.addEvent event = { s with events := (s.addEvent event).events } := by
    unfold System.addEvent
    dsimp only
    split <;> rfl
  rw [hcongr]
  obtain hevents | ⟨hnew, new, hkey, huntriggered, htriggers, hevents⟩ := s.events_addEvent event
  · rw [hevents]
    refine h.withEvents ?_ ?_ ?_
    · have hsame : (fun e : EqueueEvent => (if e.key = (event.ident, event.filter) then
          { e with event := { e.event with udata := event.udata } } else e).key) =
          EqueueEvent.key := by
        funext e
        split <;> rfl
      rw [List.map_map, Function.comp_def, hsame]
      exact h.keys
    · intro e' he'
      obtain ⟨e, he, rfl⟩ := List.mem_map.mp he'
      split
      · exact ⟨(h.sound e he).kept, (h.sound e he).fresh⟩
      · exact h.sound e he
    · intro e' he' htriggered
      obtain ⟨e, he, rfl⟩ := List.mem_map.mp he'
      refine System.hasTriggered_of_mem he ?_
      split at htriggered <;> exact htriggered
  · rw [hevents]
    refine h.withEvents ?_ ?_ ?_
    · rw [List.map_append, List.map_singleton, hkey]
      refine h.keys.append (List.nodup_singleton _) ?_
      simpa using hnew
    · intro e he
      obtain he | he := List.mem_append.mp he
      · exact h.sound e he
      · obtain rfl := List.mem_singleton.mp he
        refine ⟨fun hpos => ?_, fun _ htriggered => ?_⟩
        · omega
        · rw [huntriggered] at htriggered
          cases htriggered
    · intro e he htriggered
      obtain he | he := List.mem_append.mp he
      · exact System.hasTriggered_of_mem he htriggered
      · obtain rfl := List.mem_singleton.mp he
        rw [huntriggered] at htriggered
        cases htriggered

omit [DecidableEq ι] in
theorem Inv.removeEvent (h : Inv s) (id : UInt64) (filter : Filter) :
    Inv (s.removeEvent id filter) := by
  have hsub : (s.events.eraseP fun e => e.key = (id, filter)).Sublist s.events :=
    List.eraseP_sublist
  exact h.withEvents (h.keys.sublist (hsub.map _)) (fun e he => h.sound e (hsub.subset he))
    fun e he => System.hasTriggered_of_mem (hsub.subset he)

theorem Inv.triggerEvent (h : Inv s) {ident : UInt64} {filter : Filter} {time data : UInt64}
    (henabled : s.Enabled (.triggerEvent ident filter time data notified))
    (hserved : s.Served (.triggerEvent ident filter time data notified)) :
    Inv (s.triggerEvent ident filter time data notified) where
  keys := by
    have hsame : (fun e : EqueueEvent => (if e.key = (ident, filter) then
        e.triggerAs filter time data else e).key) = EqueueEvent.key := by
      funext e
      split <;> simp
    simp only [System.triggerEvent, List.map_map, Function.comp_def, hsame]
    exact h.keys
  idents := by
    simp only [System.triggerEvent, System.smallTimers_notify]
    exact h.idents
  sound e' he' := by
    obtain ⟨e, he, rfl⟩ := List.mem_map.mp he'
    split
    · exact e.sound_triggerAs filter time data
    · exact h.sound e he
  awake hsome t := by
    rw [← Bool.not_eq_true]
    intro hasleep
    obtain ⟨hbefore, hne⟩ := System.asleep_notify hasleep
    by_cases hfound : s.events.any (·.key = (ident, filter)) = true
    · cases notified with
      | none =>
        rw [henabled t] at hbefore
        cases hbefore
      | some t' => exact hne (congrArg some (hserved hfound t' t henabled hbefore))
    · obtain ⟨e', he', htriggered⟩ := List.any_eq_true.mp hsome
      obtain ⟨e, he, rfl⟩ := List.mem_map.mp he'
      rw [if_neg fun hkey =>
        hfound (List.any_eq_true.mpr ⟨e, he, decide_eq_true hkey⟩)] at htriggered
      rw [h.awake (System.hasTriggered_of_mem he htriggered) t] at hbefore
      cases hbefore
  hasRoom := System.hasRoom_notify h.hasRoom notified

theorem Inv.returnTriggered (h : Inv s) {num : ℕ} (hnum : 1 ≤ num) (t : ι) :
    Inv (s.returnTriggered t num).1 := by
  have hkey : ∀ e left : EqueueEvent, e.afterReturn = some left → left.key = e.key :=
    fun e left hleft => (EqueueEvent.afterReturn_eq_some hleft).1
  rw [System.returnTriggered_eq hnum]
  refine (h.setThread t .idle trivial nofun).withEvents ?_ ?_ ?_
  · exact h.keys.sublist (collect_rest_keys hkey)
  · intro e he
    obtain he | ⟨a, -, hleft⟩ := mem_collect_rest he
    · exact h.sound e he
    · exact EqueueEvent.sound_afterReturn hleft
  · intro e he htriggered
    obtain he | ⟨a, ha, -⟩ := mem_collect_rest he
    · exact System.hasTriggered_of_mem (s := s) he htriggered
    · exact System.hasTriggered_of_mem (s := s) (mem_of_mem_collect ha).1 (mem_of_mem_collect ha).2

theorem Inv.step (h : Inv s) (henabled : s.Enabled op) (hserved : s.Served op) :
    Inv (s.step op).1 := by
  cases hcall : op.isCall with
  | true =>
    generalize hresult : s.step op = result
    cases hresult ▸ h.callStep henabled hcall with
    | triggered t hnum => exact h.returnTriggered hnum t
    | expired t order hnum horder =>
      have hidents : (order.map (·.event.ident)).Nodup := (horder.map _).nodup_iff.mpr h.idents
      refine (h.setThread t .idle trivial nofun).withTimers s.now (hidents.sublist ?_)
      exact collect_rest_keys fun _ _ hnone => nomatch hnone
    | waits t phase hroom hasleep => exact h.setThread t phase hroom hasleep
    | gaveUp t => exact h.setThread t .idle trivial nofun
  | false =>
    cases op with
    | addEvent event => exact h.addEvent event
    | removeEvent id filter => exact h.removeEvent id filter
    | addSmallTimer event time =>
      refine h.withTimers s.now (List.nodup_cons.mpr ⟨?_, ?_⟩)
      · intro hmem
        obtain ⟨st, hst, heq⟩ := List.mem_map.mp hmem
        exact of_decide_eq_true (List.mem_filter.mp hst).2 heq
      · exact h.idents.sublist (List.filter_sublist.map _)
    | removeSmallTimer id =>
      exact h.withTimers s.now (h.idents.sublist (List.filter_sublist.map _))
    | triggerEvent ident filter time data notified => exact h.triggerEvent henabled hserved
    | advance elapsed => exact h.withTimers _ h.idents
    | _ => cases hcall

theorem Reachable.inv (h : Reachable s) : Inv s := by
  induction h with
  | create => exact ⟨List.nodup_nil, List.nodup_nil, nofun, nofun, fun _ => trivial⟩
  | step _ _ henabled hserved ih => exact ih.step henabled hserved

omit [DecidableEq ι] in
theorem Inv.runnable (h : Inv s) (hevents : s.EventsServed)
    (hpending : s.hasTriggered = true ∨ s.hasExpired = true) (t : ι) :
    (s.threads t).isAsleep = false := by
  rw [← Bool.not_eq_true]
  intro hasleep
  have hblocked : (s.threads t).isBlocked = true := by
    cases hphase : s.threads t with
    | blocked => rfl
    | _ =>
      rw [hphase] at hasleep
      cases hasleep
  have htriggered := hpending.elim id (hevents t hblocked)
  rw [h.awake htriggered t] at hasleep
  cases hasleep

/-- Where every path finds what is pending in its own container, every pending event and small timer
is delivered, once for each time it became pending. -/
theorem Reachable.delivers (h : Reachable s) (hevents : s.EventsServed) : Delivers s where
  unique := h.inv.keys
  runnable := h.inv.runnable hevents
  returns _ _ henabled hserved hlooks := h.inv.returns hevents henabled hserved hlooks
  returned _ _ _ henabled hreturn := h.inv.returned henabled hreturn
  fresh e he := (h.inv.sound e he).fresh
  kept _ henabled _ he htriggered hremoves := h.inv.eventKept henabled he htriggered hremoves
  keptTimer _ henabled _ hst hresets := h.inv.timerKept henabled hst hresets

end Steps

/-- The user event with id 3 as `sceKernelAddUserEvent` makes it. -/
def userEvent : OrbisKernelEvent := ⟨3, .user, Flags.add, 0, 0, 0⟩

/-- A user event is added and triggered. -/
theorem delivers_userEvent :
    ((System.create.step (.addEvent userEvent)).1.step
      (.triggerEvent 3 .user 0 7 none : Op Unit)).1.hasTriggered = true ∧
    Delivers ((System.create.step (.addEvent userEvent)).1.step
      (.triggerEvent 3 .user 0 7 none : Op Unit)).1 := by
  refine ⟨by decide, Reachable.delivers (.step (.step .create ?_ trivial trivial) ?_ ?_ ?_) ?_⟩
  · exact nofun
  · exact nofun
  · exact fun _ => rfl
  · exact fun _ _ _ _ _ => rfl
  · exact nofun

/-- A small timer of a microsecond as `sceKernelAddHRTimerEvent` makes it. -/
def microTimer : OrbisKernelEvent := ⟨5, .hrTimer, Flags.add ||| Flags.oneShot, 0, 0, 0⟩

/-- A step of a call can end it with nothing although something is pending: a poll returns nothing
after a small timer has expired, and a call that spins on a small timer gives up although an event
is triggered. -/
theorem pending_missed :
    (¬ ∀ (ops : List (Op Unit)) (num : ℕ) (timo : Option UInt32),
      System.create.EnabledRun (ops ++ [.waitForEvents () num timo]) →
      (System.create.run ops).hasTriggered = true ∨ (System.create.run ops).hasExpired = true →
      ((System.create.run ops).step (.waitForEvents () num timo)).2 ≠ some ((), [])) ∧
    ¬ ∀ (ops : List (Op Unit)) (order : List SmallTimer),
      System.create.EnabledRun (ops ++ [.spin () order]) →
      (System.create.run ops).hasTriggered = true ∨ (System.create.run ops).hasExpired = true →
      ((System.create.run ops).step (.spin () order)).2 ≠ some ((), []) := by
  constructor
  · intro h
    have hpoll := h [.addSmallTimer microTimer ⟨0, 1000 * 0x44b82fa09⟩, .advance 1000] 1 (some 0)
    exact hpoll ⟨trivial, trivial, ⟨rfl, le_rfl⟩, trivial⟩ (by decide) (by decide)
  · intro h
    have hspin := h [.addSmallTimer microTimer ⟨0, 1000000 * 0x44b82fa09⟩, .addEvent userEvent,
      .waitForEvents () 1 (some 1), .triggerEvent 3 .user 0 7 none, .advance 1000]
      [⟨microTimer, 0, 999999⟩]
    refine hspin ⟨trivial, trivial, ⟨rfl, le_rfl⟩, ?_, trivial, ?_, trivial⟩ (by decide) (by decide)
    · exact fun _ => rfl
    · exact .refl _

end PS4Droid.Kernel.Equeue
