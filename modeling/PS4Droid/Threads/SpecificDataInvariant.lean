import PS4Droid.Threads.SpecificData

/-!
# Thread-specific data follows the incarnation of its key

The invariant has one part for the key table and one for each thread; a call changes the table, or
one thread, and its step appends at most one event to the history.
-/

namespace PS4Droid.Threads.SpecificData

variable {ι α δ : Type} [DecidableEq ι] {s : System ι α δ} {t : ι} {history : List (Event ι α δ)}
  {keytable : ℕ → PthreadKey δ} {thread : Pthread α}

/-! ### Counting the slots in use -/

variable {k key : ℕ} {specific : ℕ → PthreadSpecificElem α} {destructor : Option δ}
  {event : Event ι α δ} {thread' : Pthread α} {phase : Phase}

theorem nonNull_update (specific : ℕ → PthreadSpecificElem α) (hk : k < pthreadKeysMax)
    (elem : PthreadSpecificElem α) :
    nonNull (Function.update specific k elem) + (specific k).data.isSome.toNat =
      nonNull specific + elem.data.isSome.toNat :=
  card_filter_update (Finset.range pthreadKeysMax)
    (fun elem : PthreadSpecificElem α => elem.data.isSome) specific (Finset.mem_range.2 hk) elem

theorem nonNull_eq_zero (h : nonNull specific = 0)
    (hk : k < pthreadKeysMax) : (specific k).data = none := by
  rw [nonNull, Finset.card_eq_zero, Finset.filter_eq_empty_iff] at h
  simpa using h (Finset.mem_range.2 hk)

theorem nonNull_empty : nonNull (fun _ => ⟨none, 0⟩ : ℕ → PthreadSpecificElem α) = 0 := by
  simp [nonNull]

/-! ### The invariant -/

/-- Where a thread can be in its cleanup: in each of at most four passes the keys are passed over in
order until no value is left, and a thread goes with no value left or after four whole passes. -/
def PhaseInv (history : List (Event ι α δ)) (t : ι) (thread : Pthread α) : Prop :=
  match thread.phase with
  | .running => ∀ k, visits history t k = 0
  | .cleaning pass key => thread.specific.isSome ∧ pass ≤ pthreadDestructorIterations ∧
      (key ≠ 0 → pass < pthreadDestructorIterations) ∧
      ((key = 0 ∧ thread.specificDataCount ≤ 0 ∧ ∀ k < pthreadKeysMax, visits history t k ≤ pass) ∨
        ∀ k < pthreadKeysMax, visits history t k = pass + if k < key then 1 else 0)
  | .destructing pass key => thread.specific.isSome ∧ pass < pthreadDestructorIterations ∧
      ∀ k < pthreadKeysMax, visits history t k = pass + if k < key + 1 then 1 else 0
  | .exited => (∀ k < pthreadKeysMax, visits history t k ≤ pthreadDestructorIterations) ∧
      ((∀ k, slotAt history t k = none) ∨
        ∀ k < pthreadKeysMax, visits history t k = pthreadDestructorIterations)

structure ThreadInv (keytable : ℕ → PthreadKey δ) (history : List (Event ι α δ)) (t : ι)
    (thread : Pthread α) : Prop where
  seqno_le : ∀ k, (thread.slots k).seqno ≤ creations history k
  range : ∀ k, pthreadKeysMax ≤ k → (thread.slots k).data = none
  value : ¬ thread.phase.Exited → ∀ k, valueAt history t k =
    if (keytable k).allocated ∧ (thread.slots k).seqno = (keytable k).seqno then
      (thread.slots k).data
    else none
  slot : ¬ thread.phase.Exited → ∀ k, (thread.slots k).data = slotAt history t k
  count : ¬ thread.phase.Exited → thread.specificDataCount = nonNull thread.slots
  phase : PhaseInv history t thread

structure TableInv (keytable : ℕ → PthreadKey δ) (history : List (Event ι α δ)) : Prop where
  allocated : ∀ k, (keytable k).allocated = liveAt history k
  seqno : ∀ k, (keytable k).seqno = creations history k
  destructor : ∀ k, (keytable k).allocated → (keytable k).destructor = destructorAt history k

structure Inv (s : System ι α δ) : Prop where
  table : TableInv s.keytable s.history
  threads : ∀ t, ThreadInv s.keytable s.history t (s.threads t)
  calls : s.calls = callsOf s.history

theorem inv_initial : Inv (System.initial : System ι α δ) where
  table := ⟨fun _ => rfl, fun _ => rfl, nofun⟩
  threads t :=
    { seqno_le := fun _ => le_rfl
      range := fun _ _ => rfl
      value := fun _ _ => rfl
      slot := fun _ _ => rfl
      count := fun _ => by
        change (0 : ℤ) = _
        rw [show (System.initial : System ι α δ).threads t = ⟨none, 0, .running⟩ from rfl]
        exact_mod_cast nonNull_empty.symm
      phase := fun _ => rfl }
  calls := rfl

/-! ### Keys -/

theorem ThreadInv.created (h : ThreadInv keytable history t thread)
    (htable : TableInv keytable history)
    (hfew : creations history k + 1 < 2 ^ 31) :
    ThreadInv (Function.update keytable k ⟨true, ((keytable k).seqno + 1) % 2 ^ 32, destructor⟩)
      (.created k destructor :: history) t thread where
  seqno_le key := by
    have := h.seqno_le key
    simp only [creations]
    split_ifs <;> omega
  range := h.range
  value hexited key := by
    have hle := h.seqno_le key
    by_cases hkey : key = k
    · -- no slot carries the sequence number of the new incarnation yet
      subst hkey
      have hnew : ((keytable key).seqno + 1) % 2 ^ 32 = creations history key + 1 := by
        rw [htable.seqno]
        omega
      rw [Function.update_self, if_neg (by simp only [hnew]; omega)]
      simp [valueAt]
    · rw [Function.update_of_ne hkey]
      simp only [valueAt, if_neg (Ne.symm hkey)]
      exact h.value hexited key
  slot hexited key := h.slot hexited key
  count := h.count
  phase := h.phase

theorem ThreadInv.deleted (h : ThreadInv keytable history t thread) (k : ℕ) :
    ThreadInv (Function.update keytable k { keytable k with allocated := false })
      (.deleted k :: history) t thread where
  seqno_le := h.seqno_le
  range := h.range
  value hexited key := by
    by_cases hkey : key = k
    · subst hkey
      simp [valueAt]
    · rw [Function.update_of_ne hkey]
      simp only [valueAt, if_neg (Ne.symm hkey)]
      exact h.value hexited key
  slot := h.slot
  count := h.count
  phase := h.phase

theorem Inv.keyCreate (h : Inv s)
    (hfew : ∀ key, creations (s.step (.keyCreate t destructor)).history key < 2 ^ 31) :
    Inv (s.step (.keyCreate t destructor)) := by
  simp only [System.step, System.posixPthreadKeyCreate] at hfew ⊢
  cases hfree : (List.range pthreadKeysMax).find? fun k => !(s.keytable k).allocated with
  | none => exact h
  | some k =>
    simp only [hfree] at hfew
    have hbound : creations s.history k + 1 < 2 ^ 31 := by
      simpa [System.log, creations] using hfew k
    refine ⟨⟨fun key => ?_, fun key => ?_, fun key halloc => ?_⟩,
      fun t => (h.threads t).created h.table hbound, h.calls⟩
    · simp only [System.log, liveAt, Function.update_apply, ← h.table.allocated key]
      by_cases hkey : key = k
      · rw [if_pos hkey, if_pos hkey.symm]
      · rw [if_neg hkey, if_neg (Ne.symm hkey)]
    · simp only [System.log, creations, Function.update_apply]
      by_cases hkey : key = k
      · subst hkey
        rw [if_pos rfl, if_pos rfl, h.table.seqno]
        simp only
        omega
      · rw [if_neg hkey, if_neg (Ne.symm hkey)]
        exact h.table.seqno key
    · simp only [System.log, destructorAt, Function.update_apply] at halloc ⊢
      by_cases hkey : key = k
      · subst hkey
        rw [if_pos rfl, if_pos rfl]
      · rw [if_neg hkey] at halloc
        rw [if_neg hkey, if_neg (Ne.symm hkey)]
        exact h.table.destructor key halloc

theorem Inv.keyDelete (h : Inv s) (key : Int32) : Inv (s.step (.keyDelete t key)) := by
  simp only [System.step, System.posixPthreadKeyDelete]
  split_ifs
  · exact h
  · refine ⟨⟨fun k => ?_, fun k => ?_, fun k halloc => ?_⟩, fun t => (h.threads t).deleted _,
      h.calls⟩
    · simp only [System.log, liveAt, Function.update_apply, ← h.table.allocated k]
      by_cases hkey : k = keyIndex key
      · rw [if_pos hkey, if_pos hkey.symm]
      · rw [if_neg hkey, if_neg (Ne.symm hkey)]
    · simp only [System.log, creations, Function.update_apply]
      split_ifs with hkey
      · rw [← hkey]
        exact h.table.seqno k
      · exact h.table.seqno k
    · simp only [System.log, destructorAt, Function.update_apply] at halloc ⊢
      split_ifs at halloc ⊢
      exact h.table.destructor k halloc
  · exact h

/-! ### Values -/

/-- An event of another thread. -/
def Event.ByOther (t : ι) : Event ι α δ → Prop
  | .set thread _ _ | .visited thread _ => thread ≠ t
  | _ => False

theorem ThreadInv.other (h : ThreadInv keytable history t thread)
    (hother : event.ByOther t) : ThreadInv keytable (event :: history) t thread := by
  have hsame : (∀ k, valueAt (event :: history) t k = valueAt history t k) ∧
      (∀ k, slotAt (event :: history) t k = slotAt history t k) ∧
      (∀ k, creations (event :: history) k = creations history k) ∧
      ∀ k, visits (event :: history) t k = visits history t k := by
    cases event with
    | created => exact hother.elim
    | deleted => exact hother.elim
    | set thread key value =>
      exact ⟨fun k => if_neg fun heq => hother heq.1, fun k => if_neg fun heq => hother heq.1,
        fun _ => rfl, fun _ => rfl⟩
    | visited thread key =>
      exact ⟨fun k => if_neg fun heq => hother heq.1, fun k => if_neg fun heq => hother heq.1,
        fun _ => rfl, fun k => if_neg fun heq => hother heq.1⟩
  obtain ⟨hvalue, hslot, hcreations, hvisits⟩ := hsame
  refine ⟨fun k => ?_, h.range, fun hexited k => ?_, fun hexited k => ?_, h.count, ?_⟩
  · rw [hcreations]
    exact h.seqno_le k
  · rw [hvalue]
    exact h.value hexited k
  · rw [hslot]
    exact h.slot hexited k
  · have hphase := h.phase
    unfold PhaseInv at hphase ⊢
    simpa only [hvisits, hslot] using hphase

theorem ThreadInv.rephase (h : ThreadInv keytable history t thread)
    (hexited : ¬ thread.phase.Exited) (hslots : thread'.slots = thread.slots)
    (hcount : thread'.specificDataCount = thread.specificDataCount)
    (hphase : PhaseInv history t thread') : ThreadInv keytable history t thread' where
  seqno_le := by
    rw [hslots]
    exact h.seqno_le
  range := by
    rw [hslots]
    exact h.range
  value _ := by
    rw [hslots]
    exact h.value hexited
  slot _ := by
    rw [hslots]
    exact h.slot hexited
  count _ := by
    rw [hslots, hcount]
    exact h.count hexited
  phase := hphase

theorem ThreadInv.exit (h : ThreadInv keytable history t thread) (hexited : ¬ thread.phase.Exited)
    (hpasses : ∀ k < pthreadKeysMax, visits history t k ≤ pthreadDestructorIterations)
    (hdone : thread.specificDataCount ≤ 0 ∨
      ∀ k < pthreadKeysMax, visits history t k = pthreadDestructorIterations) :
    ThreadInv keytable history t { thread with specific := none, phase := .exited } where
  seqno_le _ := Nat.zero_le _
  range _ _ := rfl
  value hnot := absurd trivial hnot
  slot hnot := absurd trivial hnot
  count hnot := absurd trivial hnot
  phase := by
    refine ⟨hpasses, hdone.imp_left fun hcount k => ?_⟩
    rw [← h.slot hexited k]
    have hzero : nonNull thread.slots = 0 := by
      have := h.count hexited
      omega
    by_cases hk : k < pthreadKeysMax
    · exact nonNull_eq_zero hzero hk
    · exact h.range k (Nat.le_of_not_lt hk)

/-- The slot of one key is rewritten, with a new value or with none. -/
theorem ThreadInv.write (h : ThreadInv keytable history t thread)
    (hexited : ¬ thread.phase.Exited) (hk : k < pthreadKeysMax)
    {elem : PthreadSpecificElem α} {count : ℤ}
    (hseqno : elem.seqno ≤ creations history k)
    (hcreations : ∀ key, creations (event :: history) key = creations history key)
    (hvalue : ∀ key, valueAt (event :: history) t key =
      if key = k then (if (keytable k).allocated ∧ elem.seqno = (keytable k).seqno then elem.data
        else none) else valueAt history t key) (hslot : ∀ key, slotAt (event :: history) t key =
      if key = k then elem.data else slotAt history t key)
    (hcount : count + (thread.slots k).data.isSome.toNat =
      thread.specificDataCount + elem.data.isSome.toNat) (hphase : PhaseInv (event :: history) t
      ⟨some (Function.update thread.slots k elem), count, phase⟩) :
        ThreadInv keytable (event :: history) t
      ⟨some (Function.update thread.slots k elem), count, phase⟩ where
  seqno_le key := by
    rw [hcreations]
    simp only [Pthread.slots, Option.getD_some, Function.update_apply]
    split_ifs with hkey
    · rw [hkey]
      exact hseqno
    · exact h.seqno_le key
  range key hrange := by
    simp only [Pthread.slots, Option.getD_some]
    rw [Function.update_of_ne (by omega)]
    exact h.range key hrange
  value _ key := by
    rw [hvalue]
    simp only [Pthread.slots, Option.getD_some, Function.update_apply]
    by_cases hkey : key = k
    · simp only [hkey, if_true]
    · simp only [if_neg hkey]
      exact h.value hexited key
  slot _ key := by
    rw [hslot]
    simp only [Pthread.slots, Option.getD_some, Function.update_apply]
    split_ifs with hkey
    · rfl
    · exact h.slot hexited key
  count _ := by
    have hcard := nonNull_update thread.slots hk elem
    have hold := h.count hexited
    change count = nonNull (Function.update thread.slots k elem)
    omega
  phase := hphase

theorem Inv.setThread (h : Inv s)
    (hthread : ThreadInv s.keytable s.history t thread') : Inv (s.setThread t thread') := by
  refine ⟨h.table, fun other => ?_, h.calls⟩
  simp only [System.setThread, Function.update_apply]
  split_ifs with heq
  · rw [heq]
    exact hthread
  · exact h.threads other

/-- An event of thread `t` that changes its slots and, for a destructor call, the calls made. -/
theorem Inv.writeThread (h : Inv s) {calls : List (Call ι α δ)}
    (hevent : (∃ k value, event = .set t k value) ∨ ∃ k, event = .visited t k)
    (hthread : ThreadInv s.keytable (event :: s.history) t thread')
    (hcalls : calls = callsOf (event :: s.history)) :
    Inv ⟨s.keytable, Function.update s.threads t thread', event :: s.history, calls⟩ := by
  refine ⟨⟨fun k => ?_, fun k => ?_, fun k halloc => ?_⟩, fun other => ?_, hcalls⟩
  · obtain ⟨key, value, rfl⟩ | ⟨key, rfl⟩ := hevent <;> exact h.table.allocated k
  · obtain ⟨key, value, rfl⟩ | ⟨key, rfl⟩ := hevent <;> exact h.table.seqno k
  · obtain ⟨key, value, rfl⟩ | ⟨key, rfl⟩ := hevent <;> exact h.table.destructor k halloc
  · simp only [Function.update_apply]
    split_ifs with heq
    · rw [heq]
      exact hthread
    · refine (h.threads other).other ?_
      obtain ⟨key, value, rfl⟩ | ⟨key, rfl⟩ := hevent <;> exact Ne.symm heq

theorem Phase.Calls.not_exited (h : phase.Calls) : ¬ phase.Exited := by
  cases phase <;> simp_all [Phase.Calls, Phase.Exited]

/-- A phase in which a thread makes calls does not depend on its values. -/
theorem PhaseInv.calls {history' : List (Event ι α δ)}
    (h : PhaseInv history t thread) (hcalls : thread.phase.Calls)
    (hphase : thread'.phase = thread.phase) (hspecific : thread'.specific.isSome)
    (hvisits : ∀ k, visits history' t k = visits history t k) :
    PhaseInv history' t thread' := by
  unfold PhaseInv at h ⊢
  rw [hphase]
  simp only [hvisits]
  cases hp : thread.phase with
  | running =>
    rw [hp] at h
    exact h
  | cleaning pass key | exited =>
    rw [hp] at hcalls
    exact hcalls.elim
  | destructing pass key =>
    rw [hp] at h
    exact ⟨hspecific, h.2⟩

theorem Inv.setspecific (h : Inv s) (hcalls : (s.threads t).phase.Calls) (key : Int32)
    (value : Option α) (memory : Bool) :
    Inv (s.step (.setspecific t key value memory)) := by
  have hthread := h.threads t
  have hexited := hcalls.not_exited
  have hallocated : Inv (s.setThread t { s.threads t with specific := some (s.threads t).slots }) :=
    h.setThread (hthread.rephase hexited rfl rfl (hthread.phase.calls hcalls rfl rfl fun _ => rfl))
  simp only [System.step, System.posixPthreadSetspecific]
  split_ifs with hmemory hrange halloc
  · exact h
  · exact hallocated
  · have hk : keyIndex key < pthreadKeysMax := Nat.lt_of_not_le hrange
    have hset : ThreadInv s.keytable (.set t (keyIndex key) value :: s.history) t
        ⟨some (Function.update (s.threads t).slots (keyIndex key)
          ⟨value, (s.keytable (keyIndex key)).seqno⟩),
          countAfter (s.threads t).specificDataCount
            ((s.threads t).slots (keyIndex key)).data value, (s.threads t).phase⟩ := by
      refine hthread.write hexited hk (h.table.seqno _).le (fun _ => rfl) (fun k => ?_)
        (fun k => ?_) ?_ (hthread.phase.calls hcalls rfl rfl fun _ => rfl)
      · by_cases hkey : k = keyIndex key
        · have hallocated : (s.keytable (keyIndex key)).allocated = true := by
            simpa [System.setThread] using halloc
          simp [valueAt, hkey, hallocated]
        · simp [valueAt, hkey, Ne.symm hkey]
      · by_cases hkey : k = keyIndex key
        · simp [slotAt, hkey]
        · simp [slotAt, hkey, Ne.symm hkey]
      · cases ((s.threads t).slots (keyIndex key)).data <;> cases value <;>
          simp [countAfter]
    have hnew := h.writeThread (.inl ⟨_, _, rfl⟩) hset h.calls
    simpa [System.setThread, System.log] using hnew
  · exact hallocated

/-! ### The cleanup of an exiting thread -/

theorem Inv.beginCleanup (h : Inv s) (hrunning : (s.threads t).phase = .running) :
    Inv (s.beginCleanup t) := by
  have hthread := h.threads t
  have hexited : ¬ (s.threads t).phase.Exited := by
    rw [hrunning]
    exact id
  have hvisits := hthread.phase
  rw [PhaseInv, hrunning] at hvisits
  simp only [System.beginCleanup]
  cases hspecific : (s.threads t).specific with
  | none =>
    have hcount : (s.threads t).specificDataCount ≤ 0 := by
      rw [hthread.count hexited, Pthread.slots, hspecific, Option.getD_none, nonNull_empty]
      rfl
    exact h.setThread (hthread.exit hexited (fun k _ => (hvisits k).le.trans (Nat.zero_le _))
      (.inl hcount))
  | some specific =>
    refine h.setThread (hthread.rephase hexited ?_ rfl ?_)
    · rw [Pthread.slots, Pthread.slots, hspecific]
    · exact ⟨rfl, Nat.zero_le _, fun hne => absurd rfl hne, .inr fun k _ => hvisits k⟩

theorem Inv.endDestructor (h : Inv s) : Inv (s.endDestructor t) := by
  have hthread := h.threads t
  simp only [System.endDestructor]
  cases hphase : (s.threads t).phase with
  | destructing pass key =>
    have hinv := hthread.phase
    rw [PhaseInv, hphase] at hinv
    refine h.setThread (hthread.rephase (by rw [hphase]; exact id) rfl rfl ?_)
    exact ⟨hinv.1, hinv.2.1.le, fun _ => hinv.2.1, .inr hinv.2.2⟩
  | running | cleaning | exited => exact h

/-- What the cleanup passes over is set under the key as it is now, or calls no destructor. -/
theorem Inv.callsOf_visited (h : Inv s) (hexited : ¬ (s.threads t).phase.Exited) (key : ℕ) :
    callsOf (.visited t key :: s.history) =
      match ((s.threads t).slots key).data, (if (s.keytable key).allocated ∧
          ((s.threads t).slots key).seqno = (s.keytable key).seqno then
          (s.keytable key).destructor else none) with
      | some data, some destructor => ⟨t, key, destructor, data⟩ :: s.calls
      | _, _ => s.calls := by
  have hvalue := (h.threads t).value hexited key
  simp only [callsOf, hvalue, h.calls]
  by_cases hcurrent : (s.keytable key).allocated ∧
      ((s.threads t).slots key).seqno = (s.keytable key).seqno
  · simp only [if_pos hcurrent, h.table.destructor key hcurrent.1]
    all_goals rfl
  · simp only [if_neg hcurrent]
    cases ((s.threads t).slots key).data <;> rfl

/-- The slot of a key is emptied as the cleanup passes over it. -/
theorem ThreadInv.visit (h : ThreadInv keytable history t thread)
    (hexited : ¬ thread.phase.Exited) (hkey : key < pthreadKeysMax) {count : ℤ}
    (hcount : count + (thread.slots key).data.isSome.toNat = thread.specificDataCount)
    (hphase : PhaseInv (.visited t key :: history) t
      ⟨some (Function.update thread.slots key { thread.slots key with data := none }),
        count, phase⟩) :
    ThreadInv keytable (.visited t key :: history) t
      ⟨some (Function.update thread.slots key { thread.slots key with data := none }),
        count, phase⟩ := by
  refine h.write hexited hkey (h.seqno_le key) (fun _ => rfl) (fun k => ?_) (fun k => ?_) ?_ hphase
  · by_cases heq : k = key
    · simp [valueAt, heq]
    · simp [valueAt, heq, Ne.symm heq]
  · by_cases heq : k = key
    · simp [slotAt, heq]
    · simp [slotAt, heq, Ne.symm heq]
  · simpa using hcount

/-- The counts after the cleanup has passed over a key. -/
theorem visits_visited {pass : ℕ} (h : ∀ k < pthreadKeysMax,
      visits history t k = pass + if k < key then 1 else 0) :
    ∀ k < pthreadKeysMax,
      visits (.visited t key :: history) t k = pass + if k < key + 1 then 1 else 0 := by
  intro k hk
  have := h k hk
  simp only [visits, true_and]
  split_ifs at this ⊢ <;> omega

theorem Inv.cleanupKey (h : Inv s) {pass : ℕ} (hphase : (s.threads t).phase = .cleaning pass key)
    (hspecific : (s.threads t).specific = some specific)
    (hpass : pass < pthreadDestructorIterations) (hkey : key < pthreadKeysMax)
    (hvisits : ∀ k < pthreadKeysMax,
      visits (.visited t key :: s.history) t k = pass + if k < key + 1 then 1 else 0) :
    Inv (System.record t (.cleaning pass key) (s.cleanupKey t pass key specific)) := by
  have hthread := h.threads t
  have hexited : ¬ (s.threads t).phase.Exited := by
    rw [hphase]
    exact id
  have hslots : (s.threads t).slots = specific := by
    rw [Pthread.slots, hspecific, Option.getD_some]
  have hcalls := h.callsOf_visited hexited key
  have hvisit := fun count phase hcount => @ThreadInv.visit _ _ _ _ t _ _ _ _ phase hthread hexited
    hkey count hcount
  rw [hslots] at hcalls hvisit
  simp only [System.cleanupKey]
  cases hdata : (specific key).data with
  | none =>
    have hsame : Function.update specific key { specific key with data := none } = specific := by
      rw [← hdata, Function.update_eq_self]
    rw [hsame] at hvisit
    rw [hdata] at hcalls hvisit
    have hnext := hvisit (s.threads t).specificDataCount (.cleaning pass (key + 1)) (add_zero _)
      ⟨rfl, hpass.le, fun _ => hpass, .inr hvisits⟩
    rw [← hspecific] at hnext
    simpa [System.record, System.setThread, visited, System.log] using
      h.writeThread (.inr ⟨key, rfl⟩) hnext hcalls.symm
  | some data =>
    have hcount : (s.threads t).specificDataCount - 1 + (specific key).data.isSome.toNat =
        (s.threads t).specificDataCount := by
      rw [hdata]
      exact sub_add_cancel _ _
    rw [hdata] at hcalls
    cases hdestructor : (if (s.keytable key).allocated ∧
        (specific key).seqno = (s.keytable key).seqno then (s.keytable key).destructor
        else none) with
    | none =>
      rw [hdestructor] at hcalls
      simpa [System.record, System.setThread, visited, System.log] using
        h.writeThread (.inr ⟨key, rfl⟩)
          (hvisit _ (.cleaning pass (key + 1)) hcount
            ⟨rfl, hpass.le, fun _ => hpass, .inr hvisits⟩) hcalls.symm
    | some destructor =>
      rw [hdestructor] at hcalls
      simpa [System.record, System.setThread, visited, System.log] using
        h.writeThread (.inr ⟨key, rfl⟩)
          (hvisit _ (.destructing pass key) hcount ⟨rfl, hpass, hvisits⟩) hcalls.symm

theorem Inv.cleanupStep (h : Inv s) : Inv (s.step (.cleanup t)) := by
  have hthread := h.threads t
  simp only [System.step, System.cleanupStep]
  cases hphase : (s.threads t).phase with
  | running | destructing | exited => simpa [System.record, hphase, visited] using h
  | cleaning pass key =>
    have hinv := hthread.phase
    rw [PhaseInv, hphase] at hinv
    obtain ⟨hsome, hpass, hnext, hvisits⟩ := hinv
    have hexited : ¬ (s.threads t).phase.Exited := by
      rw [hphase]
      exact id
    obtain ⟨specific, hspecific⟩ := Option.isSome_iff_exists.1 hsome
    have hlast : ¬ (key = 0 ∧ ¬ (pass < pthreadDestructorIterations ∧
        0 < (s.threads t).specificDataCount)) → pass < pthreadDestructorIterations := by
      intro hend
      by_cases hzero : key = 0
      · exact (not_not.1 fun hnot => hend ⟨hzero, hnot⟩).1
      · exact hnext hzero
    simp only [hspecific]
    split_ifs with hend hinside
    · -- no pass is left, or no value
      obtain ⟨rfl, hend⟩ := hend
      simp only [System.record, System.setThread, visited, Function.update_self]
      refine h.setThread (hthread.exit hexited ?_ ?_)
      · rcases hvisits with ⟨-, -, hle⟩ | heq
        · exact fun k hk => (hle k hk).trans hpass
        · exact fun k hk => by simpa [heq k hk] using hpass
      · rcases hvisits with ⟨-, hcount, -⟩ | heq
        · exact .inl hcount
        · by_cases hcount : (s.threads t).specificDataCount ≤ 0
          · exact .inl hcount
          · refine .inr fun k hk => ?_
            have := heq k hk
            simp only [Nat.not_lt_zero, if_false] at this
            omega
    · have hpos : ¬ (s.threads t).specificDataCount ≤ 0 := not_le.2 hinside.2
      refine h.cleanupKey hphase hspecific (hlast hend) hinside.1 (visits_visited ?_)
      exact hvisits.resolve_left fun hdone => hpos hdone.2.1
    · -- the pass is over, at the last key or because no value is left
      simp only [System.record, System.setThread, visited, Function.update_self,
        if_neg (Nat.succ_ne_zero key).symm]
      refine h.setThread (hthread.rephase hexited ?_ rfl
        ⟨rfl, hlast hend, fun hne => absurd rfl hne, ?_⟩)
      · rw [Pthread.slots, Pthread.slots, hspecific]
      · by_cases hcount : (s.threads t).specificDataCount ≤ 0
        · refine .inl ⟨rfl, hcount, fun k hk => ?_⟩
          rcases hvisits with ⟨-, -, hle⟩ | heq
          · exact (hle k hk).trans (Nat.le_succ _)
          · rw [heq k hk]
            split_ifs <;> omega
        · refine .inr fun k hk => ?_
          have hlarge : pthreadKeysMax ≤ key := by
            by_contra hsmall
            exact hinside ⟨Nat.lt_of_not_le hsmall, not_le.1 hcount⟩
          rw [(hvisits.resolve_left fun hdone => hcount hdone.2.1) k hk,
            if_pos (hk.trans_le hlarge)]
          rfl

theorem Inv.step (h : Inv s) {op : Op ι α δ} (henabled : s.Enabled op)
    (hfew : ∀ key, creations (s.step op).history key < 2 ^ 31) : Inv (s.step op) := by
  cases op with
  | keyCreate t destructor => exact h.keyCreate hfew
  | keyDelete t key => exact h.keyDelete key
  | setspecific t key value memory => exact h.setspecific henabled key value memory
  | exit t => exact h.beginCleanup henabled
  | cleanup t => exact h.cleanupStep
  | endDestructor t => exact h.endDestructor

theorem Reachable.inv (h : Reachable s) : Inv s := by
  induction h with
  | initial => exact inv_initial
  | step _ henabled hfew ih => exact ih.step henabled hfew

/-! ### What the program does in every run -/

/-- The calls of a destructor for the values of one thread under one key. -/
def callsFor (calls : List (Call ι α δ)) (t : ι) (k : ℕ) : List (Call ι α δ) :=
  calls.filter fun call => call.thread = t ∧ call.key = k

/-- Each call uses up a value that was set, and a value that is there is not used up yet. -/
theorem callsFor_callsOf_le (history : List (Event ι α δ)) (t : ι) (k : ℕ) :
    (callsFor (callsOf history) t k).length + (valueAt history t k).isSome.toNat ≤
      settings history t k := by
  induction history with
  | nil => exact le_rfl
  | cons event rest ih =>
    have hle := (Nat.le_add_right _ _).trans ih
    cases event with
    | created key destructor | deleted key =>
      simp only [callsOf, valueAt, settings]
      by_cases hkey : key = k
      · rw [if_pos hkey]
        exact hle
      · rw [if_neg hkey]
        exact ih
    | set thread key value =>
      simp only [callsOf, valueAt]
      by_cases hthis : thread = t ∧ key = k
      · rw [if_pos hthis]
        cases value with
        | none => exact hle
        | some value =>
          simp only [settings, if_pos hthis]
          exact Nat.add_le_add_right hle 1
      · rw [if_neg hthis]
        cases value with
        | none => exact ih
        | some value =>
          simp only [settings, if_neg hthis]
          exact ih
    | visited thread key =>
      simp only [valueAt, settings]
      by_cases hthis : thread = t ∧ key = k
      · rw [if_pos hthis]
        obtain ⟨rfl, rfl⟩ := hthis
        simp only [callsOf]
        cases hvalue : valueAt rest thread key with
        | none => exact hle
        | some data =>
          rw [hvalue] at ih
          cases destructorAt rest key with
          | none => exact hle
          | some destructor => simpa [callsFor] using ih
      · rw [if_neg hthis]
        refine le_trans (Nat.add_le_add_right (le_of_eq ?_) _) ih
        simp only [callsOf]
        cases valueAt rest thread key <;> cases destructorAt rest key <;>
          simp [callsFor, hthis]

/-- A value can be set exactly under a key that is live. -/
theorem Inv.setspecific_ok (h : Inv s) (t : ι) (key : Int32) (value : Option α) (memory : Bool) :
    (s.posixPthreadSetspecific t key value memory).1 = .ok ↔
      ((s.threads t).specific.isSome ∨ memory) ∧ keyIndex key < pthreadKeysMax ∧
        liveAt s.history (keyIndex key) := by
  simp only [System.posixPthreadSetspecific, ← h.table.allocated, System.setThread]
  cases (s.threads t).specific <;> cases memory <;> split_ifs <;> simp_all

/-- In every run: a thread reads back the value it last set since the key was created; its counter
is the number of its slots in use; a value can be set exactly under a key that is live; the
destructors called are those of the values that the cleanup finds set under the key as it is when it
passes over it, each at most once; and the cleanup passes over a key at most four times, and leaves
a value behind only when it has passed over every key four times. -/
theorem Reachable.specific_data (h : Reachable s) :
    (∀ t key, ¬ (s.threads t).phase.Exited →
      s.posixPthreadGetspecific t key = valueAt s.history t (keyIndex key)) ∧
    (∀ t, ¬ (s.threads t).phase.Exited →
      (s.threads t).specificDataCount = nonNull (s.threads t).slots ∧
      ∀ k, ((s.threads t).slots k).data = slotAt s.history t k) ∧
    (∀ t key value memory, (s.posixPthreadSetspecific t key value memory).1 = .ok ↔
      ((s.threads t).specific.isSome ∨ memory) ∧ keyIndex key < pthreadKeysMax ∧
        liveAt s.history (keyIndex key)) ∧
    s.calls = callsOf s.history ∧
    (∀ t k, (callsFor s.calls t k).length ≤ settings s.history t k) ∧
    (∀ t, PhaseInv s.history t (s.threads t)) := by
  have hinv := h.inv
  refine ⟨fun t key hexited => ?_, fun t hexited => ⟨(hinv.threads t).count hexited,
    (hinv.threads t).slot hexited⟩, hinv.setspecific_ok, hinv.calls, fun t k => ?_,
    fun t => (hinv.threads t).phase⟩
  · have hvalue := (hinv.threads t).value hexited (keyIndex key)
    have hrange := (hinv.threads t).range (keyIndex key)
    rw [hvalue]
    unfold System.posixPthreadGetspecific
    cases hspecific : (s.threads t).specific with
    | none => simp [Pthread.slots, hspecific]
    | some specific =>
      simp only [Pthread.slots, hspecific, Option.getD_some] at hrange ⊢
      by_cases hlarge : pthreadKeysMax ≤ keyIndex key
      · simp [hlarge, hrange hlarge]
      · rw [if_neg hlarge]
  · rw [hinv.calls]
    exact (Nat.le_add_right _ _).trans (callsFor_callsOf_le s.history t k)

omit [DecidableEq ι] in
theorem creations_le_length (history : List (Event ι α δ)) (key : ℕ) :
    creations history key ≤ history.length := by
  induction history with
  | nil => exact le_rfl
  | cons event rest ih =>
    cases event with
    | created k destructor =>
      simp only [creations, List.length_cons]
      split_ifs <;> omega
    | deleted | set | visited => exact ih.trans (Nat.le_succ _)

/-- A thread sets a value under each of two keys, deletes the first key and exits: the cleanup drops
the first value, calls the destructor of the second key with the second value, and the destructor
sets another one. -/
theorem specific_data_exit : ∃ s : System ℕ ℕ ℕ, s.calls = [⟨0, 1, 8, 6⟩] ∧
    s.calls = callsOf s.history ∧ s.posixPthreadGetspecific 0 1 = some 9 ∧
    valueAt s.history 0 (keyIndex 1) = some 9 ∧ PhaseInv s.history 0 (s.threads 0) := by
  have hstep := fun {s : System ℕ ℕ ℕ} (h : Reachable s) (op : Op ℕ ℕ ℕ) (henabled : s.Enabled op)
      (hfew : (s.step op).history.length < 2 ^ 31) =>
    Reachable.step h henabled fun key => (creations_le_length _ key).trans_lt hfew
  have hcreate := hstep .initial (.keyCreate 0 (some 7)) trivial (by decide)
  have hset := hstep hcreate (.setspecific 0 0 (some 5) true) trivial (by decide)
  have hcreate' := hstep hset (.keyCreate 0 (some 8)) trivial (by decide)
  have hset' := hstep hcreate' (.setspecific 0 1 (some 6) true) trivial (by decide)
  have hdelete := hstep hset' (.keyDelete 0 0) trivial (by decide)
  have hexit := hstep hdelete (.exit 0) rfl (by decide)
  have hfirst := hstep hexit (.cleanup 0) trivial (by decide)
  have hsecond := hstep hfirst (.cleanup 0) trivial (by decide)
  have hagain := hstep hsecond (.setspecific 0 1 (some 9) true) trivial (by decide)
  obtain ⟨hvalue, -, -, hcalls, -, hphase⟩ := Reachable.specific_data hagain
  refine ⟨_, rfl, hcalls, ?_, rfl, hphase 0⟩
  rw [hvalue 0 1 id]
  rfl

end PS4Droid.Threads.SpecificData
