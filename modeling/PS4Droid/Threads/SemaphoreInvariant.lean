import PS4Droid.Threads.Semaphore

/-!
# The invariant of a semaphore

The counter stays between zero and its maximum, the list holds exactly the threads that wait and
that nobody has woken up, in the order of their priorities and, within one priority, of their
arrival, no queued thread could be served, and the counter is the balance of the history. Each
step of any thread keeps this, provided that the counts it is called with do not push the counter
out of its range.
-/

namespace PS4Droid.Threads

variable {ι : Type*} {s s' : System ι} {t u : ι}

/-- The thread is inside `Wait` and has been neither signaled nor canceled; once it has timed out
it is no longer inside. -/
def System.Blocked (s : System ι) (t : ι) : Prop :=
  ∃ w, s.threads t = some w ∧ w.waiter.Pending

/-- The count set last, or the initial one, with the signaled counts added and the counts of the
waits that were served taken away. -/
def balance (initCount : ℤ) : List Event → ℤ
  | [] => initCount
  | .signaled count :: log => balance initCount log + count
  | .taken count :: log => balance initCount log - count
  | .set count :: _ => count

structure System.Invariant (s : System ι) : Prop where
  token_nonneg : 0 ≤ s.sem.tokenCount
  token_le : s.sem.tokenCount ≤ s.sem.maxCount
  listed : ∀ t, t ∈ s.sem.waitList ↔ s.Blocked t
  nodup : s.sem.waitList.Nodup
  ordered : s.sem.waitList.Pairwise fun t u =>
    s.priority t < s.priority u ∨ (s.priority t = s.priority u ∧ s.arrival t < s.arrival u)
  fifo : s.sem.isFifo = true → s.sem.waitList.Pairwise fun t u => s.arrival t < s.arrival u
  short : ∀ t ∈ s.sem.waitList, s.sem.tokenCount < s.needCount t
  ledger : s.sem.tokenCount = balance s.sem.initCount s.log

/-- The invariant with the facts about the constants and the waiters that carry it. -/
structure System.Sound (s : System ι) : Prop extends s.Invariant where
  max_lt : s.sem.maxCount < 2 ^ 31
  init_nonneg : 0 ≤ s.sem.initCount
  init_le : s.sem.initCount ≤ s.sem.maxCount
  arrived : ∀ t w, s.threads t = some w → w.waiter.arrival < s.arrivals
  flat : s.sem.isFifo = true → ∀ t w, s.threads t = some w → w.waiter.priority = 0

theorem wrap32_eq {x : ℤ} (h : 0 ≤ x) (hlt : x < 2 ^ 31) : wrap32 x = x := by
  rw [wrap32, Int.bmod_eq_of_le_mul_two] <;> omega

theorem sound_create {hasName : Bool} {attr : ℕ} {initCount maxCount : Int32} {sem : OrbisSem ι}
    (h : sceKernelCreateSema hasName attr initCount maxCount = .ok sem) :
    (System.create sem).Sound := by
  unfold sceKernelCreateSema at h
  split_ifs at h with hbad
  cases h
  have hlt := maxCount.toInt_lt
  push Not at hbad
  obtain ⟨-, -, hinit, hmax, hle⟩ := hbad
  constructor
  · constructor <;> simp [System.create, System.Blocked, balance, hinit, hle]
  all_goals simp [System.create, hinit, hle]
  omega

/-! ### Serving a wait at once -/

theorem System.Sound.take (hs : s.Sound) {needCount : ℤ} (hneed : needCount ≤ s.sem.tokenCount)
    (hcond : 0 ≤ needCount ∨ (s.sem.tokenCount - needCount ≤ s.sem.maxCount ∧
      ∀ t ∈ s.sem.waitList, s.sem.tokenCount - needCount < s.needCount t)) : System.Sound { s with
      sem := { s.sem with tokenCount := wrap32 (s.sem.tokenCount - needCount) }
      log := .taken needCount :: s.log } := by
  have hmax := hs.max_lt
  have hle := hs.token_le
  have hnew : s.sem.tokenCount - needCount ≤ s.sem.maxCount := by
    rcases hcond with hpos | ⟨hbound, -⟩ <;> omega
  have hshort : ∀ t ∈ s.sem.waitList, s.sem.tokenCount - needCount < s.needCount t := by
    intro t ht
    rcases hcond with hpos | ⟨-, hall⟩
    · have := hs.short t ht
      omega
    · exact hall t ht
  rw [wrap32_eq (by omega) (by omega)]
  exact
    { token_nonneg := by simp only; omega
      token_le := hnew
      listed := hs.listed
      nodup := hs.nodup
      ordered := hs.ordered
      fifo := hs.fifo
      short := hshort
      ledger := by simp only [balance, ← hs.ledger]
      max_lt := hs.max_lt
      init_nonneg := hs.init_nonneg
      init_le := hs.init_le
      arrived := hs.arrived
      flat := hs.flat }

/-! ### Changing one thread -/

/-- The data of a waiter that the list depends on. -/
structure SameWaiter (w w' : WaitingThread) : Prop where
  priority : w'.priority = w.priority
  needCount : w'.needCount = w.needCount
  arrival : w'.arrival = w.arrival
  pending : w'.Pending ↔ w.Pending

theorem System.Sound.congr (hs : s.Sound) (hsem : s'.sem = s.sem) (hlog : s'.log = s.log)
    (harrivals : s'.arrivals = s.arrivals)
    (hthreads : ∀ t w', s'.threads t = some w' → ∃ w, s.threads t = some w ∧
      SameWaiter w.waiter w'.waiter)
    (hthreads' : ∀ t w, s.threads t = some w → ∃ w', s'.threads t = some w') : s'.Sound := by
  have hsame : ∀ t, s'.needCount t = s.needCount t ∧ s'.priority t = s.priority t ∧
      s'.arrival t = s.arrival t ∧ (s'.Blocked t ↔ s.Blocked t) := by
    intro t
    cases ht : s'.threads t with
    | none =>
      have hnone : s.threads t = none := by
        cases h : s.threads t with
        | none => rfl
        | some w =>
          obtain ⟨w', hw'⟩ := hthreads' t w h
          rw [ht] at hw'
          cases hw'
      simp [System.needCount, System.priority, System.arrival, System.Blocked, ht, hnone]
    | some w' =>
      obtain ⟨w, hw, hsame⟩ := hthreads t w' ht
      simp [System.needCount, System.priority, System.arrival, System.Blocked, ht, hw,
        hsame.needCount, hsame.priority, hsame.arrival, hsame.pending]
  have hneed : s'.needCount = s.needCount := funext fun t => (hsame t).1
  have hprio : s'.priority = s.priority := funext fun t => (hsame t).2.1
  have harr : s'.arrival = s.arrival := funext fun t => (hsame t).2.2.1
  constructor
  · constructor
    · rw [hsem]; exact hs.token_nonneg
    · rw [hsem]; exact hs.token_le
    · intro t
      rw [hsem, (hsame t).2.2.2]
      exact hs.listed t
    · rw [hsem]; exact hs.nodup
    · rw [hsem, hprio, harr]; exact hs.ordered
    · rw [hsem, harr]; exact hs.fifo
    · rw [hsem, hneed]; exact hs.short
    · rw [hsem, hlog]; exact hs.ledger
  · rw [hsem]; exact hs.max_lt
  · rw [hsem]; exact hs.init_nonneg
  · rw [hsem]; exact hs.init_le
  · intro t w' hw'
    obtain ⟨w, hw, hsame⟩ := hthreads t w' hw'
    rw [harrivals, hsame.arrival]
    exact hs.arrived t w hw
  · intro hfifo t w' hw'
    obtain ⟨w, hw, hsame⟩ := hthreads t w' hw'
    rw [hsame.priority]
    exact hs.flat (hsem ▸ hfifo) t w hw

variable [DecidableEq ι]

@[simp]
theorem System.setThread_self (w : Option Waiting) : (s.setThread t w).threads t = w := by
  simp [System.setThread]

theorem System.setThread_of_ne (w : Option Waiting) (h : u ≠ t) :
    (s.setThread t w).threads u = s.threads u := by
  simp [System.setThread, h]

theorem System.Sound.setThread (hs : s.Sound) {w w' : Waiting} (hw : s.threads t = some w)
    (hsame : SameWaiter w.waiter w'.waiter) : (s.setThread t (some w')).Sound := by
  refine hs.congr rfl rfl rfl ?_ ?_
  · intro u v hv
    by_cases hu : u = t
    · subst hu
      rw [System.setThread_self, Option.some.injEq] at hv
      subst hv
      exact ⟨w, hw, hsame⟩
    · rw [System.setThread_of_ne _ hu] at hv
      exact ⟨v, hv, rfl, rfl, rfl, Iff.rfl⟩
  · intro u v hv
    by_cases hu : u = t
    · subst hu
      exact ⟨w', System.setThread_self _⟩
    · exact ⟨v, by rw [System.setThread_of_ne _ hu, hv]⟩

/-! ### Queueing -/

omit [DecidableEq ι] in
theorem pairwise_addWaiter {isFifo : Bool} {priority : ι → ℕ} {waitList : List ι} {p : ℕ}
    {r : ι → ι → Prop} (hlist : waitList.Pairwise r)
    (hmono : ∀ a ∈ waitList, ∀ b ∈ waitList, r a b → priority a ≤ priority b)
    (hbefore : ∀ a ∈ waitList, (isFifo = true ∨ priority a ≤ p) → r a t)
    (hafter : ∀ a ∈ waitList, p < priority a → r t a) :
    (addWaiter isFifo priority waitList t p).Pairwise r := by
  unfold addWaiter
  split_ifs with hfifo
  · rw [List.pairwise_append]
    refine ⟨hlist, List.pairwise_singleton _ _, fun a ha b hb => ?_⟩
    rw [List.mem_singleton.1 hb]
    exact hbefore a ha (.inl hfifo)
  · induction waitList with
    | nil => simp
    | cons x rest ih =>
      rw [List.pairwise_cons] at hlist
      by_cases hx : priority x ≤ p
      · simp only [hx, decide_true, List.takeWhile_cons_of_pos, List.dropWhile_cons_of_pos,
          List.cons_append, List.pairwise_cons]
        refine ⟨fun b hb => ?_, ih hlist.2
          (fun a ha b hb => hmono a (.tail _ ha) b (.tail _ hb))
          (fun a ha => hbefore a (.tail _ ha)) (fun a ha => hafter a (.tail _ ha))⟩
        rw [List.mem_append, List.mem_cons] at hb
        rcases hb with hb | rfl | hb
        · exact hlist.1 b (List.takeWhile_sublist _ |>.subset hb)
        · exact hbefore x (.head _) (.inr hx)
        · exact hlist.1 b (List.dropWhile_sublist _ |>.subset hb)
      · -- the list is sorted, so everything from here on has a lower priority
        simp only [hx, decide_false, Bool.false_eq_true, not_false_eq_true,
          List.takeWhile_cons_of_neg, List.dropWhile_cons_of_neg, List.nil_append,
          List.pairwise_cons]
        refine ⟨fun b hb => ?_, hlist⟩
        rw [List.mem_cons] at hb
        rcases hb with rfl | hb
        · exact hafter b (.head _) (by omega)
        · have := hmono x (.head _) b (.tail _ hb) (hlist.1 b hb)
          exact hafter b (.tail _ hb) (by omega)

omit [DecidableEq ι] in
theorem perm_addWaiter (isFifo : Bool) (priority : ι → ℕ) (waitList : List ι) (t : ι) (p : ℕ) :
    (addWaiter isFifo priority waitList t p).Perm (t :: waitList) := by
  unfold addWaiter
  split_ifs
  · exact List.perm_append_singleton t waitList
  · refine List.perm_middle.trans ?_
    rw [List.takeWhile_append_dropWhile]

omit [DecidableEq ι] in
theorem needCount_of_threads {w : Waiting} (h : s.threads t = some w) :
    s.needCount t = w.waiter.needCount ∧ s.priority t = w.waiter.priority ∧
      s.arrival t = w.waiter.arrival := by
  simp [System.needCount, System.priority, System.arrival, h]

omit [DecidableEq ι] in
theorem System.Sound.ne_of_mem (hs : s.Sound) (ht : s.threads t = none)
    (hu : u ∈ s.sem.waitList) : u ≠ t := by
  rintro rfl
  obtain ⟨w, hw, -⟩ := (hs.listed u).1 hu
  rw [ht] at hw
  cases hw

theorem System.Sound.queue (hs : s.Sound) (ht : s.threads t = none) {w : WaitingThread}
    (hneed : s.sem.tokenCount < w.needCount) (hpending : w.Pending)
    (harrival : w.arrival = s.arrivals) (hprio : s.sem.isFifo = true → w.priority = 0) :
    System.Sound
      { sem := { s.sem with
          waitList := addWaiter s.sem.isFifo s.priority s.sem.waitList t w.priority }
        threads := Function.update s.threads t (some ⟨w, .parked⟩)
        arrivals := s.arrivals + 1
        log := s.log } := by
  have hperm := perm_addWaiter s.sem.isFifo s.priority s.sem.waitList t w.priority
  generalize hnew : (System.mk _ _ _ _ : System ι) = s'
  have hsem : s'.sem = { s.sem with
      waitList := addWaiter s.sem.isFifo s.priority s.sem.waitList t w.priority } := by rw [← hnew]
  have hself : s'.threads t = some ⟨w, .parked⟩ := by simp [← hnew]
  have hother : ∀ u ≠ t, s'.threads u = s.threads u := by
    intro u hu
    simp [← hnew, hu]
  have hold : ∀ u ≠ t, s'.needCount u = s.needCount u ∧ s'.priority u = s.priority u ∧
      s'.arrival u = s.arrival u := by
    intro u hu
    simp [System.needCount, System.priority, System.arrival, hother u hu]
  obtain ⟨hneed', hprio', harr'⟩ := needCount_of_threads hself
  simp only at hneed' hprio' harr'
  have harrived : ∀ u ∈ s.sem.waitList, s.arrival u < s.arrivals := by
    intro u hu
    obtain ⟨v, hv, -⟩ := (hs.listed u).1 hu
    rw [(needCount_of_threads hv).2.2]
    exact hs.arrived u v hv
  have hflat : s.sem.isFifo = true → ∀ u ∈ s.sem.waitList, s.priority u = 0 := by
    intro hfifo u hu
    obtain ⟨v, hv, -⟩ := (hs.listed u).1 hu
    rw [(needCount_of_threads hv).2.1]
    exact hs.flat hfifo u v hv
  have hne : ∀ u ∈ s.sem.waitList, u ≠ t := fun u hu => hs.ne_of_mem ht hu
  constructor
  · constructor
    · rw [hsem]; exact hs.token_nonneg
    · rw [hsem]; exact hs.token_le
    · intro u
      rw [hsem]
      simp only [hperm.mem_iff, List.mem_cons]
      by_cases hu : u = t
      · subst hu
        simp only [true_or, true_iff]
        exact ⟨_, hself, hpending⟩
      · simp only [hu, false_or, hs.listed, System.Blocked, hother u hu]
    · rw [hsem]
      exact hperm.nodup_iff.2 (List.nodup_cons.2 ⟨fun h => hne t h rfl, hs.nodup⟩)
    · rw [hsem]
      apply pairwise_addWaiter (hs.ordered.imp_of_mem fun {a b} ha hb hab => ?_)
      · intro a ha b hb hab
        rw [(hold a (hne a ha)).2.1, (hold b (hne b hb)).2.1] at hab
        omega
      · intro a ha hle
        rw [(hold a (hne a ha)).2.1, (hold a (hne a ha)).2.2, hprio', harr', harrival]
        have := harrived a ha
        rcases hle with hfifo | hle
        · have := hflat hfifo a ha
          have := hprio hfifo
          omega
        · omega
      · intro a ha hlt
        rw [(hold a (hne a ha)).2.1, hprio']
        exact .inl hlt
      · rw [(hold a (hne a ha)).2.1, (hold a (hne a ha)).2.2, (hold b (hne b hb)).2.1,
          (hold b (hne b hb)).2.2]
        exact hab
    · intro hfifo
      rw [hsem] at hfifo ⊢
      simp only at hfifo
      apply pairwise_addWaiter ((hs.fifo hfifo).imp_of_mem fun {a b} ha hb hab => ?_)
      · intro a ha b hb _
        rw [hflat hfifo a ha, hflat hfifo b hb]
      · intro a ha _
        rw [(hold a (hne a ha)).2.2, harr', harrival]
        exact harrived a ha
      · intro a ha hlt
        have := hflat hfifo a ha
        omega
      · rw [(hold a (hne a ha)).2.2, (hold b (hne b hb)).2.2]
        exact hab
    · intro u hu
      rw [hsem] at hu ⊢
      rcases List.mem_cons.1 (hperm.mem_iff.1 hu) with rfl | hu
      · rw [hneed']
        exact hneed
      · rw [(hold u (hne u hu)).1]
        exact hs.short u hu
    · rw [hsem, ← hnew]; exact hs.ledger
  · rw [hsem]; exact hs.max_lt
  · rw [hsem]; exact hs.init_nonneg
  · rw [hsem]; exact hs.init_le
  · intro u v hv
    rw [← hnew]
    by_cases hu : u = t
    · subst hu
      rw [hself] at hv
      cases hv
      simp only [harrival]
      omega
    · rw [hother u hu] at hv
      exact Nat.lt_succ_of_lt (hs.arrived u v hv)
  · intro hfifo u v hv
    rw [hsem] at hfifo
    by_cases hu : u = t
    · subst hu
      rw [hself] at hv
      cases hv
      exact hprio hfifo
    · rw [hother u hu] at hv
      exact hs.flat hfifo u v hv

/-! ### Leaving the list -/

omit [DecidableEq ι] in
theorem System.Sound.keep (hs : s.Sound) {kept : List ι} {token : ℤ}
    (hsem : s'.sem = { s.sem with waitList := kept, tokenCount := token })
    (harrivals : s'.arrivals = s.arrivals) (hkept : kept.Sublist s.sem.waitList)
    (hlisted : ∀ u, u ∈ kept ↔ s'.Blocked u) (hthreads : ∀ u ∈ kept, s'.threads u = s.threads u)
    (hfrom : ∀ u v, s'.threads u = some v → ∃ w, s.threads u = some w ∧
      v.waiter.priority = w.waiter.priority ∧ v.waiter.arrival = w.waiter.arrival)
    (hnonneg : 0 ≤ token) (hle : token ≤ s.sem.maxCount)
    (hshort : ∀ t ∈ kept, token < s.needCount t)
    (hlog : token = balance s.sem.initCount s'.log) : s'.Sound := by
  have hsame : ∀ u ∈ kept, s'.needCount u = s.needCount u ∧ s'.priority u = s.priority u ∧
      s'.arrival u = s.arrival u := by
    intro u hu
    simp [System.needCount, System.priority, System.arrival, hthreads u hu]
  constructor
  · constructor
    · rw [hsem]; exact hnonneg
    · rw [hsem]; exact hle
    · rw [hsem]; exact hlisted
    · rw [hsem]; exact hkept.nodup hs.nodup
    · rw [hsem]
      refine (hs.ordered.sublist hkept).imp_of_mem fun {a b} ha hb hab => ?_
      rw [(hsame a ha).2.1, (hsame a ha).2.2, (hsame b hb).2.1, (hsame b hb).2.2]
      exact hab
    · intro hfifo
      rw [hsem] at hfifo ⊢
      refine ((hs.fifo hfifo).sublist hkept).imp_of_mem fun {a b} ha hb hab => ?_
      rw [(hsame a ha).2.2, (hsame b hb).2.2]
      exact hab
    · intro u hu
      rw [hsem] at hu ⊢
      rw [(hsame u hu).1]
      exact hshort u hu
    · rw [hsem]; exact hlog
  · rw [hsem]; exact hs.max_lt
  · rw [hsem]; exact hs.init_nonneg
  · rw [hsem]; exact hs.init_le
  · intro u v hv
    obtain ⟨w, hw, -, harrival⟩ := hfrom u v hv
    rw [harrival, harrivals]
    exact hs.arrived u w hw
  · intro hfifo u v hv
    obtain ⟨w, hw, hprio, -⟩ := hfrom u v hv
    rw [hsem] at hfifo
    rw [hprio]
    exact hs.flat hfifo u w hw

theorem System.Sound.dequeue (hs : s.Sound) {kept woken : List ι}
    (hkept : kept.Sublist s.sem.waitList)
    (hmem : ∀ t ∈ s.sem.waitList, t ∈ kept ↔ t ∉ woken) {f : WaitingThread → WaitingThread}
    (hf : ∀ w, ¬ (f w).Pending ∧ (f w).priority = w.priority ∧ (f w).arrival = w.arrival)
    {token : ℤ} (hnonneg : 0 ≤ token) (hle : token ≤ s.sem.maxCount)
    (hshort : ∀ t ∈ kept, token < s.needCount t) {log : List Event}
    (hlog : token = balance s.sem.initCount log) : System.Sound { s with
      sem := { s.sem with waitList := kept, tokenCount := token }
      threads := s.mark woken f
      log := log } := by
  have hkeep : ∀ u, u ∉ woken → s.mark woken f u = s.threads u := by
    intro u hu
    simp [System.mark, hu]
  have hwake : ∀ u ∈ woken, s.mark woken f u =
      (s.threads u).map fun w => { w with waiter := f w.waiter } := by
    intro u hu
    simp [System.mark, hu]
  refine hs.keep rfl rfl hkept ?_ ?_ ?_ hnonneg hle hshort hlog
  · intro u
    constructor
    · intro hu
      have hlist := hkept.subset hu
      obtain ⟨w, hw, hpending⟩ := (hs.listed u).1 hlist
      exact ⟨w, (hkeep u ((hmem u hlist).1 hu)).trans hw, hpending⟩
    · rintro ⟨v, hv, hpending⟩
      simp only at hv
      by_cases hu : u ∈ woken
      · rw [hwake u hu, Option.map_eq_some_iff] at hv
        obtain ⟨w, -, rfl⟩ := hv
        exact absurd hpending (hf _).1
      · rw [hkeep u hu] at hv
        exact (hmem u ((hs.listed u).2 ⟨v, hv, hpending⟩)).2 hu
  · intro u hu
    exact hkeep u ((hmem u (hkept.subset hu)).1 hu)
  · intro u v hv
    simp only at hv
    by_cases hu : u ∈ woken
    · rw [hwake u hu, Option.map_eq_some_iff] at hv
      obtain ⟨w, hw, rfl⟩ := hv
      exact ⟨w, hw, (hf _).2⟩
    · rw [hkeep u hu] at hv
      exact ⟨v, hv, rfl, rfl⟩

/-- A thread returns from `Wait`, off the list if it was still on it. -/
theorem System.Sound.leave (hs : s.Sound) : System.Sound { s with
      sem := { s.sem with waitList := s.sem.waitList.erase t }
      threads := Function.update s.threads t none } := by
  have hsub : (s.sem.waitList.erase t).Sublist s.sem.waitList := List.erase_sublist
  have hfrom : ∀ u v, Function.update s.threads t none u = some v →
      u ≠ t ∧ s.threads u = some v := by
    intro u v hv
    by_cases hu : u = t
    · subst hu
      simp at hv
    · rw [Function.update_of_ne hu] at hv
      exact ⟨hu, hv⟩
  refine hs.keep rfl rfl hsub ?_ ?_ ?_ hs.token_nonneg hs.token_le
    (fun u hu => hs.short u (hsub.subset hu)) hs.ledger
  · intro u
    rw [hs.nodup.mem_erase_iff, hs.listed]
    constructor
    · rintro ⟨hu, v, hv, hpending⟩
      exact ⟨v, (Function.update_of_ne hu _ _).trans hv, hpending⟩
    · rintro ⟨v, hv, hpending⟩
      exact ⟨(hfrom u v hv).1, v, (hfrom u v hv).2, hpending⟩
  · intro u hu
    exact Function.update_of_ne (hs.nodup.mem_erase_iff.1 hu).1 _ _
  · intro u v hv
    exact ⟨v, (hfrom u v hv).2, rfl, rfl⟩

theorem WaitingThread.getResult_eq_timedOut_iff (w : WaitingThread) :
    w.getResult = .timedOut ↔ w.Pending := by
  unfold WaitingThread.getResult WaitingThread.Pending
  split_ifs <;> simp_all

theorem System.Sound.relock (hs : s.Sound) {w : Waiting} (hw : s.threads t = some w) :
    (s.relock t w.waiter).1.Sound := by
  have herase : (if w.waiter.getResult = .timedOut then s.sem.waitList.erase t
      else s.sem.waitList) = s.sem.waitList.erase t := by
    split_ifs with hresult
    · rfl
    · -- a marked waiter has left the list already
      refine (List.erase_of_not_mem fun hmem => hresult ?_).symm
      obtain ⟨v, hv, hpending⟩ := (hs.listed t).1 hmem
      rw [hw, Option.some.injEq] at hv
      subst hv
      exact w.waiter.getResult_eq_timedOut_iff.2 hpending
  simp only [System.relock, herase]
  exact hs.leave

/-! ### Signaling and canceling -/

section WakeWaiters

variable {needCount : ι → ℤ}

omit [DecidableEq ι] in
theorem wakeWaiters_sublist (needCount : ι → ℤ) (waitList : List ι) (token : ℤ) :
    (System.wakeWaiters needCount waitList token).1.Sublist waitList ∧
      (System.wakeWaiters needCount waitList token).2.2.Sublist waitList := by
  induction waitList generalizing token with
  | nil => exact ⟨.slnil, .slnil⟩
  | cons t rest ih =>
    unfold System.wakeWaiters
    split_ifs
    · exact ⟨(ih token).1.cons_cons t, (ih token).2.cons t⟩
    · exact ⟨(ih _).1.cons t, (ih _).2.cons_cons t⟩

omit [DecidableEq ι] in
/-- On a list without duplicates a waiter stays or is woken up, and not both. -/
theorem mem_wakeWaiters_iff {waitList : List ι} (hnodup : waitList.Nodup) (token : ℤ) :
    ∀ t ∈ waitList, t ∈ (System.wakeWaiters needCount waitList token).1 ↔
      t ∉ (System.wakeWaiters needCount waitList token).2.2 := by
  induction waitList generalizing token with
  | nil => simp
  | cons t rest ih =>
    obtain ⟨ht, hrest⟩ := List.nodup_cons.1 hnodup
    intro u hu
    unfold System.wakeWaiters
    split_ifs with hlow
    · have hsub := (wakeWaiters_sublist needCount rest token).2
      rcases List.mem_cons.1 hu with rfl | hu
      · simpa using fun h => ht (hsub.subset h)
      · have hne : u ≠ t := fun h => ht (h ▸ hu)
        simpa [hne] using ih hrest token u hu
    · have hsub := (wakeWaiters_sublist needCount rest
        (wrap32 (token - needCount t))).1
      rcases List.mem_cons.1 hu with rfl | hu
      · simpa using fun h => ht (hsub.subset h)
      · have hne : u ≠ t := fun h => ht (h ▸ hu)
        simpa [hne] using ih hrest _ u hu

omit [DecidableEq ι] in
/-- The tokens left by the loop of `Signal`, when every waiter needs something: what was handed
out is gone, and no waiter that stays could be served with the rest. -/
theorem wakeWaiters_token (waitList : List ι) {token : ℤ} (hneed : ∀ t ∈ waitList, 0 ≤ needCount t)
    (hnonneg : 0 ≤ token) (hlt : token < 2 ^ 31) :
    0 ≤ (System.wakeWaiters needCount waitList token).2.1 ∧
      (System.wakeWaiters needCount waitList token).2.1 ≤ token ∧
      (System.wakeWaiters needCount waitList token).2.1 =
        token - ((System.wakeWaiters needCount waitList token).2.2.map needCount).sum ∧
      ∀ t ∈ (System.wakeWaiters needCount waitList token).1,
        (System.wakeWaiters needCount waitList token).2.1 < needCount t := by
  induction waitList generalizing token with
  | nil => simp [System.wakeWaiters, hnonneg]
  | cons t rest ih =>
    have ht := hneed t (.head _)
    have hrest : ∀ u ∈ rest, 0 ≤ needCount u := fun u hu => hneed u (.tail _ hu)
    unfold System.wakeWaiters
    split_ifs with hlow
    · obtain ⟨h1, h2, h3, h4⟩ := ih hrest hnonneg hlt
      refine ⟨h1, h2, h3, fun u hu => ?_⟩
      rcases List.mem_cons.1 hu with rfl | hu
      · exact h2.trans_lt hlow
      · exact h4 u hu
    · rw [wrap32_eq (by omega) (by omega)]
      have hsmaller : token - needCount t ≤ token := by omega
      obtain ⟨h1, h2, h3, h4⟩ := @ih (token - needCount t) hrest (by omega) (by omega)
      refine ⟨h1, h2.trans hsmaller, ?_, h4⟩
      simp only [List.map_cons, List.sum_cons, h3]
      ring

end WakeWaiters

omit [DecidableEq ι] in
theorem balance_taken (initCount : ℤ) (counts : List ℤ) (log : List Event) :
    balance initCount ((counts.map Event.taken).reverse ++ log) =
      balance initCount log - counts.sum := by
  induction counts generalizing log with
  | nil => simp
  | cons count counts ih =>
    simp only [List.map_cons, List.reverse_cons, List.append_assoc, List.singleton_append, ih,
      balance, List.sum_cons]
    ring

theorem System.Sound.signal (hs : s.Sound) {signalCount : ℤ}
    (hnonneg : 0 ≤ s.sem.tokenCount + signalCount) (hlt : s.sem.tokenCount + signalCount < 2 ^ 31) :
    ∃ r, s.signal signalCount = some r ∧ r.1.Sound := by
  unfold System.signal
  rw [if_neg (by omega)]
  split_ifs with hmax
  · exact ⟨_, rfl, hs⟩
  · refine ⟨_, rfl, ?_⟩
    rw [wrap32_eq hnonneg hlt]
    have hneed : ∀ t ∈ s.sem.waitList, 0 ≤ s.needCount t := by
      intro t ht
      have := hs.short t ht
      have := hs.token_nonneg
      omega
    obtain ⟨h1, h2, h3, h4⟩ := wakeWaiters_token s.sem.waitList hneed hnonneg hlt
    refine hs.dequeue (wakeWaiters_sublist _ _ _).1 (mem_wakeWaiters_iff hs.nodup _) ?_ h1
      (by omega)
      h4 ?_
    · intro w
      simp [WaitingThread.Pending]
    · rw [show (fun t => Event.taken (s.needCount t)) = Event.taken ∘ s.needCount from rfl,
        ← List.map_map, balance_taken, balance, ← hs.ledger]
      exact h3

theorem System.Sound.cancel (hs : s.Sound) {setCount : ℤ} (hle : setCount ≤ s.sem.maxCount) :
    (s.cancel setCount).1.Sound := by
  have hnonneg : 0 ≤ if setCount < 0 then s.sem.initCount else setCount := by
    split_ifs with hneg
    · exact hs.init_nonneg
    · omega
  have hmax : (if setCount < 0 then s.sem.initCount else setCount) ≤ s.sem.maxCount := by
    split_ifs
    · exact hs.init_le
    · exact hle
  refine hs.dequeue (List.nil_sublist _) ?_ ?_ hnonneg hmax ?_ rfl
  · intro t ht
    simp [ht]
  · intro w
    simp [WaitingThread.Pending]
  · simp

/-! ### Runs -/

/-- The counts of a step keep the counter in its range: a wait asks for no negative count, or
for one that hands back no more than there is room for and than would serve a queued thread; a
signal neither makes the counter negative nor overflows the sum; a cancel sets no count above the
maximum. The calls check none of this. -/
def Regular (s : System ι) : Action ι → Prop
  | .call _ (.wait needCount _ _) | .call _ (.poll needCount) =>
    0 ≤ needCount.toInt ∨ (s.sem.tokenCount - needCount.toInt ≤ s.sem.maxCount ∧
      ∀ t ∈ s.sem.waitList, s.sem.tokenCount - needCount.toInt < s.needCount t)
  | .call _ (.signal signalCount) =>
    0 ≤ s.sem.tokenCount + signalCount.toInt ∧ s.sem.tokenCount + signalCount.toInt < 2 ^ 31
  | .call _ (.cancel setCount) => setCount.toInt ≤ s.sem.maxCount
  | _ => True

/-- The states that the threads can reach from a new semaphore by steps that satisfy `P`, in any
order. -/
inductive Reachable (P : System ι → Action ι → Prop) (sem : OrbisSem ι) : System ι → Prop
  | create : Reachable P sem (.create sem)
  | step {s s' a} : Reachable P sem s → P s a → step s a = .ok s' → Reachable P sem s'

theorem System.Sound.wait (hs : s.Sound) (ht : s.threads t = none) (canBlock : Bool)
    {needCount : ℤ} (prio : ℕ) (timeout : Option ℕ)
    (hcond : 0 ≤ needCount ∨ (s.sem.tokenCount - needCount ≤ s.sem.maxCount ∧
      ∀ t ∈ s.sem.waitList, s.sem.tokenCount - needCount < s.needCount t)) :
    (s.wait t canBlock needCount prio timeout).1.Sound := by
  unfold System.wait
  by_cases htake : needCount ≤ s.sem.tokenCount
  · rw [if_pos htake]
    exact hs.take htake hcond
  · rw [if_neg htake]
    by_cases hblock : !canBlock
    · rw [if_pos hblock]
      exact hs
    · rw [if_neg hblock]
      by_cases hzero : timeout = some 0
      · rw [if_pos hzero]
        exact hs
      · rw [if_neg hzero]
        exact hs.queue ht (not_le.1 htake) ⟨rfl, rfl, rfl⟩ rfl fun hfifo => if_pos hfifo

theorem System.Sound.step (hs : s.Sound) {a : Action ι} (ha : Regular s a)
    (h : step s a = .ok s') : s'.Sound := by
  cases a with
  | call t c =>
    cases ht : s.threads t with
    | some w => simp [PS4Droid.Threads.step, ht] at h
    | none =>
      simp only [PS4Droid.Threads.step, ht] at h
      cases c with
      | wait needCount prio timeout =>
        cases h
        exact hs.wait ht true prio timeout ha
      | poll needCount =>
        cases h
        exact hs.wait ht false 0 none ha
      | signal signalCount =>
        obtain ⟨r, hr, hsound⟩ := hs.signal ha.1 ha.2
        simp only [Call.run, hr] at h
        cases h
        exact hsound
      | cancel setCount =>
        cases h
        exact hs.cancel ha
  | acquire t | expire t =>
    simp only [PS4Droid.Threads.step] at h
    split at h
    · rename_i w hw
      split_ifs at h
      cases h
      exact hs.setThread hw ⟨rfl, rfl, rfl, Iff.rfl⟩
    · cases h
  | relock t =>
    simp only [PS4Droid.Threads.step] at h
    split at h
    · rename_i w hw
      cases h
      exact hs.relock hw
    · cases h

theorem System.Sound.step_ne_overflow (hs : s.Sound) {a : Action ι} (ha : Regular s a) :
    PS4Droid.Threads.step s a ≠ .error .signedOverflow := by
  intro h
  cases a with
  | call t c =>
    cases ht : s.threads t with
    | some w => simp [PS4Droid.Threads.step, ht] at h
    | none =>
      simp only [PS4Droid.Threads.step, ht] at h
      cases c with
      | signal signalCount =>
        obtain ⟨r, hr, -⟩ := hs.signal ha.1 ha.2
        simp [Call.run, hr] at h
      | _ => cases h
  | acquire t | expire t =>
    simp only [PS4Droid.Threads.step] at h
    split at h
    · split_ifs at h
      cases h
    · cases h
  | relock t =>
    simp only [PS4Droid.Threads.step] at h
    split at h <;> cases h

theorem Reachable.sound {hasName : Bool} {attr : ℕ} {initCount maxCount : Int32}
    {sem : OrbisSem ι} (hcreate : sceKernelCreateSema hasName attr initCount maxCount = .ok sem)
    (h : Reachable Regular sem s) : s.Sound := by
  induction h with
  | create => exact sound_create hcreate
  | step _ ha hstep ih => exact ih.step ha hstep

/-- In every run of regular steps of any number of threads, the invariant holds in every state,
and no step overflows. -/
theorem semaphore_invariant {hasName : Bool} {attr : ℕ} {initCount maxCount : Int32}
    {sem : OrbisSem ι} (hcreate : sceKernelCreateSema hasName attr initCount maxCount = .ok sem)
    (h : Reachable Regular sem s) :
    s.Invariant ∧ ∀ a, Regular s a → step s a ≠ .error .signedOverflow :=
  ⟨(h.sound hcreate).toInvariant, fun _ ha => (h.sound hcreate).step_ne_overflow ha⟩

/-- Thread 0 waits for two tokens of a semaphore that has one, and thread 1 signals the other. -/
theorem semaphore_invariant_handover : ∃ sem : OrbisSem ℕ, ∃ s,
    sceKernelCreateSema true 0 1 2 = .ok sem ∧ Reachable Regular sem s ∧ s.sem.tokenCount = 0 ∧
      (s.threads 0).isSome = true ∧ s.Invariant := by
  have hfirst : Reachable Regular (⟨[], 1, 2, 1, false⟩ : OrbisSem ℕ) _ :=
    .step .create (a := .call 0 (.wait 2 700 none)) (.inl (by decide)) rfl
  have hrun : Reachable Regular (⟨[], 1, 2, 1, false⟩ : OrbisSem ℕ) _ :=
    .step hfirst (a := .call 1 (.signal 1)) ⟨by decide, by decide⟩ rfl
  refine ⟨_, _, rfl, hrun, by decide, by decide, ?_⟩
  exact (@semaphore_invariant ℕ _ _ true 0 1 2 _ (by decide) hrun).1

/-- Polling for a negative count puts tokens into a full semaphore. -/
theorem poll_negative_exceeds_maxCount : ∃ sem : OrbisSem ℕ, ∃ s,
    sceKernelCreateSema true 0 1 1 = .ok sem ∧ Reachable (fun _ _ => True) sem s ∧
      s.sem.tokenCount = 2 ∧ s.sem.maxCount = 1 ∧ ¬ s.Invariant := by
  have hrun : Reachable (fun _ _ => True) (⟨[], 1, 1, 1, false⟩ : OrbisSem ℕ) _ :=
    .step .create (a := .call 0 (.poll (-1))) trivial rfl
  refine ⟨_, _, rfl, hrun, by decide, by decide, fun hinv => ?_⟩
  exact absurd hinv.token_le (by decide)

end PS4Droid.Threads
