import PS4Droid.Threads.SleepQueueInvariant

/-!
# Runs of the sleep queues

Each call is one of the moves if the thread that it takes out of a queue is in it. A signal for a
thread that is not in the queue takes a free object from those that sleep there, so it is exactly
such signals that break the count.
-/

namespace PS4Droid.Threads.SleepQueues.State

variable {ι ω : Type} {s s' : State ι ω} {sq : ω} {td : ι}
  {wchan : Wchan}
  {blocked : List ι} {freeq : List ω} {threads : ι → Pthread ω}

theorem initial_conserved (h : s.Initial) : s.Conserved := by
  have hnone : ∀ sq, ¬s.Linked sq := by
    rintro sq ⟨i, hmem⟩
    rw [h.table] at hmem
    cases hmem
  refine ⟨?_, fun sq _ hl => absurd hl (hnone sq), fun sq hl => absurd hl (hnone sq),
    fun sq hl => absurd hl (hnone sq),
    fun sq _ => h.queues sq, fun sq _ hb => absurd hb.1 (hnone sq), fun td _ =>
      h.threads td, ?_, ?_, ?_⟩
  · exact fun i sq hmem => absurd ⟨i, hmem⟩ (hnone sq)
  · intro i
    rw [h.table]
    exact List.nodup_nil
  · intro sq
    rw [(h.queues sq).2]
    exact List.nodup_nil
  · intro q
    obtain ⟨td, hown, honly⟩ := h.owned q
    refine ⟨.thread td, hown, fun p hp => ?_⟩
    cases p with
    | thread other => rw [honly other hp]
    | chain i => exact absurd ⟨i, hp⟩ (hnone q)
    | free sq =>
      rw [Has, (h.queues sq).2] at hp
      cases hp

theorem handBack_eq [DecidableEq ι] (hnodup : blocked.Nodup)
    (hlength : blocked.length = freeq.length) (threads : ι → Pthread ω) :
    ∃ threads', handBack blocked freeq threads = some threads' ∧
      (∀ td ∉ blocked, threads' td = threads td) ∧
      ∀ (k : ℕ) td, blocked[k]? = some td → threads' td = ⟨freeq[k]?, none⟩ := by
  induction blocked generalizing freeq threads with
  | nil => exact ⟨threads, rfl, fun _ _ => rfl, fun k td hk => by cases hk⟩
  | cons first blocked ih =>
    cases freeq with
    | nil => cases hlength
    | cons free freeq =>
      rw [List.nodup_cons] at hnodup
      obtain ⟨threads', hrun, hkept, hgiven⟩ :=
        ih hnodup.2 (Nat.succ.inj hlength) (Function.update threads first ⟨some free, none⟩)
      refine ⟨threads', hrun, fun td hout => ?_, fun k td hk => ?_⟩
      · rw [List.mem_cons, not_or] at hout
        rw [hkept td hout.2, Function.update_of_ne hout.1]
      · cases k with
        | zero =>
          obtain rfl := Option.some.inj hk
          rw [hkept first hnodup.1, Function.update_self]
          rfl
        | succ k => exact hgiven k td hk

variable [DecidableEq ι] [DecidableEq ω]

namespace Conserved

/-! ### The calls -/

theorem sleepqAdd (h : s.Conserved) (hrunning : (s.threads td).wchan = none) (wchan : Wchan) :
    ∃ s', s.sleepqAdd wchan td = some s' ∧ s'.Conserved := by
  obtain ⟨own, hown⟩ :=
    Option.isSome_iff_exists.mp (h.running td (h.notBlocked_of_wchan hrunning)).2
  rw [State.sleepqAdd, hown]
  cases hlookup : s.sleepqLookup wchan with
  | none => exact ⟨_, rfl, h.opened (h.lookup_eq_none.mp hlookup) hrunning hown rfl⟩
  | some sq =>
    obtain ⟨hlinked, hwchan⟩ := h.lookup_eq_some.mp hlookup
    exact ⟨_, rfl, h.join hlinked hwchan hrunning hown rfl⟩

omit [DecidableEq ι] in
/-- In a queue that is linked the free lists are not touched by the unlinking. -/
theorem queues_unlink (h : s.Conserved) (hlinked : s.Linked sq) (q : ω) :
    (s.unlink sq).queues q = s.queues q := by
  have hfilter : (s.queues q).sqFreeq.filter (· ≠ sq) = (s.queues q).sqFreeq := by
    rw [List.filter_eq_self]
    intro free hmem
    exact decide_eq_true fun heq => h.linked_not_free hlinked q (heq ▸ hmem)
  rw [unlink]
  simp only [hfilter]

theorem sleepqRemove (h : s.Conserved) (hlinked : s.Linked sq)
    (hin : td ∈ (s.queues sq).sqBlocked) :
    ∃ s' left, s.sleepqRemove sq td = some (s', left) ∧ s'.Conserved := by
  have hcount := h.counts sq hlinked
  have herase := filter_ne_eq_erase (h.distinct sq hlinked) td
  have hlength := List.length_erase_of_mem hin
  rw [State.sleepqRemove]
  simp only
  split_ifs with hlast
  · refine ⟨_, _, rfl, ?_⟩
    rw [herase] at hlast
    rw [hlast, List.length_nil] at hlength
    have hone : (s.queues sq).sqBlocked.length = 1 := by
      have hpos := List.length_pos_of_mem hin
      omega
    have hfreeq : (s.queues sq).sqFreeq = [] := List.eq_nil_of_length_eq_zero (by omega)
    obtain ⟨other, hblocked⟩ := List.length_eq_one_iff.mp hone
    have hother : td = other := by
      rw [hblocked] at hin
      exact List.mem_singleton.mp hin
    refine h.closed hlinked (fun _ => rfl) ?_ ?_ ?_ ?_
    · simp only [queues_setThread, unlink, queues_setQueue_self, hfreeq, List.filter_nil, and_self]
    · intro q hne
      rw [queues_setThread]
      have hkept := h.queues_unlink hlinked q
      simp only [unlink, queues_setQueue_of_ne hne] at hkept ⊢
      exact hkept
    · intro other' hout
      have hne : other' ≠ td := fun heq => hout (heq ▸ hin)
      exact threads_setThread_of_ne hne _
    · intro k td' hk
      rw [hblocked, ← hother] at hk
      rw [hfreeq]
      cases k with
      | zero =>
        obtain rfl := Option.some.inj hk
        rw [threads_setThread_self]
        rfl
      | succ k => cases hk
  · cases hfreeq : (s.queues sq).sqFreeq with
    | nil =>
      rw [hfreeq, List.length_nil] at hcount
      rw [herase, ← List.length_eq_zero_iff] at hlast
      omega
    | cons free rest => exact ⟨_, _, rfl, h.leave hlinked hin hfreeq rfl⟩

theorem sleepqDrop (h : s.Conserved) (hlinked : s.Linked sq) :
    ∃ s', s.sleepqDrop sq = some s' ∧ s'.Conserved := by
  have hcount := h.counts sq hlinked
  have hfreeq : ((s.unlink sq).queues sq).sqFreeq = (s.queues sq).sqFreeq := by
    rw [h.queues_unlink hlinked]
  have hpos : 0 < (s.queues sq).sqBlocked.length := by omega
  obtain ⟨threads, hrun, hkept, hgiven⟩ :=
    @handBack_eq ι ω (s.queues sq).sqBlocked (sq :: (s.queues sq).sqFreeq) _
    (h.distinct sq hlinked) (by rw [List.length_cons, hcount]) s.threads
  obtain ⟨td, blocked, hblocked⟩ := List.exists_cons_of_length_pos hpos
  refine ⟨{ (s.unlink sq).setQueue sq
    { (s.unlink sq).queues sq with sqBlocked := [], sqFreeq := [] } with threads }, ?_, ?_⟩
  · rw [hblocked, handBack] at hrun
    rw [State.sleepqDrop, hblocked]
    simp only [hfreeq]
    change (handBack blocked (s.queues sq).sqFreeq
      (Function.update s.threads td ⟨some sq, none⟩)).map _ = _
    rw [hrun]
    rfl
  · refine h.closed hlinked (fun _ => rfl) ?_ ?_ hkept hgiven
    · change (((s.unlink sq).setQueue sq _).queues sq).sqBlocked = [] ∧
        (((s.unlink sq).setQueue sq _).queues sq).sqFreeq = []
      rw [queues_setQueue_self]
      exact ⟨rfl, rfl⟩
    · intro q hne
      change ((s.unlink sq).setQueue sq _).queues q = s.queues q
      rw [queues_setQueue_of_ne hne, h.queues_unlink hlinked]

/-- A thread that is not in the queue takes one of its free objects. -/
theorem not_conserved_of_stray {left : Bool} (h : s.Conserved) (hlinked : s.Linked sq)
    (hout : td ∉ (s.queues sq).sqBlocked) (hremove : s.sleepqRemove sq td = some (s', left)) :
    ¬s'.Conserved := by
  intro hs'
  have hcount := h.counts sq hlinked
  have hsame : (s.queues sq).sqBlocked.filter (· ≠ td) = (s.queues sq).sqBlocked := by
    rw [List.filter_eq_self]
    intro other hmem
    exact decide_eq_true fun heq => hout (heq ▸ hmem)
  have hne : (s.queues sq).sqBlocked ≠ [] := by
    intro hempty
    rw [hempty, List.length_nil] at hcount
    cases hcount
  rw [State.sleepqRemove] at hremove
  simp only [hsame, if_neg hne] at hremove
  cases hfreeq : (s.queues sq).sqFreeq with
  | nil =>
    rw [hfreeq] at hremove
    cases hremove
  | cons free rest =>
    rw [hfreeq] at hremove hcount
    simp only [Option.some.injEq, Prod.mk.injEq] at hremove
    obtain ⟨rfl, -⟩ := hremove
    have hcount' := hs'.counts sq hlinked
    rw [queues_setThread, queues_setQueue_self] at hcount'
    rw [List.length_cons] at hcount
    simp only at hcount'
    omega

/-! ### The calls of the condition variable -/

theorem broadcast (h : s.Conserved) (wchan : Wchan) :
    ∃ s', s.broadcast wchan = some s' ∧ s'.Conserved := by
  rw [State.broadcast]
  cases hlookup : s.sleepqLookup wchan with
  | none => exact ⟨s, rfl, h⟩
  | some sq => exact h.sleepqDrop (h.lookup_eq_some.mp hlookup).1

theorem signal_first (h : s.Conserved) (wchan : Wchan) (found : Bool) :
    ∃ s', s.signal wchan none found = some s' ∧ s'.Conserved := by
  rw [State.signal, if_neg (fun hsome => Bool.false_ne_true hsome.1)]
  cases hlookup : s.sleepqLookup wchan with
  | none => exact ⟨s, rfl, h⟩
  | some sq =>
    obtain ⟨hlinked, -⟩ := h.lookup_eq_some.mp hlookup
    have hcount := h.counts sq hlinked
    have hpos : 0 < (s.queues sq).sqBlocked.length := by omega
    obtain ⟨td, blocked, hblocked⟩ := List.exists_cons_of_length_pos hpos
    obtain ⟨s', left, hremove, hs'⟩ := h.sleepqRemove hlinked (hblocked ▸ List.mem_cons_self)
    simp only [hblocked, List.head?_cons, Option.none_or]
    exact ⟨s', by rw [hremove]; rfl, hs'⟩

/-- A signal for one thread keeps the invariant, and changes nothing if it is stray, exactly if it
is targeted. -/
theorem signal_thread (h : s.Conserved) (wchan : Wchan) (td : ι) (found : Bool) :
    (∃ s', s.signal wchan (some td) found = some s' ∧
      (s.Stray (.signal wchan (some td) found) → s' = s) ∧ s'.Conserved) ↔
      s.Targeted (.signal wchan (some td) found) := by
  rw [State.signal, Targeted, Stray]
  cases found with
  | false =>
    rw [if_pos ⟨rfl, Bool.false_ne_true⟩]
    exact ⟨fun _ => .inl rfl, fun _ => ⟨s, rfl, fun _ => rfl, h⟩⟩
  | true =>
    rw [if_neg (fun hnot => hnot.2 rfl)]
    cases hlookup : s.sleepqLookup wchan with
    | none => exact ⟨fun _ => .inr (.inl rfl), fun _ => ⟨s, rfl, fun _ => rfl, h⟩⟩
    | some sq =>
      obtain ⟨hlinked, hwchan⟩ := h.lookup_eq_some.mp hlookup
      simp only [Option.some_or, Bool.true_eq_false, reduceCtorEq, false_or]
      rw [← h.blocked_iff hlinked hwchan]
      constructor
      · rintro ⟨s', hrun, -, hs'⟩
        by_contra hout
        obtain ⟨⟨after, left⟩, hremove, rfl⟩ := Option.map_eq_some_iff.mp hrun
        exact h.not_conserved_of_stray hlinked hout hremove hs'
      · intro hin
        obtain ⟨s', left, hremove, hs'⟩ := h.sleepqRemove hlinked hin
        refine ⟨s', by rw [hremove]; rfl,
          fun hstray => absurd ((h.blocked_iff hlinked hwchan).mp hin) hstray, hs'⟩

theorem step_iff (h : s.Conserved) {op : Op ι} (hcalled : s.Called op) :
    (∃ s', s.step op = some s' ∧ (s.Stray op → s' = s) ∧ s'.Conserved) ↔ s.Targeted op := by
  cases op with
  | add wchan td =>
    obtain ⟨s', hrun, hs'⟩ := h.sleepqAdd hcalled wchan
    exact ⟨fun _ => trivial, fun _ => ⟨s', hrun, False.elim, hs'⟩⟩
  | remove wchan td =>
    obtain ⟨sq, hlookup, hin⟩ := h.exists_blocked hcalled
    obtain ⟨s', left, hremove, hs'⟩ := h.sleepqRemove (h.lookup_eq_some.mp hlookup).1 hin
    refine ⟨fun _ => trivial, fun _ => ⟨s', ?_, False.elim, hs'⟩⟩
    rw [step, hlookup, Option.bind_some, hremove]
    rfl
  | drop wchan =>
    obtain ⟨sq, hlookup⟩ := Option.isSome_iff_exists.mp hcalled
    obtain ⟨s', hdrop, hs'⟩ := h.sleepqDrop (h.lookup_eq_some.mp hlookup).1
    refine ⟨fun _ => trivial, fun _ => ⟨s', ?_, False.elim, hs'⟩⟩
    rw [step, hlookup, Option.bind_some, hdrop]
  | signal wchan thread found =>
    cases thread with
    | none =>
      obtain ⟨s', hrun, hs'⟩ := h.signal_first wchan found
      exact ⟨fun _ => trivial, fun _ => ⟨s', hrun, False.elim, hs'⟩⟩
    | some td => exact h.signal_thread wchan td found
  | broadcast wchan =>
    obtain ⟨s', hrun, hs'⟩ := h.broadcast wchan
    exact ⟨fun _ => trivial, fun _ => ⟨s', hrun, False.elim, hs'⟩⟩

end Conserved

/-! ### Whole runs -/

variable {ops : List (Op ι)}

theorem ConservedRun.conserved (h : ConservedRun s ops) : s.Conserved := by
  cases ops with
  | nil => exact h
  | cons op ops => exact h.1

theorem conservedRun_iff (h : s.Conserved) (hcalled : Along Called s ops) :
    ConservedRun s ops ↔ Along Targeted s ops := by
  induction ops generalizing s with
  | nil => exact ⟨fun _ => trivial, fun _ => h⟩
  | cons op ops ih =>
    obtain ⟨hop, hops⟩ := hcalled
    constructor
    · rintro ⟨-, s', hstep, hstray, hrun⟩
      refine ⟨(h.step_iff hop).mp ⟨s', hstep, hstray, hrun.conserved⟩, fun s'' hstep' => ?_⟩
      obtain rfl := Option.some.inj (hstep'.symm.trans hstep)
      exact (ih hrun.conserved (hops _ hstep)).mp hrun
    · rintro ⟨htargeted, hrest⟩
      obtain ⟨s', hstep, hstray, hs'⟩ := (h.step_iff hop).mpr htargeted
      exact ⟨h, s', hstep, hstray, (ih hs' (hops _ hstep)).mpr (hrest _ hstep)⟩

/-- The queues are conserved along a run, and no stray signal changes them, exactly if every signal
for one thread is targeted. -/
theorem sleepQueues_conserved_iff (s : State ι ω) (ops : List (Op ι)) (hinitial : s.Initial)
    (hcalled : Along Called s ops) : ConservedRun s ops ↔ Along Targeted s ops :=
  conservedRun_iff (initial_conserved hinitial) hcalled

/-! ### Three threads -/

def threeThreads : State (Fin 3) (Fin 3) where
  scTable _ := []
  queues _ := {}
  threads td := ⟨some td, none⟩

theorem threeThreads_initial : threeThreads.Initial :=
  ⟨fun _ => rfl, fun _ => ⟨rfl, rfl⟩, fun _ => ⟨rfl, rfl⟩,
    fun q => ⟨q, rfl, fun _ h => Option.some.inj h⟩⟩

/-- A thread sleeps and is signalled. -/
theorem sleepQueues_conserved_iff_signalled :
    ConservedRun threeThreads [.add 8 0, .add 8 1, .signal 8 (some 0) true] := by
  refine (sleepQueues_conserved_iff threeThreads _ threeThreads_initial ?_).mpr ?_
  · refine ⟨rfl, fun s hs => ?_⟩
    cases hs
    refine ⟨rfl, fun s hs => ?_⟩
    cases hs
    exact ⟨trivial, fun _ _ => trivial⟩
  · refine ⟨trivial, fun s hs => ?_⟩
    cases hs
    refine ⟨trivial, fun s hs => ?_⟩
    cases hs
    exact ⟨.inr (.inr rfl), fun _ _ => trivial⟩

/-- Two threads sleep on a channel, and a third one, which does not, is signalled there. -/
theorem stray_signal_breaks : threeThreads.Initial ∧
    Along Called threeThreads [.add 8 0, .add 8 1, .signal 8 (some 2) true] ∧
    ¬ConservedRun threeThreads [.add 8 0, .add 8 1, .signal 8 (some 2) true] := by
  have hcalled : Along Called threeThreads [.add 8 0, .add 8 1, .signal 8 (some 2) true] := by
    refine ⟨rfl, fun s hs => ?_⟩
    cases hs
    refine ⟨rfl, fun s hs => ?_⟩
    cases hs
    exact ⟨trivial, fun _ _ => trivial⟩
  refine ⟨threeThreads_initial, hcalled, fun hrun => ?_⟩
  obtain ⟨-, hadd⟩ := (conservedRun_iff (initial_conserved threeThreads_initial) hcalled).mp hrun
  obtain ⟨-, hadd⟩ := hadd _ rfl
  obtain ⟨hfound | hnone | hwchan, -⟩ := hadd _ rfl
  · cases hfound
  · cases hnone
  · cases hwchan

end PS4Droid.Threads.SleepQueues.State
