import PS4Droid.Threads.SleepQueues

/-!
# Sleep queues are conserved

Four things happen to the objects: a thread joins a queue, opens one, leaves one, or the queue is
closed and all of its objects are handed back. Each of them moves objects from one place to another
and keeps the count of free objects one below the count of threads.
-/

namespace PS4Droid.Threads.SleepQueues.State

variable {ι ω : Type} {s s' : State ι ω} {sq q own free : ω}
  {td : ι} {wchan : Wchan}
  {freeq : List ω} {blocked : List ι}

/-- Objects move to one new place each, the others stay. -/
theorem existsUnique_moved {α β : Type} {R R' : α → β → Prop} (h : ∀ a, ∃! b, R a b)
    (moved : α → Option β)
    (hmoved : ∀ a b, moved a = some b → ∀ c, R' a c ↔ c = b)
    (hkept : ∀ a, moved a = none → ∀ c, R' a c ↔ R a c) :
    ∀ a, ∃! b, R' a b := by
  intro a
  cases hplace : moved a with
  | none =>
    simp only [hkept a hplace]
    exact h a
  | some b =>
    simp only [hmoved a b hplace]
    exact existsUnique_eq

theorem filter_ne_eq_erase [DecidableEq ι] (h : blocked.Nodup) (td : ι) :
    blocked.filter (· ≠ td) = blocked.erase td := by
  rw [h.erase_eq_filter]
  refine List.filter_congr fun other _ => ?_
  rw [Bool.eq_iff_iff, decide_eq_true_eq, bne_iff_ne]

theorem lookup_wchan (h : s.sleepqLookup wchan = some sq) : (s.queues sq).sqWchan = some wchan := by
  have hfound := List.find?_some h
  exact of_decide_eq_true hfound

/-! ### What the setters leave alone -/

@[simp]
theorem scTable_setQueue [DecidableEq ω] (q : ω) (queue : SleepQueue ι ω) :
    (s.setQueue q queue).scTable = s.scTable := rfl

@[simp]
theorem threads_setQueue [DecidableEq ω] (q : ω) (queue : SleepQueue ι ω) :
    (s.setQueue q queue).threads = s.threads := rfl

@[simp]
theorem queues_setQueue_self [DecidableEq ω] (q : ω) (queue : SleepQueue ι ω) :
    (s.setQueue q queue).queues q = queue :=
  Function.update_self ..

theorem queues_setQueue_of_ne [DecidableEq ω] (h : sq ≠ q) (queue : SleepQueue ι ω) :
    (s.setQueue q queue).queues sq = s.queues sq :=
  Function.update_of_ne h ..

@[simp]
theorem scTable_setThread [DecidableEq ι] (td : ι) (thread : Pthread ω) :
    (s.setThread td thread).scTable = s.scTable := rfl

@[simp]
theorem queues_setThread [DecidableEq ι] (td : ι) (thread : Pthread ω) :
    (s.setThread td thread).queues = s.queues := rfl

@[simp]
theorem threads_setThread_self [DecidableEq ι] (td : ι) (thread : Pthread ω) :
    (s.setThread td thread).threads td = thread :=
  Function.update_self ..

theorem threads_setThread_of_ne [DecidableEq ι] {other : ι} (h : other ≠ td) (thread : Pthread ω) :
    (s.setThread td thread).threads other = s.threads other :=
  Function.update_of_ne h ..

/-- A queue and a thread are replaced, and the others are as before. -/
theorem replaced [DecidableEq ι] [DecidableEq ω] {queue : SleepQueue ι ω} {thread : Pthread ω}
    (hs' : s' = (s.setQueue sq queue).setThread td thread) : s'.queues sq = queue ∧
      (∀ q ≠ sq, s'.queues q = s.queues q) ∧ s'.threads td = thread ∧ ∀ other ≠ td,
        s'.threads other = s.threads other := by
  subst hs'
  refine ⟨queues_setQueue_self .., fun q hne => ?_, threads_setThread_self .., fun other hne => ?_⟩
  · rw [queues_setThread, queues_setQueue_of_ne hne]
  · rw [threads_setThread_of_ne hne, threads_setQueue]

/-- What the invariant says about one object. -/
structure Sound (s : State ι ω) (sq : ω) : Prop where
  hashed : ∀ i, sq ∈ s.scTable i → ∃ wchan, (s.queues sq).sqWchan = some wchan ∧ scHash wchan = i
  counts : s.Linked sq → (s.queues sq).sqFreeq.length + 1 = (s.queues sq).sqBlocked.length
  distinct : s.Linked sq → (s.queues sq).sqBlocked.Nodup
  idle : ¬s.Linked sq → (s.queues sq).sqBlocked = [] ∧ (s.queues sq).sqFreeq = []
  blocked : ∀ td, s.Blocked sq td → s.threads td = ⟨none, (s.queues sq).sqWchan⟩
  freeq : (s.queues sq).sqFreeq.Nodup

namespace Conserved

/-! ### What the invariant says about one thread and one channel -/

theorem wchan_eq (h : s.Conserved) (hlinked : s.Linked sq) :
    ∃ wchan, (s.queues sq).sqWchan = some wchan := by
  obtain ⟨i, hmem⟩ := hlinked
  obtain ⟨wchan, hwchan, -⟩ := h.hashed i sq hmem
  exact ⟨wchan, hwchan⟩

theorem lookup_eq_some (h : s.Conserved) : s.sleepqLookup wchan = some sq ↔
    s.Linked sq ∧ (s.queues sq).sqWchan = some wchan := by
  constructor
  · intro hlookup
    exact ⟨⟨_, List.mem_of_find?_eq_some hlookup⟩, lookup_wchan hlookup⟩
  · rintro ⟨⟨i, hmem⟩, hwchan⟩
    obtain ⟨wchan', hwchan', hhash⟩ := h.hashed i sq hmem
    obtain rfl : wchan' = wchan := Option.some.inj (hwchan'.symm.trans hwchan)
    cases hlookup : s.sleepqLookup wchan' with
    | none =>
      rw [sleepqLookup, List.find?_eq_none] at hlookup
      exact absurd (decide_eq_true hwchan) (hlookup sq (hhash ▸ hmem))
    | some other =>
      have hother := lookup_wchan hlookup
      rw [h.onePerChannel other sq ⟨_, List.mem_of_find?_eq_some hlookup⟩ ⟨i,
        hmem⟩ (hother.trans hwchan.symm)]

theorem lookup_eq_none (h : s.Conserved) : s.sleepqLookup wchan = none ↔
    ∀ sq, s.Linked sq → (s.queues sq).sqWchan ≠ some wchan := by
  constructor
  · intro hlookup sq hlinked hwchan
    rw [h.lookup_eq_some.mpr ⟨hlinked, hwchan⟩] at hlookup
    cases hlookup
  · intro hnone
    cases hlookup : s.sleepqLookup wchan with
    | none => rfl
    | some sq =>
      obtain ⟨hlinked, hwchan⟩ := h.lookup_eq_some.mp hlookup
      exact absurd hwchan (hnone sq hlinked)

theorem notBlocked_of_wchan (h : s.Conserved) (hwchan : (s.threads td).wchan = none) (sq : ω) :
    ¬s.Blocked sq td := by
  intro hblocked
  obtain ⟨wchan, hsq⟩ := h.wchan_eq hblocked.1
  rw [h.blocked sq td hblocked, hsq] at hwchan
  cases hwchan

theorem blocked_iff [DecidableEq ι] (h : s.Conserved) (hlinked : s.Linked sq)
    (hsq : (s.queues sq).sqWchan = some wchan) :
    td ∈ (s.queues sq).sqBlocked ↔ (s.threads td).wchan = some wchan := by
  constructor
  · intro hmem
    rw [h.blocked sq td ⟨hlinked, hmem⟩, hsq]
  · intro hwchan
    by_contra hmem
    have hnot : ∀ other, ¬s.Blocked other td := by
      intro other hother
      have hthread := h.blocked other td hother
      rw [hthread, ← hsq] at hwchan
      rw [h.onePerChannel other sq hother.1 hlinked hwchan] at hother
      exact hmem hother.2
    rw [(h.running td hnot).1] at hwchan
    cases hwchan

theorem exists_blocked [DecidableEq ι] (h : s.Conserved)
    (hwchan : (s.threads td).wchan = some wchan) : ∃ sq,
    s.sleepqLookup wchan = some sq ∧ td ∈ (s.queues sq).sqBlocked := by
  by_contra hnone
  have hnot : ∀ sq, ¬s.Blocked sq td := by
    intro sq hblocked
    have hsq := h.blocked sq td hblocked
    rw [hsq] at hwchan
    exact hnone ⟨sq, h.lookup_eq_some.mpr ⟨hblocked.1, hwchan⟩, hblocked.2⟩
  rw [(h.running td hnot).1] at hwchan
  cases hwchan

/-- An object in one place is in no other. -/
theorem has_unique (h : s.Conserved) (p p' : Place ι ω) (hp : s.Has q p) (hp' : s.Has q p') :
    p = p' :=
  (h.place q).unique hp hp'

theorem own_not_linked (h : s.Conserved) (hown : (s.threads td).sleepqueue = some own) :
    ¬s.Linked own := by
  rintro ⟨i, hmem⟩
  cases h.has_unique (.thread td) (.chain i) hown hmem

theorem own_not_free (h : s.Conserved) (hown : (s.threads td).sleepqueue = some own) (sq : ω) :
    own ∉ (s.queues sq).sqFreeq := by
  intro hmem
  cases h.has_unique (.thread td) (.free sq) hown hmem

theorem linked_not_free (h : s.Conserved) (hlinked : s.Linked q) (sq : ω) :
    q ∉ (s.queues sq).sqFreeq := by
  obtain ⟨i, hmem⟩ := hlinked
  intro hfree
  cases h.has_unique (.chain i) (.free sq) hmem hfree

theorem blocked_unique (h : s.Conserved) (hblocked : s.Blocked q td)
    (hmem : td ∈ (s.queues sq).sqBlocked) : q = sq := by
  have hlinked : s.Linked sq := by
    by_contra hnot
    rw [(h.idle sq hnot).1] at hmem
    cases hmem
  have hthread := h.blocked q td hblocked
  rw [h.blocked sq td ⟨hlinked, hmem⟩] at hthread
  exact h.onePerChannel q sq hblocked.1 hlinked (congrArg Pthread.wchan hthread).symm

/-- One object moves from its place to another one. -/
theorem place_moved [DecidableEq ω] (h : s.Conserved) (src dst : Place ι ω) (hsrc : s.Has own src)
    (hkept : ∀ q p, p ≠ src → p ≠ dst → (s'.Has q p ↔ s.Has q p))
    (hleft : ∀ q, s'.Has q src ↔ q ≠ own ∧ s.Has q src)
    (hcame : ∀ q, s'.Has q dst ↔ q = own ∨ s.Has q dst) : ∀ q, ∃! p, s'.Has q p := by
  refine existsUnique_moved h.place (fun q => if q = own then some dst else none) ?_ ?_
  · intro q place hto p
    split_ifs at hto with heq
    cases hto
    subst heq
    constructor
    · intro hhas
      by_contra hdst
      rcases eq_or_ne p src with rfl | hne
      · exact ((hleft q).mp hhas).1 rfl
      · exact hne (h.has_unique p src ((hkept q p hne hdst).mp hhas) hsrc)
    · rintro rfl
      exact (hcame q).mpr (.inl rfl)
  · intro q hto p
    have hne : q ≠ own := fun heq => by simp only [heq, if_true, reduceCtorEq] at hto
    rcases eq_or_ne p src with rfl | hp
    · rw [hleft, and_iff_right hne]
    rcases eq_or_ne p dst with rfl | hp'
    · rw [hcame, or_iff_right hne]
    · exact hkept q p hp hp'

/-! ### A step at one queue -/

variable [DecidableEq ι] [DecidableEq ω]

/-- A step that changes one object, the threads of its queue and perhaps where it is linked. -/
theorem exchange (h : s.Conserved) (sq : ω) (hother : ∀ q ≠ sq, s'.queues q = s.queues q)
    (hchain : ∀ i, ∀ q ≠ sq, q ∈ s'.scTable i ↔ q ∈ s.scTable i)
    (hchains : ∀ i, (s'.scTable i).Nodup)
    (hstay : ∀ td, td ∉ (s.queues sq).sqBlocked → td ∉ (s'.queues sq).sqBlocked →
      s'.threads td = s.threads td)
    (hjoined : ∀ td ∈ (s'.queues sq).sqBlocked, ∀ q ≠ sq, ¬s.Blocked q td)
    (hleft : ∀ td ∈ (s.queues sq).sqBlocked, td ∉ (s'.queues sq).sqBlocked →
      (s'.threads td).wchan = none ∧ (s'.threads td).sleepqueue.isSome)
    (halone : s'.Linked sq → ∀ q ≠ sq, s.Linked q → (s.queues q).sqWchan ≠ (s'.queues sq).sqWchan)
    (hlocal : s'.Sound sq) (hplace : ∀ q, ∃! p, s'.Has q p) : s'.Conserved := by
  have hlinks : ∀ q ≠ sq, s'.Linked q ↔ s.Linked q := by
    intro q hne
    exact exists_congr fun i => hchain i q hne
  have hblocks : ∀ q ≠ sq, ∀ td, s'.Blocked q td ↔ s.Blocked q td := by
    intro q hne td
    rw [Blocked, Blocked, hlinks q hne, hother q hne]
  refine ⟨?_, ?_, ?_, ?_, ?_, ?_, ?_, hchains, ?_, hplace⟩
  · intro i q hq
    rcases eq_or_ne q sq with rfl | hne
    · exact hlocal.hashed i hq
    · rw [hother q hne]
      exact h.hashed i q ((hchain i q hne).mp hq)
  · intro q q' hq hq' heq
    rcases eq_or_ne q sq with rfl | hne
    · by_contra hne'
      have hne' : q' ≠ q := Ne.symm hne'
      rw [hother q' hne'] at heq
      exact halone hq q' hne' ((hlinks q' hne').mp hq') heq.symm
    · rcases eq_or_ne q' sq with rfl | hne'
      · rw [hother q hne] at heq
        exact absurd heq (halone hq' q hne ((hlinks q hne).mp hq))
      · rw [hother q hne, hother q' hne'] at heq
        exact h.onePerChannel q q' ((hlinks q hne).mp hq) ((hlinks q' hne').mp hq') heq
  · intro q hq
    rcases eq_or_ne q sq with rfl | hne
    · exact hlocal.counts hq
    · rw [hother q hne]
      exact h.counts q ((hlinks q hne).mp hq)
  · intro q hq
    rcases eq_or_ne q sq with rfl | hne
    · exact hlocal.distinct hq
    · rw [hother q hne]
      exact h.distinct q ((hlinks q hne).mp hq)
  · intro q hq
    rcases eq_or_ne q sq with rfl | hne
    · exact hlocal.idle hq
    · rw [hother q hne]
      exact h.idle q (fun hlinked => hq ((hlinks q hne).mpr hlinked))
  · intro q td hq
    rcases eq_or_ne q sq with rfl | hne
    · exact hlocal.blocked td hq
    · have hold := (hblocks q hne td).mp hq
      have hgone : td ∉ (s.queues sq).sqBlocked := fun hmem => hne (h.blocked_unique hold hmem)
      have hnew : td ∉ (s'.queues sq).sqBlocked := fun hmem => hjoined td hmem q hne hold
      rw [hstay td hgone hnew, hother q hne]
      exact h.blocked q td hold
  · intro td hfree
    have hnew : td ∉ (s'.queues sq).sqBlocked := by
      intro hmem
      by_cases hlinked : s'.Linked sq
      · exact hfree sq ⟨hlinked, hmem⟩
      · rw [(hlocal.idle hlinked).1] at hmem
        cases hmem
    by_cases hold : td ∈ (s.queues sq).sqBlocked
    · exact hleft td hold hnew
    · rw [hstay td hold hnew]
      refine h.running td fun q hq => ?_
      rcases eq_or_ne q sq with rfl | hne
      · exact hold hq.2
      · exact hfree q ((hblocks q hne td).mpr hq)
  · intro q
    rcases eq_or_ne q sq with rfl | hne
    · exact hlocal.freeq
    · rw [hother q hne]
      exact h.freeqs q

/-! ### The four moves -/

/-- A thread joins the queue of its channel. -/
theorem join (h : s.Conserved) (hlinked : s.Linked sq) (hwchan : (s.queues sq).sqWchan = some wchan)
    (hrunning : (s.threads td).wchan = none) (hown : (s.threads td).sleepqueue = some own)
    (hs' : s' = (s.setQueue sq { s.queues sq with
      sqFreeq := own :: (s.queues sq).sqFreeq
      sqBlocked := td :: (s.queues sq).sqBlocked }).setThread td ⟨none, some wchan⟩) :
        s'.Conserved := by
  have hnot := h.notBlocked_of_wchan hrunning
  have htable : s'.scTable = s.scTable := by rw [hs']; rfl
  have hlinked' : s'.Linked sq := by rwa [Linked, htable]
  obtain ⟨hsq, hother, htd, hthreads⟩ := replaced hs'
  refine h.exchange sq hother (fun i q _ => by rw [htable])
    (by rw [htable]; exact h.chains) ?_ ?_ ?_ ?_ ?_ ?_
  · intro other _ hnew
    rw [hsq] at hnew
    exact hthreads other (List.ne_of_not_mem_cons hnew)
  · intro other hmem q hne hblocked
    rw [hsq] at hmem
    obtain rfl | hmem := List.mem_cons.mp hmem
    · exact hnot q hblocked
    · exact hne (h.blocked_unique hblocked hmem)
  · intro other hmem hnew
    rw [hsq] at hnew
    exact absurd (List.mem_cons_of_mem _ hmem) hnew
  · intro _ q hne hq heq
    rw [hsq] at heq
    exact hne (h.onePerChannel q sq hq hlinked heq)
  · refine ⟨?_, fun _ => ?_, fun _ => ?_, fun hidle => absurd hlinked' hidle, ?_, ?_⟩
    · rw [htable, hsq]
      exact fun i hmem => h.hashed i sq hmem
    · rw [hsq, List.length_cons, List.length_cons, h.counts sq hlinked]
    · rw [hsq]
      exact List.nodup_cons.mpr ⟨fun hmem => hnot sq ⟨hlinked, hmem⟩, h.distinct sq hlinked⟩
    · rintro other ⟨-, hmem⟩
      rw [hsq] at hmem ⊢
      rcases eq_or_ne other td with rfl | hne
      · rw [htd, hwchan]
      · rw [hthreads other hne]
        exact h.blocked sq other ⟨hlinked, List.mem_of_ne_of_mem hne hmem⟩
    · rw [hsq]
      exact List.nodup_cons.mpr ⟨h.own_not_free hown sq, h.freeqs sq⟩
  · refine h.place_moved (.thread td) (.free sq) hown (fun q p hsrc hdst => ?_)
      (fun q => ?_) fun q => ?_
    · cases p with
      | thread other => simp only [Has, hthreads other fun heq => hsrc (heq ▸ rfl)]
      | chain i => simp only [Has, htable]
      | free q' => simp only [Has, hother q' fun heq => hdst (heq ▸ rfl)]
    · simp only [Has, htd, hown, Option.some.injEq, reduceCtorEq, false_iff, not_and]
      exact Ne.symm
    · simp only [Has, hsq, List.mem_cons]

/-- A thread opens the queue of a channel without one. -/
theorem opened (h : s.Conserved) (hnone : ∀ q, s.Linked q → (s.queues q).sqWchan ≠ some wchan)
    (hrunning : (s.threads td).wchan = none) (hown : (s.threads td).sleepqueue = some own)
    (hs' : s' = ({ s with
        scTable := Function.update s.scTable (scHash wchan) (own :: s.scTable (scHash wchan))
        }.setQueue own { s.queues own with
        sqWchan := some wchan, sqBlocked := td :: (s.queues own).sqBlocked }).setThread td
      ⟨none, some wchan⟩) : s'.Conserved := by
  have hnot := h.notBlocked_of_wchan hrunning
  have hfresh := h.own_not_linked hown
  obtain ⟨hnobody, hnofree⟩ := h.idle own hfresh
  have htable : s'.scTable = Function.update s.scTable (scHash wchan)
    (own :: s.scTable (scHash wchan)) := by rw [hs']; rfl
  have hmem : ∀ i q, q ∈ s'.scTable i ↔ q ∈ s.scTable i ∨ (q = own ∧ i = scHash wchan) := by
    intro i q
    rw [htable]
    rcases eq_or_ne i (scHash wchan) with rfl | hne
    · rw [Function.update_self, List.mem_cons]
      tauto
    · rw [Function.update_of_ne hne]
      tauto
  obtain ⟨hsq, hother, htd, hthreads⟩ := replaced hs'
  simp only [hnobody, hnofree] at hsq
  refine h.exchange own hother ?_ ?_ ?_ ?_ ?_ ?_ ?_ ?_
  · intro i q hne
    simp only [hmem, hne, false_and, or_false]
  · intro i
    rw [htable]
    rcases eq_or_ne i (scHash wchan) with rfl | hne
    · rw [Function.update_self]
      exact List.nodup_cons.mpr ⟨fun hin => hfresh ⟨_, hin⟩, h.chains _⟩
    · rw [Function.update_of_ne hne]
      exact h.chains i
  · intro other _ hnew
    rw [hsq] at hnew
    exact hthreads other (List.ne_of_not_mem_cons hnew)
  · intro other hin q _ hblocked
    rw [hsq] at hin
    obtain rfl := List.mem_singleton.mp hin
    exact hnot q hblocked
  · intro other hin
    rw [hnobody] at hin
    cases hin
  · intro _ q _ hq
    rw [hsq]
    exact hnone q hq
  · refine ⟨?_, ?_, ?_, ?_, ?_, ?_⟩
    · intro i hin
      obtain hin | ⟨-, rfl⟩ := (hmem i own).mp hin
      · exact absurd ⟨i, hin⟩ hfresh
      · exact ⟨wchan, by rw [hsq], rfl⟩
    · intro _
      rw [hsq]
      rfl
    · intro _
      rw [hsq]
      exact List.nodup_singleton td
    · intro hidle
      exact absurd ⟨scHash wchan, (hmem _ own).mpr (.inr ⟨rfl, rfl⟩)⟩ hidle
    · rintro other ⟨-, hin⟩
      rw [hsq] at hin ⊢
      rw [List.mem_singleton.mp hin, htd]
    · rw [hsq]
      exact List.nodup_nil
  · refine h.place_moved (.thread td) (.chain (scHash wchan)) hown (fun q p hsrc hdst => ?_)
      (fun q => ?_) fun q => ?_
    · cases p with
      | thread other => simp only [Has, hthreads other fun heq => hsrc (heq ▸ rfl)]
      | chain i =>
        have hne : i ≠ scHash wchan := fun heq => hdst (heq ▸ rfl)
        simp only [Has, hmem, hne, and_false, or_false]
      | free q' =>
        rcases eq_or_ne q' own with rfl | hne
        · simp only [Has, hsq, hnofree]
        · simp only [Has, hother q' hne]
    · simp only [Has, htd, hown, Option.some.injEq, reduceCtorEq, false_iff, not_and]
      exact Ne.symm
    · simp only [Has, hmem, and_true, or_comm]

/-- A thread leaves a queue that others sleep in, with the first free object. -/
theorem leave (h : s.Conserved) (hlinked : s.Linked sq) (hin : td ∈ (s.queues sq).sqBlocked)
    (hfreeq : (s.queues sq).sqFreeq = free :: freeq) (hs' : s' = (s.setQueue sq { s.queues sq with
      sqBlocked := (s.queues sq).sqBlocked.filter (· ≠ td), sqFreeq := freeq }).setThread td
        ⟨some free, none⟩) :
    s'.Conserved := by
  have htable : s'.scTable = s.scTable := by rw [hs']; rfl
  have hlinked' : s'.Linked sq := by rwa [Linked, htable]
  obtain ⟨hsq, hother, htd, hthreads⟩ := replaced hs'
  have hmem : ∀ other, other ∈ (s'.queues sq).sqBlocked ↔ other ∈ (s.queues sq).sqBlocked ∧
    other ≠ td := by
    intro other
    simp only [hsq, List.mem_filter, decide_eq_true_eq]
  have hnodup := h.freeqs sq
  rw [hfreeq, List.nodup_cons] at hnodup
  have hfree : s.Has free (.free sq) := by
    rw [Has, hfreeq]
    exact List.mem_cons_self
  refine h.exchange sq hother (fun i q _ => by rw [htable])
    (by rw [htable]; exact h.chains) ?_ ?_ ?_ ?_ ?_ ?_
  · intro other hold _
    exact hthreads other fun heq => hold (heq ▸ hin)
  · intro other hnew q hne hblocked
    exact hne (h.blocked_unique hblocked ((hmem other).mp hnew).1)
  · intro other hold hnew
    have heq : other = td := by
      by_contra hne
      exact hnew ((hmem other).mpr ⟨hold, hne⟩)
    rw [heq, htd]
    exact ⟨rfl, rfl⟩
  · intro _ q hne hq heq
    rw [hsq] at heq
    exact hne (h.onePerChannel q sq hq hlinked heq)
  · refine ⟨?_, fun _ => ?_, fun _ => ?_, fun hidle => absurd hlinked' hidle, ?_, ?_⟩
    · rw [htable, hsq]
      exact fun i hchain => h.hashed i sq hchain
    · have hcount := h.counts sq hlinked
      rw [hsq, filter_ne_eq_erase (h.distinct sq hlinked), List.length_erase_of_mem hin]
      rw [hfreeq, List.length_cons] at hcount
      simp only
      omega
    · rw [hsq]
      exact (h.distinct sq hlinked).filter _
    · rintro other ⟨-, hnew⟩
      obtain ⟨hold, hne⟩ := (hmem other).mp hnew
      rw [hthreads other hne, hsq]
      exact h.blocked sq other ⟨hlinked, hold⟩
    · rw [hsq]
      exact hnodup.2
  · refine h.place_moved (.free sq) (.thread td) hfree (fun q p hsrc hdst => ?_)
      (fun q => ?_) fun q => ?_
    · cases p with
      | thread other => simp only [Has, hthreads other fun heq => hdst (heq ▸ rfl)]
      | chain i => simp only [Has, htable]
      | free q' => simp only [Has, hother q' fun heq => hsrc (heq ▸ rfl)]
    · simp only [Has, hsq, hfreeq, List.mem_cons, ne_eq]
      exact ⟨fun hq => ⟨fun heq => hnodup.1 (heq ▸ hq), .inr hq⟩, fun hq => hq.2.resolve_left hq.1⟩
    · simp only [Has, htd, h.blocked sq td ⟨hlinked, hin⟩, Option.some.injEq, reduceCtorEq,
        or_false, eq_comm]

/-- A queue is closed: its threads get its object and the free ones. -/
theorem closed (h : s.Conserved) (hlinked : s.Linked sq)
    (htable : ∀ i, s'.scTable i = (s.scTable i).filter (· ≠ sq))
    (hsq : (s'.queues sq).sqBlocked = [] ∧ (s'.queues sq).sqFreeq = [])
    (hother : ∀ q ≠ sq, s'.queues q = s.queues q)
    (hthreads : ∀ td ∉ (s.queues sq).sqBlocked, s'.threads td = s.threads td)
    (hback : ∀ (k : ℕ) td, (s.queues sq).sqBlocked[k]? = some td →
      s'.threads td = ⟨(sq :: (s.queues sq).sqFreeq)[k]?, none⟩) : s'.Conserved := by
  have hmem : ∀ i q, q ∈ s'.scTable i ↔ q ∈ s.scTable i ∧ q ≠ sq := by
    intro i q
    rw [htable, List.mem_filter, decide_eq_true_eq]
  have hunlinked : ¬s'.Linked sq := fun ⟨i, hin⟩ => ((hmem i sq).mp hin).2 rfl
  have hcount := h.counts sq hlinked
  refine h.exchange sq hother ?_ ?_ ?_ ?_ ?_ ?_ ?_ ?_
  · intro i q hne
    rw [hmem, and_iff_left hne]
  · intro i
    rw [htable]
    exact (h.chains i).filter _
  · exact fun other hold _ => hthreads other hold
  · intro other hin
    rw [hsq.1] at hin
    cases hin
  · intro other hold _
    obtain ⟨k, hk, hat⟩ := List.mem_iff_getElem.mp hold
    rw [hback k other (hat ▸ List.getElem?_eq_getElem hk),
      List.getElem?_eq_getElem (by rw [List.length_cons]; omega)]
    exact ⟨rfl, rfl⟩
  · exact fun hlinked' => absurd hlinked' hunlinked
  · refine ⟨?_, fun hl => absurd hl hunlinked, fun hl => absurd hl hunlinked, fun _ => hsq, ?_, ?_⟩
    · exact fun i hin => absurd ⟨i, hin⟩ hunlinked
    · exact fun other hblocked => absurd hblocked.1 hunlinked
    · rw [hsq.2]
      exact List.nodup_nil
  · have hnodup : (sq :: (s.queues sq).sqFreeq).Nodup :=
      List.nodup_cons.mpr ⟨h.linked_not_free hlinked sq, h.freeqs sq⟩
    have hlength : (sq :: (s.queues sq).sqFreeq).length = (s.queues sq).sqBlocked.length := by
      rw [List.length_cons, hcount]
    have hplaced : ∀ q ∈ sq :: (s.queues sq).sqFreeq, (∃ i, s.Has q (.chain i)) ∨
      s.Has q (.free sq) := by
      intro q hin
      obtain rfl | hin := List.mem_cons.mp hin
      · exact .inl hlinked
      · exact .inr hin
    refine existsUnique_moved h.place (fun q => if q ∈ sq :: (s.queues sq).sqFreeq then
      (s.queues sq).sqBlocked[(sq :: (s.queues sq).sqFreeq).idxOf q]?.map Place.thread
        else none) ?_ ?_
    · intro q place hto p
      split_ifs at hto with hin
      obtain ⟨td, hat, rfl⟩ := Option.map_eq_some_iff.mp hto
      have hk := List.getElem?_idxOf hin
      generalize (sq :: (s.queues sq).sqFreeq).idxOf q = k at hat hk
      cases p with
      | thread other =>
        simp only [Has, Place.thread.injEq]
        constructor
        · intro hhas
          by_cases hold : other ∈ (s.queues sq).sqBlocked
          · obtain ⟨k', hat'⟩ := List.mem_iff_getElem?.mp hold
            rw [hback k' other hat'] at hhas
            have hlt := (List.getElem?_eq_some_iff.mp hk).1
            obtain rfl := (List.getElem?_inj hlt hnodup).mp (hk.trans hhas.symm)
            exact Option.some.inj (hat'.symm.trans hat)
          · rw [hthreads other hold] at hhas
            obtain ⟨i, hchain⟩ | hfree := hplaced q hin
            · cases h.has_unique (.thread other) _ hhas hchain
            · cases h.has_unique (.thread other) _ hhas hfree
        · rintro rfl
          rw [hback k other hat, hk]
      | chain i =>
        simp only [Has, hmem, reduceCtorEq, iff_false]
        rintro ⟨hchain, hne⟩
        obtain heq | hfree := List.mem_cons.mp hin
        · exact hne heq
        · exact h.linked_not_free ⟨i, hchain⟩ sq hfree
      | free q' =>
        rcases eq_or_ne q' sq with rfl | hne
        · simp only [Has, hsq.2, List.not_mem_nil, reduceCtorEq]
        · simp only [Has, hother q' hne, reduceCtorEq, iff_false]
          intro hhas
          obtain ⟨i, hchain⟩ | hfree := hplaced q hin
          · cases h.has_unique (.free q') _ hhas hchain
          · cases h.has_unique (.free q') _ hhas hfree
            exact hne rfl
    · intro q hto p
      have hout : q ∉ sq :: (s.queues sq).sqFreeq := by
        intro hin
        have hlt := List.idxOf_lt_length_of_mem hin
        rw [hlength] at hlt
        simp only [hin, if_true, List.getElem?_eq_getElem hlt, Option.map_some, reduceCtorEq] at hto
      rw [List.mem_cons, not_or] at hout
      cases p with
      | thread other =>
        by_cases hold : other ∈ (s.queues sq).sqBlocked
        · obtain ⟨k, hat⟩ := List.mem_iff_getElem?.mp hold
          simp only [Has, hback k other hat, h.blocked sq other ⟨hlinked, hold⟩, reduceCtorEq,
            iff_false]
          intro hk
          exact List.not_mem_cons_of_ne_of_not_mem hout.1 hout.2 (List.mem_of_getElem? hk)
        · simp only [Has, hthreads other hold]
      | chain i => simp only [Has, hmem, hout.1, ne_eq, not_false_eq_true, and_true]
      | free q' =>
        rcases eq_or_ne q' sq with rfl | hq'
        · simp only [Has, hsq.2, List.not_mem_nil, hout.2]
        · simp only [Has, hother q' hq']

end Conserved

end PS4Droid.Threads.SleepQueues.State
