import PS4Droid.VideoCore.StreamBuffer

/-!
# Regions of the stream buffer in use

No region that `StreamBuffer.map` hands out overlaps a committed region whose tick is not completed.
The committed regions fall into three groups: those of the current pass lie before the write
position; those of the previous pass are covered by its watches; and every region of an older pass
has a tick up to that of the first watch of the previous pass, which is waited for before anything
is handed out.
-/

namespace PS4Droid.VideoCore

namespace StreamBuffer

variable {alignment cursor offset upper size : ℕ} {watches : Watches} {region : CommittedRegion}
  {allowWait : Bool}

/-- Aligning a value that stays below the end of the address range. -/
theorem alignUp_moderate {value : ℕ} (ha : 0 < alignment) (h : value + alignment ≤ 2 ^ 64) :
    value ≤ alignUp value alignment ∧ alignUp value alignment < value + alignment ∧
      alignment ∣ alignUp value alignment := by
  unfold alignUp
  split_ifs with hzero
  · exact ⟨le_rfl, by omega, Nat.dvd_of_mod_eq_zero hzero⟩
  · have hle : value % alignment ≤ value := Nat.mod_le _ _
    have hlt := Nat.mod_lt value ha
    rw [add64_eq (by omega)]
    refine ⟨by omega, by omega, Nat.dvd_add (Nat.dvd_sub_mod value) (dvd_refl alignment)⟩

theorem alignUp_zero (alignment : ℕ) : alignUp 0 alignment = 0 := by
  simp [alignUp]

/-- The region is empty, its tick is completed, or one of the first `cursor` watches has its tick
and all watches before that one end where it begins or earlier. -/
def Covered (completed : ℕ) (watches : Watches) (cursor : ℕ) (region : CommittedRegion) : Prop :=
  region.upper ≤ region.lower ∨ region.tick ≤ completed ∨
    ∃ i < cursor, region.tick ≤ (watches.entry i).tick ∧
      ∀ j < i, (watches.entry j).upperBound ≤ region.lower

theorem Covered.mono {completed completed' : ℕ} (h : Covered completed watches cursor region)
    (hle : completed ≤ completed') : Covered completed' watches cursor region := by
  rcases h with hempty | htick | hwatch
  · exact .inl hempty
  · exact .inr (.inl (htick.trans hle))
  · exact .inr (.inr hwatch)

/-- The tick of the first watch of the previous pass, zero when there is none. -/
def firstTick (buffer : StreamBuffer) : ℕ :=
  if buffer.invalidationMark = none then 0 else (buffer.previousWatches.entry 0).tick

/-- The bookkeeping of a buffer whose committed regions are `current`, `previous` and `older`, in
terms of the ticks of the scheduler. -/
structure Tracks (buffer : StreamBuffer) (currentTick completed : ℕ)
    (current previous older : List CommittedRegion) : Prop where
  offset_le : buffer.offset ≤ buffer.kind.sizeBytes
  cursor_lt : buffer.currentWatchCursor < buffer.currentWatches.size
  previous_pos : 0 < buffer.previousWatches.size
  mark_le : ∀ mark ∈ buffer.invalidationMark, 0 < mark ∧ mark ≤ buffer.previousWatches.size
  cursor_pos : 0 < buffer.offset → 0 < buffer.currentWatchCursor
  first_pass : buffer.invalidationMark = none → previous = [] ∧ older = []
  -- the current pass
  current_upper : ∀ region ∈ current, region.upper ≤ buffer.offset
  current_covered : ∀ region ∈ current,
    Covered completed buffer.currentWatches buffer.currentWatchCursor region
  current_bounds : ∀ i < buffer.currentWatchCursor,
    (buffer.currentWatches.entry i).upperBound ≤ buffer.offset
  -- the passes before it
  previous_covered : ∀ mark ∈ buffer.invalidationMark, ∀ region ∈ previous,
    Covered completed buffer.previousWatches mark region
  older_covered : ∀ region ∈ older, region.upper ≤ region.lower ∨ region.tick ≤ completed ∨
    region.tick ≤ buffer.firstTick
  waited : ∀ i < buffer.waitCursor, (buffer.previousWatches.entry i).tick ≤ completed
  wait_bound : buffer.waitBound = 0 ∨ ∃ k, buffer.waitCursor = k + 1 ∧
    buffer.waitBound = (buffer.previousWatches.entry k).upperBound
  -- ticks grow from pass to pass, and so the entries that are not overwritten yet are old
  tick_le : ∀ region ∈ current ++ previous ++ older, region.tick ≤ currentTick
  watch_le : ∀ i, (buffer.currentWatches.entry i).tick ≤ currentTick ∧
    (buffer.previousWatches.entry i).tick ≤ currentTick
  first_le : 0 < buffer.currentWatchCursor →
    (∀ region ∈ previous ++ older, region.tick ≤ (buffer.currentWatches.entry 0).tick) ∧
      ∀ i, (buffer.previousWatches.entry i).tick ≤ (buffer.currentWatches.entry 0).tick
  stale : ∀ i, buffer.currentWatchCursor ≤ i →
    (buffer.currentWatches.entry i).tick ≤ buffer.firstTick

variable {buffer : StreamBuffer} {currentTick currentTick' completed completed' : ℕ}
  {current previous older : List CommittedRegion}

theorem tracks_create (kind : BufferKind) (currentTick completed : ℕ) :
    (create kind).Tracks currentTick completed [] [] [] where
  offset_le := Nat.zero_le _
  cursor_lt := show 0 < 0 + watchesInitialReserve by decide
  previous_pos := show 0 < 0 + watchesInitialReserve by decide
  mark_le := nofun
  cursor_pos := fun h => absurd h (Nat.lt_irrefl 0)
  first_pass := fun _ => ⟨rfl, rfl⟩
  current_upper := nofun
  current_covered := nofun
  current_bounds := nofun
  previous_covered := nofun
  older_covered := nofun
  waited := nofun
  wait_bound := .inl rfl
  tick_le := nofun
  watch_le := fun _ => ⟨Nat.zero_le _, Nat.zero_le _⟩
  first_le := fun h => absurd h (Nat.lt_irrefl 0)
  stale := fun _ _ => Nat.zero_le _

theorem Tracks.mono (h : buffer.Tracks currentTick completed current previous older)
    (hcurrent : currentTick ≤ currentTick') (hcompleted : completed ≤ completed') :
    buffer.Tracks currentTick' completed' current previous older :=
  { h with
    current_covered := fun region hr => (h.current_covered region hr).mono hcompleted
    previous_covered := fun mark hm region hr =>
      (h.previous_covered mark hm region hr).mono hcompleted
    older_covered := fun region hr => (h.older_covered region hr).imp id
      (Or.imp (fun ht => ht.trans hcompleted) id)
    waited := fun i hi => (h.waited i hi).trans hcompleted
    tick_le := fun region hr => (h.tick_le region hr).trans hcurrent
    watch_le := fun i => ⟨(h.watch_le i).1.trans hcurrent, (h.watch_le i).2.trans hcurrent⟩ }

theorem Tracks.move (h : buffer.Tracks currentTick completed current previous older)
    {mappedSize : ℕ} (hle : buffer.offset ≤ offset) (hend : offset ≤ buffer.kind.sizeBytes)
    (hpos : 0 < offset → 0 < buffer.offset) :
    { buffer with offset := offset, mappedSize := mappedSize }.Tracks currentTick completed
      current previous older :=
  { h with
    offset_le := hend
    cursor_pos := fun hoff => h.cursor_pos (hpos hoff)
    current_upper := fun region hr => (h.current_upper region hr).trans hle
    current_bounds := fun i hi => (h.current_bounds i hi).trans hle }

/-- A new pass begins: the regions of the last two passes become old ones. -/
theorem Tracks.wrap (h : buffer.Tracks currentTick completed current previous older)
    (hcursor : 0 < buffer.currentWatchCursor) :
    buffer.wrap.Tracks currentTick completed [] current (previous ++ older) where
  offset_le := Nat.zero_le _
  cursor_lt := h.previous_pos
  previous_pos := (Nat.zero_le _).trans_lt h.cursor_lt
  mark_le := by
    rintro mark ⟨⟩
    exact ⟨hcursor, h.cursor_lt.le⟩
  cursor_pos := fun hpos => absurd hpos (Nat.lt_irrefl 0)
  first_pass := nofun
  current_upper := nofun
  current_covered := nofun
  current_bounds := nofun
  previous_covered := by
    rintro mark ⟨⟩
    exact h.current_covered
  older_covered := fun region hregion => .inr (.inr ((h.first_le hcursor).1 region hregion))
  waited := nofun
  wait_bound := .inl rfl
  tick_le := by
    intro region hregion
    rw [List.nil_append, ← List.append_assoc] at hregion
    exact h.tick_le region hregion
  watch_le := fun i => (h.watch_le i).symm
  first_le := fun hpos => absurd hpos (Nat.lt_irrefl 0)
  -- the entries that this pass overwrites are those of the pass before the last one
  stale := fun i _ => (h.first_le hcursor).2 i

/-- The watches that a request up to `upper` needs have been waited for. -/
def Waited (buffer : StreamBuffer) (upper : ℕ) : Prop :=
  upper ≤ buffer.waitBound ∨ ∀ mark ∈ buffer.invalidationMark, mark ≤ buffer.waitCursor

/-- The buffer after waiting differs in how far it has waited only. -/
def SameRegions (buffer after : StreamBuffer) : Prop :=
  ∃ waitCursor waitBound,
    after = { buffer with waitCursor := waitCursor, waitBound := waitBound }

variable {S : Scheduler}

theorem SameRegions.trans {middle after : StreamBuffer} (h : buffer.SameRegions middle)
    (h' : middle.SameRegions after) : buffer.SameRegions after := by
  obtain ⟨cursor, bound, rfl⟩ := h
  obtain ⟨cursor', bound', rfl⟩ := h'
  exact ⟨cursor', bound', rfl⟩

/-- What waiting leaves: the same regions, ticks that did not decrease and, when it succeeded, the
watches of the request waited for. -/
structure WaitsFor (S : Scheduler) (upper : ℕ) (buffer : StreamBuffer) (s : S.State)
    (current previous older : List CommittedRegion) (done : Bool) (after : StreamBuffer)
    (s' : S.State) : Prop where
  same : buffer.SameRegions after
  tracks : after.Tracks (S.currentTick s') (S.completedTick s') current previous older
  currentTick_le : S.currentTick s ≤ S.currentTick s'
  completedTick_le : S.completedTick s ≤ S.completedTick s'
  waited : done = true → after.Waited upper

theorem Tracks.waitFor (h : buffer.Tracks currentTick completed current previous older)
    (htick : (buffer.previousWatches.entry buffer.waitCursor).tick ≤ completed) : { buffer with
      waitBound := (buffer.previousWatches.entry buffer.waitCursor).upperBound
      waitCursor := buffer.waitCursor + 1 }.Tracks currentTick completed current previous older :=
  { h with
    waited := fun i hi => by
      rcases Nat.lt_succ_iff_lt_or_eq.1 hi with hlt | rfl
      · exact h.waited i hlt
      · exact htick
    wait_bound := .inr ⟨buffer.waitCursor, rfl, rfl⟩ }

variable {s : S.State}

theorem Tracks.waitLoop {left mark : ℕ}
    (h : buffer.Tracks (S.currentTick s) (S.completedTick s) current previous older)
    (hmark : buffer.invalidationMark = some mark) (hleft : left = mark - buffer.waitCursor) :
    Outcome (fun _ => False) (StreamBuffer.waitLoop S upper allowWait left buffer s) fun r =>
      WaitsFor S upper buffer s current previous older r.1 r.2.1 r.2.2 := by
  induction left generalizing buffer s with
  | zero =>
    refine ⟨⟨_, _, rfl⟩, h, le_rfl, le_rfl, fun _ => .inr fun m hm => ?_⟩
    rw [hmark] at hm
    cases hm
    exact Nat.sub_eq_zero_iff_le.1 hleft.symm
  | succ left ih =>
    simp only [StreamBuffer.waitLoop]
    by_cases hbound : buffer.waitBound < upper
    · have hsize := (h.mark_le mark hmark).2
      rw [if_pos hbound, if_pos (by omega)]
      let tick := (buffer.previousWatches.entry buffer.waitCursor).tick
      have hfree := h.mono (S.currentTick_le_isFree s tick) (S.completedTick_le_isFree s tick)
      split_ifs
      · exact ⟨⟨_, _, rfl⟩, hfree, S.currentTick_le_isFree _ _, S.completedTick_le_isFree _ _,
          nofun⟩
      · have hwait := (hfree.mono (S.currentTick_le_wait _ tick)
          (S.completedTick_le_wait _ tick)).waitFor (S.le_completedTick_wait _ tick)
        refine (ih hwait hmark (by simp only; omega)).mono fun r hr => ?_
        refine ⟨SameRegions.trans ⟨_, _, rfl⟩ hr.same, hr.tracks, ?_, ?_, hr.waited⟩
        · exact (S.currentTick_le_isFree _ _).trans
            ((S.currentTick_le_wait _ _).trans hr.currentTick_le)
        · exact (S.completedTick_le_isFree _ _).trans
            ((S.completedTick_le_wait _ _).trans hr.completedTick_le)
    · rw [if_neg hbound]
      exact ⟨⟨_, _, rfl⟩, h, le_rfl, le_rfl, fun _ => .inl (Nat.le_of_not_lt hbound)⟩

theorem Tracks.waitPendingOperations
    (h : buffer.Tracks (S.currentTick s) (S.completedTick s) current previous older) :
    Outcome (fun _ => False) (buffer.waitPendingOperations S s upper allowWait) fun r =>
      WaitsFor S upper buffer s current previous older r.1 r.2.1 r.2.2 := by
  unfold StreamBuffer.waitPendingOperations
  cases hmark : buffer.invalidationMark with
  | none =>
    refine ⟨⟨_, _, rfl⟩, h, le_rfl, le_rfl, fun _ => .inr fun mark hm => ?_⟩
    rw [hmark] at hm
    cases hm
  | some mark => exact h.waitLoop hmark rfl

/-- Before anything is handed out, the first watch of the previous pass is waited for. -/
theorem Tracks.firstTick_le (h : buffer.Tracks currentTick completed current previous older)
    (hupper : 0 < upper) (hwaited : buffer.Waited upper) : buffer.firstTick ≤ completed := by
  unfold firstTick
  split_ifs with hnone
  · exact Nat.zero_le _
  · obtain ⟨mark, hmark⟩ := Option.ne_none_iff_exists'.1 hnone
    refine h.waited 0 ?_
    rcases hwaited with hbound | hall
    · rcases h.wait_bound with hzero | ⟨k, hk, -⟩ <;> omega
    · exact (h.mark_le mark hmark).1.trans_le (hall mark hmark)

/-- A region of the previous pass that begins below the request is completed. -/
theorem Tracks.previous_done (h : buffer.Tracks currentTick completed current previous older)
    (hwaited : buffer.Waited upper)
    (hregion : region ∈ previous) (hlower : region.lower < upper) :
    region.upper ≤ region.lower ∨ region.tick ≤ completed := by
  cases hmark : buffer.invalidationMark with
  | none =>
    rw [(h.first_pass hmark).1] at hregion
    cases hregion
  | some mark =>
    rcases h.previous_covered mark hmark region hregion with hempty | htick | ⟨i, hi, htick,
      hbefore⟩
    · exact .inl hempty
    · exact .inr htick
    · refine .inr (htick.trans (h.waited i ?_))
      by_contra hnot
      rcases hwaited with hbound | hall
      · -- the last watch waited for ends beyond the request, so it is not before the region
        rcases h.wait_bound with hzero | ⟨k, hk, hend⟩
        · omega
        · have := hbefore k (by omega)
          omega
      · have := hall mark hmark
        omega

/-- The region that is handed out is free of work that is not completed. -/
theorem Tracks.disjoint (h : buffer.Tracks currentTick completed current previous older)
    (hwaited : buffer.Waited (buffer.offset + size))
    (hregion : region ∈ current ++ previous ++ older) (htick : completed < region.tick) {x : ℕ}
    (hx : region.lower ≤ x ∧ x < region.upper) :
    ¬ (buffer.offset ≤ x ∧ x < buffer.offset + size) := by
  rintro ⟨hlow, hhigh⟩
  rw [List.append_assoc, List.mem_append, List.mem_append] at hregion
  rcases hregion with hcurrent | hprevious | holder
  · have := h.current_upper region hcurrent
    omega
  · have := h.previous_done hwaited hprevious (by omega)
    omega
  · have hfirst := h.firstTick_le (by omega) hwaited
    have := h.older_covered region holder
    omega

theorem le_mapSize (h : size + buffer.kind.nonCoherentAtomSize ≤ 2 ^ 64) :
    size ≤ buffer.mapSize size := by
  unfold mapSize
  split_ifs
  · exact (alignUp_moderate buffer.kind.atom_pos h).1
  · exact le_rfl

theorem aligned_offset {sizeBytes : ℕ} (hoffset : offset ≤ sizeBytes)
    (halign : alignment + 2 * sizeBytes < 2 ^ 64) :
    let aligned := if 0 < alignment then alignUp offset alignment else offset
    offset ≤ aligned ∧ aligned ≤ offset + alignment ∧ (0 < alignment → alignment ∣ aligned) ∧
      (0 < aligned → 0 < offset) := by
  intro aligned
  by_cases hpos : 0 < alignment
  · have haligned : aligned = alignUp offset alignment := if_pos hpos
    obtain ⟨hle, hlt, hdvd⟩ := alignUp_moderate hpos (show offset + alignment ≤ 2 ^ 64 by omega)
    rw [haligned]
    refine ⟨hle, hlt.le, fun _ => hdvd, fun hgt => Nat.pos_of_ne_zero ?_⟩
    rintro rfl
    rw [alignUp_zero] at hgt
    exact absurd hgt (Nat.lt_irrefl 0)
  · have haligned : aligned = offset := if_neg hpos
    rw [haligned]
    exact ⟨le_rfl, by omega, fun h => absurd h hpos, id⟩

/-- Where a request goes, with the groups of regions as they are then. -/
structure Places (buffer : StreamBuffer) (size alignment currentTick completed : ℕ)
    (regions : List CommittedRegion) (after : StreamBuffer) (current previous older :
      List CommittedRegion) : Prop where
  regions_eq : current ++ previous ++ older = regions
  tracks : after.Tracks currentTick completed current previous older
  kind : after.kind = buffer.kind
  mappedSize : after.mappedSize = size
  upper_le : after.offset + size ≤ after.kind.sizeBytes
  aligned : 0 < alignment → alignment ∣ after.offset

theorem Tracks.place (h : buffer.Tracks currentTick completed current previous older)
    (hsize : size ≤ buffer.kind.sizeBytes)
    (halign : alignment + 2 * buffer.kind.sizeBytes < 2 ^ 64) :
    ∃ current' previous' older', Places buffer size alignment currentTick completed
      (current ++ previous ++ older) (buffer.place size alignment) current' previous' older' := by
  obtain ⟨hle, hup, hdvd, hpos⟩ := aligned_offset h.offset_le halign
  have hoffset := h.offset_le
  simp only [StreamBuffer.place]
  generalize (if 0 < alignment then alignUp buffer.offset alignment else buffer.offset) = aligned
    at hle hup hdvd hpos
  rw [add64_eq (by omega)]
  by_cases hfits : buffer.kind.sizeBytes < aligned + size
  · rw [if_pos hfits]
    -- only the write position of the buffer before the wrap is beyond its end
    have hcursor := h.cursor_pos (hpos (by omega))
    have hwrap := h.wrap hcursor
    refine ⟨[], current, previous ++ older, by simp, ?_, rfl, rfl, ?_, fun _ => dvd_zero _⟩
    · exact { hwrap with }
    · exact (Nat.zero_add size).le.trans hsize
  · rw [if_neg hfits]
    exact ⟨current, previous, older, rfl, h.move hle (by omega) hpos, rfl, rfl, by
      simp only
      omega, hdvd⟩

/-- What `Map` returns and leaves behind. -/
structure Maps (S : Scheduler) (buffer : StreamBuffer) (s : S.State) (size alignment : ℕ)
    (regions : List CommittedRegion) (region : Option ℕ) (after : StreamBuffer)
    (s' : S.State) (current previous older : List CommittedRegion) : Prop where
  regions_eq : current ++ previous ++ older = regions
  tracks : after.Tracks (S.currentTick s') (S.completedTick s') current previous older
  kind : after.kind = buffer.kind
  currentTick_le : S.currentTick s ≤ S.currentTick s'
  completedTick_le : S.completedTick s ≤ S.completedTick s'
  mapped : ∀ offset, region = some offset → offset = after.offset ∧ size ≤ after.mappedSize ∧
    offset + after.mappedSize ≤ buffer.kind.sizeBytes ∧
    (0 < alignment → alignment ∣ offset) ∧ after.Waited (offset + after.mappedSize)
  null : region = none → (buffer.kind.sizeBytes < buffer.mapSize size ∧ after = buffer ∧ s' = s) ∨
    (buffer.mapSize size ≤ buffer.kind.sizeBytes ∧
      (buffer.place (buffer.mapSize size) alignment).SameRegions after)

theorem Tracks.map (h : buffer.Tracks (S.currentTick s) (S.completedTick s) current previous older)
    (hsize : size + buffer.kind.nonCoherentAtomSize ≤ 2 ^ 64)
    (halign : alignment + 2 * buffer.kind.sizeBytes < 2 ^ 64) :
    Outcome (fun _ => False) (buffer.map S s size alignment allowWait) fun r =>
      ∃ current' previous' older', Maps S buffer s size alignment (current ++ previous ++ older)
        r.1 r.2.1 r.2.2 current' previous' older' := by
  have hround := le_mapSize hsize
  unfold StreamBuffer.map
  by_cases hlarge : buffer.kind.sizeBytes < buffer.mapSize size
  · simp only [if_pos hlarge]
    exact ⟨current, previous, older, rfl, h, rfl, le_rfl, le_rfl, nofun,
      fun _ => .inl ⟨hlarge, rfl, rfl⟩⟩
  · simp only [if_neg hlarge]
    obtain ⟨current', previous', older', hplace⟩ := h.place (Nat.le_of_not_lt hlarge) halign
    refine hplace.tracks.waitPendingOperations.bind fun r hr => ?_
    obtain ⟨done, after, s'⟩ := r
    have hupper := hplace.upper_le
    have hend : add64 (buffer.place (buffer.mapSize size) alignment).offset (buffer.mapSize size) =
        (buffer.place (buffer.mapSize size) alignment).offset + buffer.mapSize size :=
      add64_eq (by
        have := buffer.kind.size_lt
        rw [hplace.kind] at hupper
        omega)
    obtain ⟨hsame, htracks, hcurrent, hcompleted, hwaited⟩ := hr
    refine ⟨current', previous', older', hplace.regions_eq, htracks, ?_, hcurrent, hcompleted, ?_,
      fun _ => .inr ⟨Nat.le_of_not_lt hlarge, hsame⟩⟩
    · obtain ⟨cursor, bound, rfl⟩ := hsame
      exact hplace.kind
    · intro offset hoffset
      simp only at hoffset hsame hwaited ⊢
      split_ifs at hoffset with hdone
      obtain rfl := Option.some.inj hoffset
      have hgranted := hwaited hdone
      obtain ⟨cursor, bound, rfl⟩ := hsame
      rw [hend] at hgranted
      rw [hplace.kind] at hupper
      rw [hplace.mappedSize]
      exact ⟨rfl, hround, hupper, hplace.aligned, hgranted⟩

/-- Watches at and behind the cursor do not matter for the regions committed before. -/
theorem Covered.congr {completed cursor' : ℕ} {watches' : Watches}
    (h : Covered completed watches cursor region)
    (hcursor : cursor ≤ cursor') (hsame : ∀ i < cursor, watches'.entry i = watches.entry i) :
    Covered completed watches' cursor' region := by
  rcases h with hempty | htick | ⟨i, hi, htick, hbefore⟩
  · exact .inl hempty
  · exact .inr (.inl htick)
  · refine .inr (.inr ⟨i, by omega, by rw [hsame i hi]; exact htick, fun j hj => ?_⟩)
    rw [hsame j (by omega)]
    exact hbefore j hj

/-- The watch at the cursor is rewritten with the same tick: the region of the commit is empty, or
the tick is an old one that is completed. -/
theorem Tracks.coalesce (h : buffer.Tracks currentTick completed current previous older)
    (hfits : buffer.offset + buffer.mappedSize ≤ buffer.kind.sizeBytes)
    (hfirst : 0 < buffer.mappedSize → buffer.firstTick ≤ completed)
    (hcursor : buffer.currentWatchCursor ≠ 0)
    (htick : (buffer.currentWatches.entry buffer.currentWatchCursor).tick = currentTick)
    {upperBound : ℕ} : { buffer with
      offset := buffer.offset + buffer.mappedSize
      currentWatches := buffer.currentWatches.set buffer.currentWatchCursor
        { buffer.currentWatches.entry buffer.currentWatchCursor with
          upperBound := upperBound } }.Tracks currentTick completed
      (⟨buffer.offset, buffer.offset + buffer.mappedSize, currentTick⟩ :: current)
      previous older := by
  have hentry : ∀ i < buffer.currentWatchCursor,
      (buffer.currentWatches.set buffer.currentWatchCursor
        { buffer.currentWatches.entry buffer.currentWatchCursor with
          upperBound := upperBound }).entry i = buffer.currentWatches.entry i :=
    fun i hi => Function.update_of_ne (by omega) _ _
  have hticks : ∀ i, ((buffer.currentWatches.set buffer.currentWatchCursor
        { buffer.currentWatches.entry buffer.currentWatchCursor with
          upperBound := upperBound }).entry i).tick = (buffer.currentWatches.entry i).tick := by
    intro i
    simp only [Watches.set, Function.update_apply]
    split_ifs with heq
    · rw [heq]
    · rfl
  have hstale := h.stale buffer.currentWatchCursor le_rfl
  exact
  { h with
    offset_le := hfits
    cursor_pos := fun _ => Nat.pos_of_ne_zero hcursor
    current_upper := by
      rintro region (_ | ⟨_, hregion⟩)
      · exact le_rfl
      · exact (h.current_upper region hregion).trans (Nat.le_add_right _ _)
    current_covered := by
      rintro region (_ | ⟨_, hregion⟩)
      · rcases Nat.eq_zero_or_pos buffer.mappedSize with hzero | hpos
        · exact .inl (by simp only; omega)
        · exact .inr (.inl (by have := hfirst hpos; simp only; omega))
      · exact (h.current_covered region hregion).congr le_rfl hentry
    current_bounds := fun i hi => by
      rw [hentry i hi]
      exact (h.current_bounds i hi).trans (Nat.le_add_right _ _)
    tick_le := by
      rintro region (_ | ⟨_, hregion⟩)
      · exact le_rfl
      · exact h.tick_le region hregion
    watch_le := fun i => by
      rw [hticks i]
      exact h.watch_le i
    first_le := fun hpos => by
      rw [hticks 0]
      exact h.first_le hpos
    stale := fun i hi => by
      rw [hticks i]
      exact h.stale i hi }

theorem Tracks.record (h : buffer.Tracks currentTick completed current previous older)
    (hfits : buffer.offset + buffer.mappedSize ≤ buffer.kind.sizeBytes)
    (hentries : watches.entry = buffer.currentWatches.entry)
    (hsize : buffer.currentWatchCursor + 1 < watches.size) : { buffer with
      offset := buffer.offset + buffer.mappedSize
      currentWatches := watches.set buffer.currentWatchCursor
        ⟨currentTick, buffer.offset + buffer.mappedSize⟩
      currentWatchCursor := buffer.currentWatchCursor + 1 }.Tracks currentTick completed
      (⟨buffer.offset, buffer.offset + buffer.mappedSize, currentTick⟩ :: current)
      previous older := by
  have hentry : ∀ i ≠ buffer.currentWatchCursor, (watches.set buffer.currentWatchCursor
        ⟨currentTick, buffer.offset + buffer.mappedSize⟩).entry i =
      buffer.currentWatches.entry i := by
    intro i hi
    rw [← hentries]
    exact Function.update_of_ne hi _ _
  have hnew : (watches.set buffer.currentWatchCursor
      ⟨currentTick, buffer.offset + buffer.mappedSize⟩).entry buffer.currentWatchCursor =
      ⟨currentTick, buffer.offset + buffer.mappedSize⟩ :=
    Function.update_self _ _ _
  exact
  { h with
    offset_le := hfits
    cursor_lt := hsize
    cursor_pos := fun _ => Nat.succ_pos _
    current_upper := by
      rintro region (_ | ⟨_, hregion⟩)
      · exact le_rfl
      · exact (h.current_upper region hregion).trans (Nat.le_add_right _ _)
    current_covered := by
      rintro region (_ | ⟨_, hregion⟩)
      · refine .inr (.inr ⟨buffer.currentWatchCursor, Nat.lt_succ_self _, ?_, fun j hj => ?_⟩)
        · rw [hnew]
        · rw [hentry j hj.ne]
          exact h.current_bounds j hj
      · exact (h.current_covered region hregion).congr (Nat.le_succ _)
          fun i hi => hentry i hi.ne
    current_bounds := fun i hi => by
      rcases Nat.lt_succ_iff_lt_or_eq.1 hi with hlt | rfl
      · rw [hentry i hlt.ne]
        exact (h.current_bounds i hlt).trans (Nat.le_add_right _ _)
      · rw [hnew]
    tick_le := by
      rintro region (_ | ⟨_, hregion⟩)
      · exact le_rfl
      · exact h.tick_le region hregion
    watch_le := fun i => by
      refine ⟨?_, (h.watch_le i).2⟩
      by_cases hi : i = buffer.currentWatchCursor
      · rw [hi, hnew]
      · rw [hentry i hi]
        exact (h.watch_le i).1
    first_le := fun _ => by
      by_cases hzero : 0 = buffer.currentWatchCursor
      · -- the first commit of the pass: every earlier tick is at most the current one
        rw [hzero, hnew]
        exact ⟨fun region hregion => h.tick_le region (by
          rw [List.append_assoc]
          exact List.mem_append_right _ hregion), fun i => (h.watch_le i).2⟩
      · rw [hentry 0 hzero]
        exact h.first_le (by omega)
    stale := fun i hi => by
      have hi' : buffer.currentWatchCursor + 1 ≤ i := hi
      rw [hentry i (by omega)]
      exact h.stale i (by omega) }

theorem Tracks.commit (h : buffer.Tracks currentTick completed current previous older)
    (hfits : buffer.offset + buffer.mappedSize ≤ buffer.kind.sizeBytes)
    (hfirst : 0 < buffer.mappedSize → buffer.firstTick ≤ completed) :
    Outcome (fun _ => False) (buffer.commit currentTick) fun after =>
      after.kind = buffer.kind ∧ after.Tracks currentTick completed
        (⟨buffer.offset, buffer.offset + buffer.mappedSize, currentTick⟩ :: current)
        previous older := by
  have hlt := h.cursor_lt
  have hend : add64 buffer.offset buffer.mappedSize = buffer.offset + buffer.mappedSize :=
    add64_eq (hfits.trans_lt buffer.kind.size_lt)
  simp only [StreamBuffer.commit, hend]
  rw [if_neg (by omega)]
  by_cases hsame : buffer.currentWatchCursor ≠ 0 ∧
      (buffer.currentWatches.entry buffer.currentWatchCursor).tick = currentTick
  · rw [if_pos hsame]
    exact ⟨rfl, h.coalesce hfits hfirst hsame.1 hsame.2⟩
  · rw [if_neg hsame]
    by_cases hgrow : buffer.currentWatches.size ≤ buffer.currentWatchCursor + 1
    · simp only [if_pos hgrow]
      have hsize : buffer.currentWatchCursor + 1 <
          (buffer.currentWatches.reserve watchesReserveChunk).size := by
        simp only [Watches.reserve, watchesReserveChunk]
        omega
      rw [if_neg (by omega)]
      exact ⟨rfl, h.record hfits rfl hsize⟩
    · simp only [if_neg hgrow]
      rw [if_neg (by omega)]
      exact ⟨rfl, h.record hfits rfl (by omega)⟩

end StreamBuffer

namespace StreamState

variable {S : Scheduler} {kind : BufferKind} {state : StreamState S}

/-- The invariant of a run: the bookkeeping covers every committed region, and a mapped region is
ready to be committed. -/
structure Inv (kind : BufferKind) (state : StreamState S) : Prop where
  kind_eq : state.buffer.kind = kind
  tracks : ∃ current previous older, current ++ previous ++ older = state.committed ∧
    state.buffer.Tracks (S.currentTick state.scheduler) (S.completedTick state.scheduler)
      current previous older
  mapped : state.mapped = true →
    state.buffer.offset + state.buffer.mappedSize ≤ state.buffer.kind.sizeBytes ∧
      (0 < state.buffer.mappedSize →
        state.buffer.firstTick ≤ S.completedTick state.scheduler)

theorem inv_initial (kind : BufferKind) (s : S.State) : Inv kind (initial kind s) where
  kind_eq := rfl
  tracks := ⟨[], [], [], rfl, StreamBuffer.tracks_create _ _ _⟩
  mapped := nofun

theorem Inv.map (h : Inv kind state) {size alignment : ℕ} {allowWait : Bool}
    (hmoderate : Moderate kind (.map size alignment allowWait : StreamOp S)) :
    Outcome (fun _ => False) (state.buffer.map S state.scheduler size alignment allowWait) fun r =>
      ∃ current previous older, StreamBuffer.Maps S state.buffer state.scheduler size alignment
        state.committed r.1 r.2.1 r.2.2 current previous older := by
  obtain ⟨current, previous, older, heq, htracks⟩ := h.tracks
  obtain ⟨hsize, halign⟩ := hmoderate
  rw [← h.kind_eq] at hsize halign
  rw [← heq]
  exact htracks.map hsize halign

theorem Inv.step (h : Inv kind state) {op : StreamOp S} (henabled : state.Enabled op)
    (hmoderate : Moderate kind op) : Outcome (fun _ => False) (state.step op) (Inv kind) := by
  cases op with
  | map size alignment allowWait =>
    refine (h.map hmoderate).bind ?_
    rintro ⟨region, after, s'⟩ ⟨current, previous, older, hmaps⟩
    simp only at hmaps
    refine ⟨hmaps.kind.trans h.kind_eq, ⟨current, previous, older, hmaps.regions_eq, hmaps.tracks⟩,
      fun hmapped => ?_⟩
    obtain ⟨offset, rfl⟩ := Option.isSome_iff_exists.1 hmapped
    obtain ⟨rfl, -, hupper, -, hwaited⟩ := hmaps.mapped offset rfl
    rw [← hmaps.kind] at hupper
    exact ⟨hupper, fun hpos => hmaps.tracks.firstTick_le (Nat.add_pos_right _ hpos) hwaited⟩
  | commit =>
    obtain ⟨current, previous, older, heq, htracks⟩ := h.tracks
    obtain ⟨hfits, hfirst⟩ := h.mapped henabled
    refine (htracks.commit hfits hfirst).bind ?_
    rintro after ⟨hkind, hafter⟩
    exact ⟨hkind.trans h.kind_eq, ⟨_, previous, older, by rw [← heq]; rfl, hafter⟩, nofun⟩
  | advance next =>
    obtain ⟨current, previous, older, heq, htracks⟩ := h.tracks
    refine ⟨h.kind_eq, ⟨current, previous, older, heq, htracks.mono henabled.1 henabled.2⟩, ?_⟩
    intro hmapped
    obtain ⟨hfits, hfirst⟩ := h.mapped hmapped
    exact ⟨hfits, fun hpos => (hfirst hpos).trans henabled.2⟩

theorem Reachable.inv (h : Reachable kind state) : Inv kind state := by
  induction h with
  | initial s => exact inv_initial kind s
  | step _ henabled hmoderate hstep ih =>
    have hnext := ih.step henabled hmoderate
    rw [hstep] at hnext
    exact hnext

/-- No call indexes outside the watches. A region that `Map` returns lies inside the buffer, is
aligned, and shares no byte with a committed region whose tick is not completed. When `Map` returns
null, the request is larger than the buffer and nothing has changed, or the write position has moved
to where the request was to go. -/
theorem Reachable.map_spec (h : Reachable kind state) (size alignment : ℕ) (allowWait : Bool)
    (hmoderate : Moderate kind (.map size alignment allowWait : StreamOp S)) :
    (state.Enabled .commit → ∃ next, state.step .commit = .ok next) ∧ ∃ region after s',
      state.buffer.map S state.scheduler size alignment allowWait = .ok (region, after, s') ∧
      (∀ offset, region = some offset →
        offset + size ≤ kind.sizeBytes ∧ (0 < alignment → alignment ∣ offset) ∧
        ∀ committed ∈ state.committed, S.completedTick s' < committed.tick →
          ∀ x, committed.lower ≤ x ∧ x < committed.upper →
            ¬ (offset ≤ x ∧ x < offset + size)) ∧
      (region = none →
        (kind.sizeBytes < state.buffer.mapSize size ∧ after = state.buffer ∧
          s' = state.scheduler) ∨
        (state.buffer.mapSize size ≤ kind.sizeBytes ∧
          (state.buffer.place (state.buffer.mapSize size) alignment).SameRegions after)) := by
  obtain ⟨⟨region, after, s'⟩, hmap, current, previous, older, hmaps⟩ :=
    (h.inv.map hmoderate).exists_ok fun _ => id
  refine ⟨fun henabled => ?_, region, after, s', hmap, fun offset hoffset => ?_, fun hnull => ?_⟩
  · have hcommit := @Inv.step _ _ _ h.inv .commit henabled trivial
    obtain ⟨next, hnext, -⟩ := hcommit.exists_ok fun _ => id
    exact ⟨next, hnext⟩
  · obtain ⟨rfl, hsize, hupper, halign, hwaited⟩ := hmaps.mapped offset hoffset
    rw [h.inv.kind_eq] at hupper
    refine ⟨(Nat.add_le_add_left hsize _).trans hupper, halign, fun committed hmem htick x hx => ?_⟩
    rw [← hmaps.regions_eq] at hmem
    have hfree := hmaps.tracks.disjoint hwaited hmem htick hx
    simp only at hfree hsize ⊢
    omega
  · have hcases := hmaps.null hnull
    rw [h.inv.kind_eq] at hcases
    exact hcases

end StreamState

/-- The ticks of `MasterSemaphore`, for a device that finishes work only when it is waited for.
Waiting for the current tick submits the current command buffer first. -/
def Scheduler.onDemand : Scheduler where
  State := ℕ × ℕ
  currentTick := Prod.fst
  completedTick := Prod.snd
  isFree s t := (decide (t ≤ s.2), s)
  wait s t := (if s.1 ≤ t then s.1 + 1 else s.1, max s.2 t)
  currentTick_le_isFree _ _ := le_rfl
  completedTick_le_isFree _ _ := le_rfl
  le_completedTick_of_isFree _ _ h := of_decide_eq_true h
  currentTick_le_wait s t := by
    simp only
    split_ifs <;> omega
  completedTick_le_wait _ _ := le_max_left _ _
  le_completedTick_wait _ _ := le_max_right _ _

def smallBuffer : BufferKind where
  sizeBytes := 100
  usage := .stream
  isCoherent := true
  nonCoherentAtomSize := 64
  atom_pos := by decide
  size_lt := by decide

/-- A run that ends with the first 60 bytes in use, and what it leaves. -/
def sixtyInUse : List (StreamOp Scheduler.onDemand) := [.map 60 0 true, .commit]

theorem map_spec_aligned :
    ∃ state, List.foldlM StreamState.step
        (.initial smallBuffer (1, 0) : StreamState Scheduler.onDemand) sixtyInUse = .ok state ∧
      ∃ region after s',
        state.buffer.map Scheduler.onDemand state.scheduler 30 16 true =
          .ok (region, after, s') ∧
        ∀ offset, region = some offset → offset + 30 ≤ 100 ∧ 16 ∣ offset := by
  refine ⟨_, rfl, ?_⟩
  have hmap := @StreamState.Reachable.step Scheduler.onDemand smallBuffer _ _ (.map 60 0 true)
    (.initial (1, 0)) trivial ⟨by decide, by decide⟩ rfl
  have hreach := @StreamState.Reachable.step _ _ _ _ .commit hmap rfl trivial rfl
  obtain ⟨-, region, after, s', hmap, hsafe, -⟩ :=
    StreamState.Reachable.map_spec hreach 30 16 true ⟨by decide, by decide⟩
  exact ⟨region, after, s', hmap, fun offset hoffset =>
    ⟨(hsafe offset hoffset).1, (hsafe offset hoffset).2.1 (by decide)⟩⟩

/-- A request that may not wait returns null and yet starts the next pass: the 30 bytes behind the
region in use are no longer handed out. And an alignment near the end of the address range puts a
region outside the buffer. -/
theorem map_null_moves :
    (∃ state null, List.foldlM StreamState.step
        (.initial smallBuffer (1, 0) : StreamState Scheduler.onDemand) sixtyInUse = .ok state ∧
      state.step (.map 60 0 false) = .ok null ∧ null.mapped = false ∧
      (state.buffer.map _ state.scheduler 30 0 false).map Prod.fst = .ok (some 60) ∧
      (null.buffer.map _ null.scheduler 30 0 false).map Prod.fst = .ok none) ∧
    (∃ state, List.foldlM StreamState.step
        (.initial smallBuffer (1, 0) : StreamState Scheduler.onDemand) sixtyInUse = .ok state ∧
      (state.buffer.map _ state.scheduler 1 (2 ^ 64 - 1) true).map Prod.fst =
        .ok (some (2 ^ 64 - 1))) :=
  ⟨⟨_, _, rfl, rfl, rfl, rfl, rfl⟩, _, rfl, rfl⟩

end PS4Droid.VideoCore
