import PS4Droid.Pkg.ExtractBlocks

/-!
# When the extraction is exact

A file is exact when no block shows what an earlier block has left in the buffer, and the file
system takes all that is written.
-/

namespace PS4Droid.Pkg

section Blocks

variable {Path : Type} {st : ExtractState Path} {env : Environment Path} {node : Inode} {j : ℕ}

/-- The inode of a file has as many blocks as its size needs, and they are in the sector map. -/
structure WellSized (st : ExtractState Path) (node : Inode) : Prop where
  nonneg : 0 ≤ node.size
  blocks : (node.blocks : ℤ) = max 1 ((node.size + blockSize - 1) / blockSize)
  inMap : node.loc + node.blocks < st.sectorMap.length

/-- The number of bytes that the file takes of a block. -/
def limit (node : Inode) (j : ℕ) : ℕ :=
  if j + 1 < node.blocks then blockSize else (node.size - (node.blocks - 1) * blockSize).toNat

/-- Where the block does not fill the buffer, the earlier blocks have left its bytes. -/
def TailOk (st : ExtractState Path) (env : Environment Path) (node : Inode) (j : ℕ) : Prop :=
  ∃ bytes, content st env node j = some bytes ∧
    ∀ i < limit node j, (output st env node j).length ≤ i → left st env node j i = bytes.getD i 0

/-- An error, or the first bytes of the contents of the blocks. -/
def Exact (st : ExtractState Path) (env : Environment Path) (node : Inode) (result : Result) :
    Prop :=
  (∃ error, result = .failed error) ∨
    ∃ contents : ℕ → Bytes, (∀ j < node.blocks, content st env node j = some (contents j)) ∧
      result = .written (((List.range node.blocks).flatMap contents).take node.size.toNat)

theorem WellSized.exists_last (h : WellSized st node) : ∃ m, node.blocks = m + 1 ∧
    m * blockSize ≤ node.size ∧ node.size ≤ (m + 1) * blockSize := by
  have hblock : (blockSize : ℤ) = 65536 := rfl
  have hblocks := h.blocks
  have hnonneg := h.nonneg
  rw [hblock] at *
  refine ⟨node.blocks - 1, ?_, ?_, ?_⟩ <;> omega

theorem length_content {bytes : Bytes} (h : content st env node j = some bytes) :
    bytes.length = blockSize := by
  unfold content at h
  split_ifs at h with hraw
  · cases h
    rw [length_stored, hraw]
  · obtain ⟨decompressed, hinflate, rfl⟩ := Option.map_eq_some_iff.mp h
    have hle := env.inflate_length _ _ hinflate
    rw [List.length_append, List.length_replicate, Nat.add_sub_cancel' hle]

theorem output_getD {bytes : Bytes} {i : ℕ} (h : content st env node j = some bytes)
    (hi : i < (output st env node j).length) :
    (output st env node j).getD i 0 = bytes.getD i 0 := by
  unfold content at h
  unfold output at hi ⊢
  split_ifs at h hi ⊢ with hraw hshort
  · cases h
    rfl
  · obtain ⟨decompressed, hinflate, rfl⟩ := Option.map_eq_some_iff.mp h
    rw [hinflate, Option.getD_some] at hi ⊢
    rw [List.getD_append _ _ _ _ hi]
  · simp at hi

theorem flatMap_range_inj {α : Type} {f g : ℕ → List α} {size m : ℕ} (hf : ∀ k, (f k).length = size)
    (hg : ∀ k < m, (g k).length = size) :
    (List.range m).flatMap f = (List.range m).flatMap g ↔ ∀ k < m, f k = g k := by
  induction m with
  | zero => simp
  | succ m ih =>
    have ih := ih fun k hk => hg k (by omega)
    simp only [List.range_succ, List.flatMap_append, List.flatMap_singleton]
    constructor
    · intro heq k hk
      obtain ⟨hinit, hlast⟩ := List.append_inj' heq ((hf m).trans (hg m (by omega)).symm)
      obtain hlt | rfl := Nat.lt_succ_iff_lt_or_eq.mp hk
      · exact ih.mp hinit k hlt
      · exact hlast
    · intro heq
      rw [ih.mpr fun k hk => heq k (by omega), heq m (by omega)]

theorem length_flatMap_range {α : Type} {f : ℕ → List α} {size m : ℕ}
    (hf : ∀ k < m, (f k).length = size) :
    ((List.range m).flatMap f).length = m * size := by
  induction m with
  | zero => simp
  | succ m ih =>
    rw [List.range_succ, List.flatMap_append, List.flatMap_singleton, List.length_append,
      ih fun k hk => hf k (by omega), hf m (by omega), Nat.succ_mul]

theorem take_map_range_eq_iff {α : Type} {f : ℕ → α} {bytes : List α} {size n : ℕ} {default : α}
    (hlength : bytes.length = size) (hn : n ≤ size) :
    ((List.range size).map f).take n = bytes.take n ↔ ∀ i < n, f i = bytes.getD i default := by
  constructor
  · intro heq i hi
    have hi' : i < bytes.length := by omega
    have hget := congrArg (fun list : List α => list[i]?) heq
    simp only [List.getElem?_take_of_lt hi, List.getElem?_map, List.getElem?_range (hi.trans_le hn),
      Option.map_some, List.getElem?_eq_getElem hi', Option.some.injEq] at hget
    rw [hget, List.getD_eq_getElem _ _ hi']
  · intro heq
    apply List.ext_getElem
    · simp only [List.length_take, List.length_map, List.length_range]
      omega
    · intro i hi _
      have hi : i < n := by
        simp only [List.length_take] at hi
        omega
      simp only [List.getElem_take, List.getElem_map, List.getElem_range]
      rw [heq i hi, List.getD_eq_getElem]

/-- No write fails before the end of the file. -/
def Takes (env : Environment Path) (node : Inode) : Prop :=
  ∀ room ∈ env.writeFails, node.size.toNat ≤ room

theorem filed_eq_iff {written bytes : Bytes} (hlength : written.length = bytes.length)
    (hsize : bytes.length = node.size.toNat) :
    filed env written = bytes ↔ written = bytes ∧ Takes env node := by
  unfold filed Takes
  rw [← hsize]
  cases env.writeFails with
  | none => simp
  | some room =>
    dsimp only
    constructor
    · rintro rfl
      have hroom : written.length ≤ room := by
        rw [List.length_take] at hlength
        omega
      rw [List.take_of_length_le hroom]
      exact ⟨rfl, fun _ hmem => Option.mem_some.mp hmem ▸ hroom⟩
    · rintro ⟨rfl, hroom⟩
      exact List.take_of_length_le (hroom room rfl)

theorem Continues.not_stops (h : Continues st env node j) : ¬ Stops st env node j := by
  have hmap := h.sectorMap
  rintro (hstop | hstop | hstop | hstop | ⟨hshort, hstop⟩)
  · rw [h.cancelled] at hstop
    cases hstop
  · omega
  · rw [h.reads] at hstop
    cases hstop
  · rw [h.resizes] at hstop
    cases hstop
  · have hsome := h.inflates hshort
    rw [hstop] at hsome
    cases hsome

theorem limit_last {m : ℕ} (hblocks : node.blocks = m + 1) :
    limit node m = (node.size - m * blockSize).toNat := by
  rw [limit, if_neg (by omega), hblocks, Nat.cast_succ, add_sub_cancel_right]

theorem limit_le {m k : ℕ} (hblocks : node.blocks = m + 1)
    (hupper : node.size ≤ (m + 1) * blockSize)
    (hk : k < node.blocks) : limit node k ≤ blockSize := by
  obtain hlt | rfl := Nat.lt_succ_iff_lt_or_eq.mp (hblocks ▸ hk)
  · rw [limit, if_pos (by omega)]
  · rw [limit_last hblocks]
    rw [add_mul, one_mul] at hupper
    omega

theorem extractBlocks_all {m : ℕ} (hblocks : node.blocks = m + 1)
    (hlower : m * blockSize ≤ node.size)
    (hupper : node.size ≤ (m + 1) * blockSize) (hall : ∀ k < node.blocks, Continues st env node k) :
    extractBlocks st env node node.blocks node.blocks 0 .initial =
      .written (filed env ((List.range m).flatMap (fun k => bufferAt st env node (k + 1)) ++
        (bufferAt st env node (m + 1)).take (limit node m))) := by
  have hlimit : writeSize node (toInt32 ((m + 1 : ℕ) * blockSize)) = limit node m := by
    rw [writeSize_eq hlower hupper, limit_last hblocks]
  have hle : limit node m ≤ blockSize := limit_le hblocks hupper (by omega)
  have hsize : toInt32 (toInt32 (m * blockSize) + blockSize) =
    toInt32 ((m + 1 : ℕ) * blockSize) := by
    unfold toInt32
    rw [Int.bmod_add_bmod, Nat.cast_succ, add_mul, one_mul]
  have hlast : ¬ (m : ℤ) < ((m + 1 : ℕ) : ℤ) - 1 := by omega
  have hrun := extractBlocks_run (n := node.blocks) (m := m) (by omega) fun k hk =>
    hall k (by omega)
  rw [hrun, hblocks, Nat.add_sub_cancel_left, extractBlocks, load_of_continues (hall m (by omega))]
  simp only [loopAt, bufferAt_succ, hsize, if_neg hlast, hlimit, if_neg (not_lt.mpr hle)]
  rw [extractBlocks]

theorem take_flatMap_contents {m : ℕ} {contents : ℕ → Bytes} (hblocks : node.blocks = m + 1)
    (hlower : m * blockSize ≤ node.size) (hcontents : ∀ k < m, (contents k).length = blockSize) :
    ((List.range node.blocks).flatMap contents).take node.size.toNat =
      (List.range m).flatMap contents ++ (contents m).take (limit node m) := by
  have hlength := length_flatMap_range hcontents
  have hsplit : node.size.toNat = ((List.range m).flatMap contents).length + limit node m := by
    rw [hlength, limit_last hblocks]
    have hcast : ((m * blockSize : ℕ) : ℤ) = m * blockSize := Nat.cast_mul m blockSize
    omega
  rw [hblocks, List.range_succ, List.flatMap_append, List.flatMap_singleton, hsplit,
    List.take_length_add_append]

theorem bufferAt_take_eq_iff {bytes : Bytes} (h : content st env node j = some bytes)
    (hle : limit node j ≤ blockSize) :
    (bufferAt st env node (j + 1)).take (limit node j) = bytes.take (limit node j) ↔
      ∀ i < limit node j, (output st env node j).length ≤ i →
        left st env node j i = bytes.getD i 0 := by
  rw [bufferAt, take_map_range_eq_iff (length_content h) hle]
  refine forall₂_congr fun i _ => ?_
  rw [left]
  split_ifs with hi
  · exact iff_of_true (output_getD h hi) fun hge => absurd hi (not_lt.mpr hge)
  · exact ⟨fun heq _ => heq, fun himp => himp (not_lt.mp hi)⟩

/-- When every block is loaded, the file is exact if and only if every tail is right and it is
taken. -/
theorem exact_iff_tails (h : WellSized st node)
    (hall : ∀ k < node.blocks, Continues st env node k) :
    Exact st env node (extractBlocks st env node node.blocks node.blocks 0 .initial) ↔
      (∀ k < node.blocks, TailOk st env node k) ∧ Takes env node := by
  obtain ⟨m, hblocks, hlower, hupper⟩ := h.exists_last
  have hlimit : ∀ k < m, limit node k = blockSize := fun k hk => if_pos (by omega)
  have hblock : ∀ contents : ℕ → Bytes,
    (∀ k < node.blocks, content st env node k = some (contents k)) →
      (((List.range m).flatMap (fun k => bufferAt st env node (k + 1)) ++
        (bufferAt st env node (m + 1)).take (limit node m) =
      (List.range m).flatMap contents ++ (contents m).take (limit node m)) ↔
      ∀ k < node.blocks, (bufferAt st env node (k + 1)).take (limit node k) =
        (contents k).take (limit node k)) := by
    intro contents hcontents
    have hlength : ∀ k < m, (contents k).length = blockSize :=
      fun k hk => length_content (hcontents k (by omega))
    have hinit := @flatMap_range_inj _ (fun k => bufferAt st env node (k + 1)) contents _ m
      (fun _ => length_bufferAt) hlength
    have hfull : ∀ k < m, (bufferAt st env node (k + 1)).take (limit node k) =
        (contents k).take (limit node k) ↔ bufferAt st env node (k + 1) = contents k := by
      intro k hk
      rw [hlimit k hk, List.take_of_length_le length_bufferAt.le,
        List.take_of_length_le (hlength k hk).le]
    constructor
    · intro heq k hk
      obtain ⟨hfirst, hlast⟩ := List.append_inj heq (by
        rw [length_flatMap_range fun _ _ => length_bufferAt, length_flatMap_range hlength])
      obtain hlt | rfl := Nat.lt_succ_iff_lt_or_eq.mp (hblocks ▸ hk)
      · exact (hfull k hlt).mpr (hinit.mp hfirst k hlt)
      · exact hlast
    · intro heq
      rw [hinit.mpr fun k hk => (hfull k hk).mp (heq k (by omega)), heq m (by omega)]
  have hfiled : ∀ contents : ℕ → Bytes,
    (∀ k < node.blocks, content st env node k = some (contents k)) →
      (filed env ((List.range m).flatMap (fun k => bufferAt st env node (k + 1)) ++
        (bufferAt st env node (m + 1)).take (limit node m)) =
      ((List.range node.blocks).flatMap contents).take node.size.toNat ↔
      (∀ k < node.blocks, (bufferAt st env node (k + 1)).take (limit node k) =
        (contents k).take (limit node k)) ∧ Takes env node) := by
    intro contents hcontents
    have hlength : ∀ k < node.blocks, (contents k).length = blockSize :=
      fun k hk => length_content (hcontents k hk)
    have hfull : (((List.range node.blocks).flatMap contents).take node.size.toNat).length =
      node.size.toNat := by
      rw [List.length_take, length_flatMap_range hlength, hblocks]
      refine min_eq_left (Int.toNat_le.mpr ?_)
      push_cast
      exact hupper
    rw [take_flatMap_contents hblocks hlower fun k hk => hlength k (by omega)] at hfull ⊢
    rw [← hblock contents hcontents]
    refine filed_eq_iff ?_ hfull
    rw [List.length_append, List.length_append, List.length_take, List.length_take, length_bufferAt,
      hlength m (by omega), length_flatMap_range fun _ _ => length_bufferAt,
      length_flatMap_range fun k hk => hlength k (by omega)]
  rw [Exact, extractBlocks_all hblocks hlower hupper hall]
  constructor
  · rintro (⟨error, herror⟩ | ⟨contents, hcontents, hwritten⟩)
    · cases herror
    · obtain ⟨heq, htakes⟩ := (hfiled contents hcontents).mp (Result.written.inj hwritten)
      refine ⟨fun k hk => ⟨contents k, hcontents k hk, ?_⟩, htakes⟩
      exact (bufferAt_take_eq_iff (hcontents k hk) (limit_le hblocks hupper hk)).mp (heq k hk)
  · rintro ⟨htails, htakes⟩
    choose! contents hcontents htail using htails
    refine Or.inr ⟨contents, hcontents, ?_⟩
    refine congrArg Result.written ((hfiled contents hcontents).mpr ⟨fun k hk => ?_, htakes⟩)
    exact (bufferAt_take_eq_iff (hcontents k hk) (limit_le hblocks hupper hk)).mpr (htail k hk)

theorem exists_first {p : ℕ → Prop} {n : ℕ} (h : ¬ ∀ k < n, p k) :
    ∃ j < n, ¬ p j ∧ ∀ k < j, p k := by
  classical
  push Not at h
  obtain ⟨hlt, hnot⟩ := Nat.find_spec h
  refine ⟨Nat.find h, hlt, hnot, fun k hk => ?_⟩
  by_contra hk'
  exact Nat.find_min h hk ⟨hk.trans hlt, hk'⟩

/-- The blocks go on to one that stops, or all are loaded, their tails are right, and the file takes
what is written to it. -/
def Regular (st : ExtractState Path) (env : Environment Path) (node : Inode) : Prop :=
  (∃ j < node.blocks, (∀ k < j, Continues st env node k) ∧ Stops st env node j) ∨
    (∀ j < node.blocks, Continues st env node j ∧ TailOk st env node j) ∧ Takes env node

theorem exact_iff_regular (h : WellSized st node) :
    Exact st env node (extractBlocks st env node node.blocks node.blocks 0 .initial) ↔
      Regular st env node := by
  have hlength := st.sectorMap_length.2
  have hmap := h.inMap
  by_cases hall : ∀ k < node.blocks, Continues st env node k
  · rw [exact_iff_tails h hall]
    constructor
    · exact fun ⟨htails, htakes⟩ => Or.inr ⟨fun j hj => ⟨hall j hj, htails j hj⟩, htakes⟩
    · rintro (⟨j, hj, -, hstops⟩ | ⟨htails, htakes⟩)
      · exact absurd hstops (hall j hj).not_stops
      · exact ⟨fun k hk => (htails k hk).2, htakes⟩
  · -- the first block that does not go on decides
    obtain ⟨j, hj, hnot, hbefore⟩ := exists_first hall
    have hremaining : node.blocks - j = node.blocks - j - 1 + 1 := by omega
    rw [extractBlocks_run hj hbefore, hremaining]
    by_cases hstops : Stops st env node j
    · obtain ⟨error, hload⟩ := load_of_stops (by omega) hstops
      rw [extractBlocks_of_load hload]
      exact iff_of_true (Or.inl ⟨error, rfl⟩) (Or.inl ⟨j, hj, hbefore, hstops⟩)
    · rw [extractBlocks_of_outOfBounds (load_of_not (by omega) hnot hstops).1]
      refine iff_of_false ?_ ?_
      · rintro (⟨error, herror⟩ | ⟨contents, -, hwritten⟩)
        · cases herror
        · cases hwritten
      · rintro (⟨i, hi, hbefore', hstops'⟩ | htails)
        · obtain hlt | rfl | hgt := Nat.lt_trichotomy i j
          · exact (hbefore i hlt).not_stops hstops'
          · exact hstops hstops'
          · exact hnot (hbefore' j hgt)
        · exact hnot (htails.1 j hj).1

/-- The loop is not entered, or the location is an index and every sector that is copied lies in the
window. -/
def InBounds (st : ExtractState Path) (env : Environment Path) (node : Inode) : Prop :=
  node.blocks = 0 ∨ 2 ^ 31 ≤ node.blocks ∨ env.cancelled 0 = true ∨
    node.loc + 1 < 2 ^ 31 ∧ ∀ j < node.blocks, (∀ k < j, Continues st env node k) →
      ¬ Stops st env node j → position st node j % 2 ^ 12 + sectorSize st node j ≤ pfscBufSize

/-- A location that is not an `int`, or the largest one, passes the test of the sector map. -/
theorem load_of_large_loc (hcancelled : env.cancelled 0 = false) (hloc : 2 ^ 31 ≤ node.loc + 1) :
    load st env node 0 = .outOfBounds .sectorMap := by
  have hlength := st.sectorMap_length
  have hlt := node.loc_lt
  have hindex : toInt32 (toInt32 node.loc + (0 : ℕ) + 1) < st.sectorMap.length := by
    unfold toInt32
    rw [Nat.cast_zero, add_zero, Int.bmod_add_bmod, Int.bmod_def]
    split_ifs <;> omega
  have hsector : st.sector (toInt32 node.loc + (0 : ℕ)) = none := by
    unfold toInt32 ExtractState.sector
    rw [Nat.cast_zero, add_zero]
    split_ifs with hnonneg
    · refine List.getElem?_eq_none ?_
      rw [Int.bmod_def] at hnonneg ⊢
      split_ifs at hnonneg ⊢ <;> omega
    · rfl
  unfold load
  dsimp only
  rw [if_neg (by simp [hcancelled]), if_neg (by omega), hsector]

theorem extractBlocks_ne_outOfBounds {nblocks : ℤ} {loop : Loop} {region : Region}
    (hregion : region ≠ .decompressedData) (h : Continues st env node j) :
    extractBlocks st env node nblocks 1 j loop ≠ .outOfBounds region := by
  rw [extractBlocks, load_of_continues h]
  dsimp only
  split_ifs
  · rw [extractBlocks]
    simp
  · exact fun heq => hregion (Result.outOfBounds.inj heq).symm
  · rw [extractBlocks]
    simp

theorem inBounds_iff : (∀ region, region ≠ .decompressedData →
      extractBlocks st env node (toInt32 node.blocks) (toInt32 node.blocks).toNat 0 .initial ≠
        .outOfBounds region) ↔ InBounds st env node := by
  have hlength := st.sectorMap_length
  have hblocks := node.blocks_lt
  by_cases hlarge : 2 ^ 31 ≤ node.blocks
  · have hnegative : (toInt32 node.blocks).toNat = 0 := by
      unfold toInt32
      rw [Int.bmod_def]
      split_ifs <;> omega
    rw [hnegative, extractBlocks]
    exact iff_of_true (by simp) (Or.inr (Or.inl hlarge))
  rw [toInt32_of_lt (by omega) (by omega), Int.toNat_natCast]
  by_cases hzero : node.blocks = 0
  · rw [hzero, extractBlocks]
    exact iff_of_true (by simp) (Or.inl hzero)
  obtain ⟨m, hm⟩ := Nat.exists_eq_succ_of_ne_zero hzero
  by_cases hcancelled : env.cancelled 0 = true
  · have hload : load st env node 0 = .failed .cancelled := if_pos hcancelled
    rw [hm, extractBlocks_of_load hload]
    exact iff_of_true (by simp) (Or.inr (Or.inr (Or.inl hcancelled)))
  by_cases hloc : node.loc + 1 < 2 ^ 31
  · by_cases hall : ∀ k < node.blocks, Continues st env node k
    · rw [extractBlocks_run (m := m) (by omega) fun k hk => hall k (by omega)]
      have hone : node.blocks - m = 1 := by omega
      rw [hone]
      refine iff_of_true ?_ (Or.inr (Or.inr (Or.inr ⟨hloc, fun j hj _ _ => (hall j hj).fits⟩)))
      exact fun region hregion => extractBlocks_ne_outOfBounds hregion (hall m (by omega))
    · obtain ⟨j, hj, hnot, hbefore⟩ := exists_first hall
      have hindex : node.loc + j + 1 < 2 ^ 31 := by
        cases j with
        | zero => omega
        | succ j =>
          have hprevious := (hbefore j (by omega)).sectorMap
          omega
      have hremaining : node.blocks - j = node.blocks - j - 1 + 1 := by omega
      rw [extractBlocks_run hj hbefore, hremaining]
      by_cases hstops : Stops st env node j
      · obtain ⟨error, hload⟩ := load_of_stops hindex hstops
        rw [extractBlocks_of_load hload]
        refine iff_of_true (by simp)
          (Or.inr (Or.inr (Or.inr ⟨hloc, fun i hi hbefore' hstops' => ?_⟩)))
        obtain hlt | rfl | hgt := Nat.lt_trichotomy i j
        · exact (hbefore i hlt).fits
        · exact absurd hstops hstops'
        · exact absurd (hbefore' j hgt) hnot
      · obtain ⟨hload, hwindow⟩ := load_of_not hindex hnot hstops
        rw [extractBlocks_of_outOfBounds hload]
        refine iff_of_false (fun hsafe => hsafe .window (by simp) rfl) ?_
        rintro (hblocks | hblocks | hblocks | ⟨-, hfits⟩)
        · exact hzero hblocks
        · exact hlarge hblocks
        · exact hcancelled hblocks
        · exact absurd (hfits j hj hbefore hstops) (not_le.mpr hwindow)
  · have hload := @load_of_large_loc _ st env node (by simpa using hcancelled) (by omega)
    rw [hm, extractBlocks_of_outOfBounds hload]
    refine iff_of_false (fun hsafe => hsafe .sectorMap (by simp) rfl) ?_
    rintro (hblocks | hblocks | hblocks | ⟨hblocks, -⟩)
    · omega
    · omega
    · exact hcancelled hblocks
    · exact hloc hblocks

end Blocks

/-! ## Calls -/

section Calls

variable {Path : Type} (st : ExtractState Path) (env : Environment Path) (table : PfsFsTable)

/-- The call comes to the blocks of the inode. -/
structure Opened (node : Inode) : Prop where
  type : table.type = pfsFile
  node : st.iNodeBuf[table.inode]? = some node
  path : ∃ path, st.extractPaths table.inode = some path ∧ env.safeUnder path = true ∧
    env.opens path = true

variable {st env table}

theorem extractFile_of_opened {node : Inode} (h : Opened st env table node) :
    extractFile st env table =
      extractBlocks st env node (toInt32 node.blocks) (toInt32 node.blocks).toNat 0 .initial := by
  obtain ⟨path, hpath, hsafe, hopens⟩ := h.path
  unfold extractFile
  rw [if_neg (not_not.mpr h.type)]
  simp only [h.node, hpath, hsafe, hopens, not_true_eq_false, if_false]

theorem extractFile_of_not_opened (h : ∀ node, ¬ Opened st env table node) :
    (∃ error, extractFile st env table = .failed error) ∨ extractFile st env table = .skipped ∧
        (table.type ≠ pfsFile ∨ st.extractPaths table.inode = none) := by
  unfold extractFile
  by_cases htype : table.type = pfsFile
  · rw [if_neg (not_not.mpr htype)]
    cases hnode : st.iNodeBuf[table.inode]? with
    | none => exact Or.inl ⟨_, rfl⟩
    | some node =>
      cases hpath : st.extractPaths table.inode with
      | none => exact Or.inr ⟨rfl, Or.inr rfl⟩
      | some path =>
        by_cases hsafe : env.safeUnder path = true
        · by_cases hopens : env.opens path = true
          · exact absurd ⟨htype, hnode, path, hpath, hsafe, hopens⟩ (h node)
          · refine Or.inl ⟨.cannotOpen, ?_⟩
            simp [hsafe, hopens]
        · refine Or.inl ⟨.pathEscapes, ?_⟩
          simp [hsafe]
  · exact Or.inr ⟨if_pos htype, Or.inl htype⟩

theorem exact_extractFile_iff {node : Inode} (h : Opened st env table node)
    (hsized : WellSized st node) :
    Exact st env node (extractFile st env table) ↔ Regular st env node := by
  have hlength := st.sectorMap_length.2
  have hmap := hsized.inMap
  rw [extractFile_of_opened h, toInt32_of_lt (by omega) (by omega), Int.toNat_natCast,
    exact_iff_regular hsized]

/-- A listed file is extracted exactly, and only the sector map and the window are read, if and only
if no earlier block shows through and every copied sector lies in the window. -/
theorem extractFile_exact (st : ExtractState Path) (env : Environment Path) (table : PfsFsTable) :
    ((∀ node, table.type = pfsFile → st.iNodeBuf[table.inode]? = some node →
        (st.extractPaths table.inode).isSome → WellSized st node →
        Exact st env node (extractFile st env table)) ∧
      ∀ region, region ≠ .decompressedData → extractFile st env table ≠ .outOfBounds region) ↔
    ∀ node, Opened st env table node →
      (WellSized st node → Regular st env node) ∧ InBounds st env node := by
  constructor
  · rintro ⟨hexact, hsafe⟩ node hopened
    obtain ⟨path, hpath, -⟩ := hopened.path
    constructor
    · intro hsized
      have hisSome : (st.extractPaths table.inode).isSome := by rw [hpath, Option.isSome_some]
      exact (exact_extractFile_iff hopened hsized).mp
        (hexact node hopened.type hopened.node hisSome hsized)
    · rw [extractFile_of_opened hopened] at hsafe
      exact inBounds_iff.mp hsafe
  · intro h
    by_cases hopened : ∃ node, Opened st env table node
    · obtain ⟨node, hopened⟩ := hopened
      obtain ⟨hregular, hbounds⟩ := h node hopened
      constructor
      · intro node' _ hnode' _ hsized
        have heq : node = node' := Option.some.inj (hopened.node.symm.trans hnode')
        subst heq
        exact (exact_extractFile_iff hopened hsized).mpr (hregular hsized)
      · rw [extractFile_of_opened hopened]
        exact inBounds_iff.mpr hbounds
    · push Not at hopened
      obtain ⟨error, herror⟩ | ⟨hskipped, hwhy⟩ := extractFile_of_not_opened hopened
      · rw [herror]
        exact ⟨fun _ _ _ _ _ => Or.inl ⟨error, rfl⟩, fun _ _ => nofun⟩
      · rw [hskipped]
        refine ⟨fun node htype _ hpath _ => ?_, fun _ _ => nofun⟩
        obtain hwhy | hwhy := hwhy
        · exact absurd htype hwhy
        · rw [hwhy] at hpath
          cases hpath

/-! ### A short block after a full one -/

def zlibOfTwo : Bytes := [0x78, 0x9c, 0x63, 0x02, 0x00, 0x00, 0x03, 0x00, 0x03]

def sampleNode : Inode where
  size := 0x10002
  blocks := 2
  loc := 0
  size_mem := by norm_num
  blocks_lt := by norm_num
  loc_lt := by norm_num

/-- A block of ones, and a block that inflates to one byte. -/
def sampleState : ExtractState Unit where
  iNodeBuf := [sampleNode]
  sectorMap := [0, 0x10000, 0x10009]
  pfscOffset := 0
  extractPaths _ := some ()
  image i := if i < 0x10000 then 1 else zlibOfTwo.getD (i - 0x10000) 0
  sectorMap_length := by decide
  sectorMap_lt := by decide

def sampleEnvironment : Environment Unit where
  inflate compressed := if compressed = zlibOfTwo then some [2] else none
  inflate_length := by
    intro compressed decompressed h
    split_ifs at h
    cases h
    decide
  safeUnder _ := true
  opens _ := true
  cancelled _ := false
  reads _ := true
  resizes _ := true
  writeFails := none

theorem wellSized_sample : WellSized sampleState sampleNode where
  nonneg := by decide
  blocks := by decide
  inMap := by decide

theorem opened_sample : Opened sampleState sampleEnvironment ⟨0, pfsFile⟩ sampleNode where
  type := rfl
  node := rfl
  path := ⟨(), rfl, rfl, rfl⟩

theorem sectorSize_sample :
    sectorSize sampleState sampleNode 0 = 0x10000 ∧ sectorSize sampleState sampleNode 1 = 9 := by
  decide

theorem stored_sample : stored sampleState sampleNode 1 = zlibOfTwo := by
  have hposition : position sampleState sampleNode 1 = 0x10000 := by decide
  rw [stored, sectorSize_sample.2, hposition]
  decide

theorem left_sample : left sampleState sampleEnvironment sampleNode 1 1 = 1 := by
  have hposition : position sampleState sampleNode 0 = 0 := by decide
  have houtput : output sampleState sampleEnvironment sampleNode 0 =
    stored sampleState sampleNode 0 :=
    if_pos sectorSize_sample.1
  have hlength : (stored sampleState sampleNode 0).length = 0x10000 := by
    rw [length_stored, sectorSize_sample.1]
  have hget : (stored sampleState sampleNode 0)[1]? = some 1 := by
    rw [stored, sectorSize_sample.1, hposition, List.getElem?_map,
      List.getElem?_range (by norm_num)]
    rfl
  rw [left, houtput, if_pos (by rw [hlength]; norm_num), List.getD_eq_getElem?_getD, hget,
    Option.getD_some]

theorem content_sample : content sampleState sampleEnvironment sampleNode 1 =
    some ([2] ++ List.replicate (blockSize - 1) 0) := by
  have hraw : sectorSize sampleState sampleNode 1 ≠ blockSize := by
    rw [sectorSize_sample.2]
    decide
  rw [content, if_neg hraw, stored_sample]
  rfl

theorem length_output_sample : (output sampleState sampleEnvironment sampleNode 1).length = 1 := by
  have hraw : sectorSize sampleState sampleNode 1 ≠ blockSize := by
    rw [sectorSize_sample.2]
    decide
  have hshort : sectorSize sampleState sampleNode 1 < blockSize := by
    rw [sectorSize_sample.2]
    decide
  rw [output, if_neg hraw, if_pos hshort, stored_sample]
  rfl

theorem not_stops_sample {j : ℕ} (h : j < 2) :
    ¬ Stops sampleState sampleEnvironment sampleNode j := by
  have hlength : sampleState.sectorMap.length = 3 := rfl
  have hloc : sampleNode.loc = 0 := rfl
  rintro (hstop | hstop | hstop | hstop | ⟨hshort, hnone⟩)
  · cases hstop
  · omega
  · cases hstop
  · cases hstop
  · obtain rfl | rfl : j = 0 ∨ j = 1 := by omega
    · exact absurd hshort (by decide)
    · rw [stored_sample] at hnone
      exact absurd hnone (by decide)

/-- The second byte of the last block is one, though it should be zero. -/
theorem not_exact_sample :
    WellSized sampleState sampleNode ∧
      ¬ Exact sampleState sampleEnvironment sampleNode
        (extractFile sampleState sampleEnvironment ⟨0, pfsFile⟩) := by
  refine ⟨wellSized_sample, ?_⟩
  rw [exact_extractFile_iff opened_sample wellSized_sample]
  rintro (⟨j, hj, -, hstops⟩ | hall)
  · exact not_stops_sample hj hstops
  · obtain ⟨bytes, hbytes, htail⟩ := (hall.1 1 (by decide)).2
    have hlimit : limit sampleNode 1 = 2 := by decide
    have hleft := htail 1 (by rw [hlimit]; omega) length_output_sample.le
    rw [content_sample] at hbytes
    cases hbytes
    rw [left_sample, List.getD_append_right _ _ _ _ (by simp)] at hleft
    simp at hleft

end Calls

end PS4Droid.Pkg
