import Mathlib.Data.Nat.Bitwise
import Mathlib.Tactic.NormNum
import PS4Droid.Pkg.Extract

/-!
# The blocks of a file

One buffer takes the decompressed blocks one after the other. A block that does not fill it leaves
what the earlier blocks have put there.
-/

namespace PS4Droid.Pkg

/-! ## Arithmetic of the loop -/

section Arithmetic

theorem toInt32_of_lt {value : ℤ} (hlower : -2 ^ 31 ≤ value) (hupper : value < 2 ^ 31) :
    toInt32 value = value := by
  apply Int.bmod_eq_of_le <;> norm_num <;> omega

theorem and_mask (position : ℕ) :
    position &&& 0xFFFFF000 = position % 2 ^ 32 - position % 2 ^ 12 := by
  have hmask : (0xFFFFF000 : ℕ) = (2 ^ 20 - 1) <<< 12 := by decide
  have hshift : position &&& (2 ^ 20 - 1) <<< 12 = (position / 2 ^ 12 % 2 ^ 20) * 2 ^ 12 := by
    rw [← Nat.and_two_pow_sub_one_eq_mod, ← Nat.shiftRight_eq_div_pow, ← Nat.shiftLeft_eq]
    apply Nat.eq_of_testBit_eq
    intro i
    simp only [Nat.testBit_and, Nat.testBit_shiftLeft, Nat.testBit_shiftRight]
    by_cases hi : 12 ≤ i
    · simp [hi, Nat.add_sub_cancel' hi]
    · simp [hi]
  rw [hmask, hshift]
  omega

/-- The distance from the start of the window is what is left of a sector of 0x1000 bytes. -/
theorem previousData_eq (position : ℕ) : previousData position = (position % 2 ^ 12 : ℕ) := by
  unfold previousData
  dsimp only
  rw [and_mask]
  unfold toInt32
  have hle : position % 2 ^ 12 ≤ position % 2 ^ 32 := by omega
  rw [Int.sub_bmod_bmod, Int.bmod_def]
  push_cast [hle]
  omega

end Arithmetic

/-! ## The blocks of a file -/

section Blocks

variable {Path : Type} (st : ExtractState Path) (env : Environment Path) (node : Inode)

def sectorOffset (j : ℕ) : ℕ := st.sectorMap.getD (node.loc + j) 0

def sectorSize (j : ℕ) : ℕ :=
  (st.sectorMap.getD (node.loc + j + 1) 0 + 2 ^ 64 - sectorOffset st node j) % 2 ^ 64

/-- Where a block stands in the image. -/
def position (j : ℕ) : ℕ := (st.pfscOffset + sectorOffset st node j) % 2 ^ 64

/-- The bytes of a stored sector. -/
def stored (j : ℕ) : Bytes :=
  (List.range (sectorSize st node j)).map fun i => st.image (position st node j + i)

/-- The content of a block: its raw bytes, or its inflated bytes and zeros after them. -/
def content (j : ℕ) : Option Bytes :=
  if sectorSize st node j = blockSize then some (stored st node j)
  else
    (env.inflate (stored st node j)).map fun decompressed =>
      decompressed ++ List.replicate (blockSize - decompressed.length) 0

/-- What the loop puts into the buffer. A sector longer than a block is passed over. -/
def output (j : ℕ) : Bytes :=
  if sectorSize st node j = blockSize then stored st node j
  else if sectorSize st node j < blockSize then (env.inflate (stored st node j)).getD []
  else []

/-- The block does not end the loop. -/
structure Continues (j : ℕ) : Prop where
  cancelled : env.cancelled j = false
  sectorMap : node.loc + j + 1 < st.sectorMap.length
  reads : env.reads j = true
  resizes : env.resizes (sectorSize st node j) = true
  fits : position st node j % 2 ^ 12 + sectorSize st node j ≤ pfscBufSize
  inflates : sectorSize st node j < blockSize → (env.inflate (stored st node j)).isSome

/-- The block ends the loop with an error. -/
def Stops (j : ℕ) : Prop :=
  env.cancelled j = true ∨ st.sectorMap.length ≤ node.loc + j + 1 ∨ env.reads j = false ∨
    env.resizes (sectorSize st node j) = false ∨
    sectorSize st node j < blockSize ∧ env.inflate (stored st node j) = none

variable {st env node} {j : ℕ}

theorem length_stored : (stored st node j).length = sectorSize st node j := by
  rw [stored, List.length_map, List.length_range]

theorem output_length_le : (output st env node j).length ≤ blockSize := by
  unfold output
  split_ifs with hraw hshort
  · rw [length_stored, hraw]
  · cases hinflate : env.inflate (stored st node j) with
    | none => simp
    | some decompressed => exact env.inflate_length _ _ hinflate
  · simp

variable {n remaining : ℕ} {nblocks : ℤ} {loop : Loop}

theorem take_drop_map_range {α : Type} {f : ℕ → α} {a b : ℕ} (h : a + b ≤ n) :
    (((List.range n).map f).drop a).take b = (List.range b).map fun i => f (a + i) := by
  apply List.ext_getElem
  · simp only [List.length_take, List.length_drop, List.length_map, List.length_range]
    omega
  · intro i _ _
    simp only [List.getElem_take, List.getElem_drop, List.getElem_map, List.getElem_range]

theorem window_slice (hfits : position st node j % 2 ^ 12 + sectorSize st node j ≤ pfscBufSize) :
    ((window st (position st node j - previousData (position st node j))).drop
      (previousData (position st node j)).toNat).take (sectorSize st node j) =
        stored st node j := by
  have hle : position st node j % 2 ^ 12 ≤ position st node j := Nat.mod_le _ _
  have hstart : ∀ i, ((position st node j : ℤ) - (position st node j % 2 ^ 12 : ℕ)).toNat +
      (position st node j % 2 ^ 12 + i) = position st node j + i := by
    intro i
    rw [← Nat.cast_sub hle, Int.toNat_natCast, ← Nat.add_assoc, Nat.sub_add_cancel hle]
  unfold window stored
  generalize pfscBufSize = size at hfits ⊢
  rw [previousData_eq, Int.toNat_natCast, take_drop_map_range hfits]
  exact List.map_congr_left fun i _ => congrArg st.image (hstart i)

theorem sector_of_lt {index : ℕ} (h : index < st.sectorMap.length) :
    st.sector index = some (st.sectorMap.getD index 0) := by
  rw [ExtractState.sector, if_pos (by omega), Int.toNat_natCast, List.getElem?_eq_getElem h,
    List.getD_eq_getElem _ _ h]

theorem decompress_stored :
    decompress env (stored st node j) (sectorSize st node j) =
      if sectorSize st node j < blockSize ∧ env.inflate (stored st node j) = none then
        .failed .decompressFailed
      else .loaded (output st env node j) := by
  unfold decompress output
  generalize blockSize = size
  by_cases hraw : sectorSize st node j = size
  · simp only [hraw, if_true, lt_irrefl, false_and, if_false]
  · by_cases hshort : sectorSize st node j < size
    · cases env.inflate (stored st node j) <;> simp [hraw, hshort]
    · simp [hraw, hshort]

theorem loadSector_eq :
    loadSector st env j (sectorOffset st node j) (st.sectorMap.getD (node.loc + j + 1) 0) =
      if ¬ env.reads j then .failed .readFailed
      else if ¬ env.resizes (sectorSize st node j) then .failed .allocation
      else if pfscBufSize < position st node j % 2 ^ 12 + sectorSize st node j then
        .outOfBounds .window
      else if sectorSize st node j < blockSize ∧ env.inflate (stored st node j) = none then
        .failed .decompressFailed
      else .loaded (output st env node j) := by
  have hposition : (st.pfscOffset + sectorOffset st node j) % 2 ^ 64 = position st node j := rfl
  have hfits : (pfscBufSize : ℤ) < previousData (position st node j) + sectorSize st node j ↔
      pfscBufSize < position st node j % 2 ^ 12 + sectorSize st node j := by
    rw [previousData_eq, ← Nat.cast_add, Nat.cast_lt]
  unfold loadSector
  dsimp only
  rw [hposition, ← sectorSize]
  simp only [hfits]
  by_cases hwindow : pfscBufSize < position st node j % 2 ^ 12 + sectorSize st node j
  · simp only [if_pos hwindow]
  · simp only [if_neg hwindow]
    rw [window_slice (not_lt.mp hwindow), decompress_stored]

/-- The block as a function of the sector, when the `int` index does not overflow. -/
theorem load_eq (hloc : node.loc + j + 1 < 2 ^ 31) : load st env node j =
      if env.cancelled j then .failed .cancelled
      else if st.sectorMap.length ≤ node.loc + j + 1 then .failed .sectorMap
      else loadSector st env j (sectorOffset st node j)
      (st.sectorMap.getD (node.loc + j + 1) 0) := by
  have hint : toInt32 node.loc = node.loc := toInt32_of_lt (by omega) (by omega)
  have hindex : toInt32 (node.loc + j + 1) = ((node.loc + j + 1 : ℕ) : ℤ) := by
    push_cast
    exact toInt32_of_lt (by omega) (by omega)
  unfold load
  dsimp only
  rw [hint, hindex]
  split_ifs with hcancelled hmap hmap' hmap'
  · rfl
  · rfl
  · omega
  · omega
  · have hfirst := @sector_of_lt _ st (node.loc + j) (by omega)
    have hsecond := @sector_of_lt _ st (node.loc + j + 1) (by omega)
    push_cast at hfirst hsecond
    rw [hfirst, hsecond]
    rfl

theorem load_of_continues (h : Continues st env node j) :
    load st env node j = .loaded (output st env node j) := by
  have hmap := h.sectorMap
  have hlength := st.sectorMap_length.2
  have hinflate : ¬ (sectorSize st node j < blockSize ∧ env.inflate (stored st node j) = none) := by
    rintro ⟨hshort, hnone⟩
    have hsome := h.inflates hshort
    rw [hnone] at hsome
    cases hsome
  rw [load_eq (by omega), if_neg (by simp [h.cancelled]), if_neg (by omega), loadSector_eq,
    if_neg (by simp [h.reads]), if_neg (by simp [h.resizes]), if_neg (not_lt.mpr h.fits),
    if_neg hinflate]

theorem fits_of_lt (h : sectorSize st node j < blockSize) :
    position st node j % 2 ^ 12 + sectorSize st node j ≤ pfscBufSize := by
  have hmod : position st node j % 2 ^ 12 < 2 ^ 12 := Nat.mod_lt _ (by norm_num)
  have hblock : blockSize = 65536 := rfl
  have hwindow : pfscBufSize = 69632 := rfl
  omega

theorem load_of_stops (hloc : node.loc + j + 1 < 2 ^ 31) (h : Stops st env node j) :
    ∃ error, load st env node j = .failed error := by
  rw [load_eq hloc, loadSector_eq]
  by_cases hcancelled : env.cancelled j = true
  · exact ⟨_, if_pos hcancelled⟩
  rw [if_neg hcancelled]
  by_cases hmap : st.sectorMap.length ≤ node.loc + j + 1
  · exact ⟨_, if_pos hmap⟩
  rw [if_neg hmap]
  by_cases hreads : env.reads j = true
  · rw [if_neg (not_not.mpr hreads)]
    by_cases hresizes : env.resizes (sectorSize st node j) = true
    · rw [if_neg (not_not.mpr hresizes)]
      obtain h | h | h | h | h := h
      · exact absurd h hcancelled
      · exact absurd h hmap
      · rw [hreads] at h
        cases h
      · rw [hresizes] at h
        cases h
      · rw [if_neg (not_lt.mpr (fits_of_lt h.1)), if_pos h]
        exact ⟨_, rfl⟩
    · exact ⟨_, if_pos hresizes⟩
  · exact ⟨_, if_pos hreads⟩

/-- A block that neither goes on nor stops reads past the window. -/
theorem load_of_not (hloc : node.loc + j + 1 < 2 ^ 31) (hcontinues : ¬ Continues st env node j)
    (hstops : ¬ Stops st env node j) : load st env node j = .outOfBounds .window ∧
      pfscBufSize < position st node j % 2 ^ 12 + sectorSize st node j := by
  simp only [Stops, not_or, not_and, Bool.not_eq_true, Bool.not_eq_false, not_le] at hstops
  obtain ⟨hcancelled, hmap, hreads, hresizes, hinflate⟩ := hstops
  have hwindow : pfscBufSize < position st node j % 2 ^ 12 + sectorSize st node j := by
    by_contra hfits
    exact hcontinues ⟨hcancelled, hmap, hreads, hresizes, not_lt.mp hfits,
      fun hshort => Option.isSome_iff_ne_none.mpr (hinflate hshort)⟩
  refine ⟨?_, hwindow⟩
  rw [load_eq hloc, if_neg (by simp [hcancelled]), if_neg (by omega), loadSector_eq,
    if_neg (by simp [hreads]), if_neg (by simp [hresizes]), if_pos hwindow]

/-! ## The buffer -/

/-- The byte that the blocks before `j` have left at a place of the buffer. -/
def left (st : ExtractState Path) (env : Environment Path) (node : Inode) : ℕ → ℕ → UInt8
  | 0, _ => 0
  | j + 1, i =>
    if i < (output st env node j).length then (output st env node j).getD i 0
      else left st env node j i

def bufferAt (st : ExtractState Path) (env : Environment Path) (node : Inode) (j : ℕ) : Bytes :=
  (List.range blockSize).map (left st env node j)

theorem length_bufferAt : (bufferAt st env node j).length = blockSize := by
  rw [bufferAt, List.length_map, List.length_range]

theorem bufferAt_zero : bufferAt st env node 0 = List.replicate blockSize 0 := by
  have hleft : left st env node 0 = fun _ => 0 := rfl
  rw [bufferAt, hleft, List.map_const', List.length_range]

theorem bufferAt_succ :
    output st env node j ++ (bufferAt st env node j).drop (output st env node j).length =
      bufferAt st env node (j + 1) := by
  have hlength : (output st env node j).length ≤ blockSize := output_length_le
  unfold bufferAt
  generalize blockSize = size at hlength
  apply List.ext_getElem
  · simp only [List.length_append, List.length_drop, List.length_map, List.length_range]
    omega
  · intro i _ _
    simp only [List.getElem_append, List.getElem_drop, List.getElem_map, List.getElem_range, left]
    split_ifs with hi
    · rw [List.getD_eq_getElem _ _ hi]
    · rw [Nat.add_sub_cancel' (not_lt.mp hi)]

/-! ## The loop -/

/-- The variables before the block `j`. -/
def loopAt (st : ExtractState Path) (env : Environment Path) (node : Inode) (j : ℕ) : Loop where
  decompressedData := bufferAt st env node j
  sizeDecompressed := toInt32 (j * blockSize)
  written := (List.range j).flatMap fun k => bufferAt st env node (k + 1)

theorem loopAt_zero : loopAt st env node 0 = .initial := by
  rw [loopAt, bufferAt_zero]
  rfl

theorem extractBlocks_continues (h : Continues st env node j) (hj : j < nblocks - 1) :
    extractBlocks st env node nblocks (remaining + 1) j (loopAt st env node j) =
      extractBlocks st env node nblocks remaining (j + 1) (loopAt st env node (j + 1)) := by
  have hsize : toInt32 (toInt32 (j * blockSize) + blockSize) =
    toInt32 ((j + 1 : ℕ) * blockSize) := by
    unfold toInt32
    rw [Int.bmod_add_bmod, Nat.cast_succ, add_mul, one_mul]
  rw [extractBlocks, load_of_continues h]
  simp only [loopAt, bufferAt_succ, hsize, if_pos hj]
  rw [List.range_succ, List.flatMap_append, List.flatMap_singleton]

theorem extractBlocks_run {m : ℕ} (hm : m < n) (h : ∀ k < m, Continues st env node k) :
    extractBlocks st env node n n 0 .initial =
      extractBlocks st env node n (n - m) m (loopAt st env node m) := by
  induction m with
  | zero => rw [loopAt_zero, Nat.sub_zero]
  | succ m ih =>
    have hremaining : n - m = n - (m + 1) + 1 := by omega
    rw [ih (by omega) fun k hk => h k (by omega), hremaining,
      extractBlocks_continues (h m (by omega)) (by omega)]

theorem extractBlocks_of_load {error : Error} (h : load st env node j = .failed error) :
    extractBlocks st env node nblocks (remaining + 1) j loop = .failed error := by
  rw [extractBlocks, h]

theorem extractBlocks_of_outOfBounds {region : Region}
    (h : load st env node j = .outOfBounds region) :
    extractBlocks st env node nblocks (remaining + 1) j loop = .outOfBounds region := by
  rw [extractBlocks, h]

/-- The bytes that the last block gives of a file with the right number of blocks. -/
theorem writeSize_eq (hlower : n * blockSize ≤ node.size)
    (hupper : node.size ≤ (n + 1) * blockSize) :
    writeSize node (toInt32 ((n + 1 : ℕ) * blockSize)) = (node.size - n * blockSize).toNat := by
  have hblock : (blockSize : ℤ) = 65536 := rfl
  unfold writeSize toInt32
  rw [hblock] at hlower hupper ⊢
  rw [Int.bmod_sub_bmod, Int.sub_bmod_bmod]
  have hmod : ∀ value : ℤ, (65536 - value.bmod (2 ^ 32)) % 2 ^ 32 = (65536 - value) % 2 ^ 32 := by
    intro value
    have hbmod : value.bmod (2 ^ 32) % 2 ^ 32 = value % 2 ^ 32 := Int.bmod_emod
    rw [Int.sub_emod, hbmod, ← Int.sub_emod]
  rw [hmod]
  push_cast
  omega

end Blocks

end PS4Droid.Pkg
