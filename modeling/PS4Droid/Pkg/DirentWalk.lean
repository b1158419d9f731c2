import PS4Droid.Foundations.Bytes
import PS4Droid.Pkg.Extract

/-!
# Walks over directory entries

The bound of `read_dirent` adds two numbers of 32 bits. Where the sum does not fit, the check passes
for an entry that reaches behind the block, and the walk does not advance; everywhere else an entry
lies inside the block and the walk visits its entries one behind the other.
-/

namespace PS4Droid.Pkg

/-!
### Entries

`read_dirent` and the two loops of `build_fs_table` that walk the entries of a decompressed block.
An entry says itself how long it is and where the next one starts; `int` arithmetic wraps.
-/

structure Dirent where
  ino : ℤ
  type : ℤ
  namelen : ℤ
  entsize : ℤ
  name : Bytes
  deriving DecidableEq

def pfsDir : ℤ := 3

def pfsCurrentDir : ℤ := 4

/-- An `s32` of the block. -/
def readS32 (block : ℕ → UInt8) (addr : ℕ) : ℤ := toInt32 (Bytes.readLE block addr 4)

def direntNamelen (block : ℕ → UInt8) (j : ℤ) : ℤ := readS32 block (j.toNat + 8)

def direntEntsize (block : ℕ → UInt8) (j : ℤ) : ℤ := readS32 block (j.toNat + 12)

/-- `read_dirent`: the entry at `j` of a block of `blockSize` bytes, nothing if it is refused, or
a read outside the block. -/
def readDirent (block : ℕ → UInt8) (j : ℤ) : Except Region (Option Dirent) :=
  if j < 0 ∨ blockSize < toInt32 (j + 16) then .ok none
  else if blockSize < j.toNat + 16 then .error .decompressedData
  else
    let namelen := direntNamelen block j
    let entsize := direntEntsize block j
    if entsize ≤ 0 ∨ blockSize < toInt32 (j + entsize) then .ok none
    else if namelen < 0 ∨ 256 ≤ namelen then .ok none
    else if entsize < 16 + namelen then .ok none
    else if blockSize < j.toNat + 16 + namelen.toNat then .error .decompressedData
    else
      .ok (some
        { ino := readS32 block j.toNat
          type := readS32 block (j.toNat + 4)
          namelen := namelen
          entsize := entsize
          name := Bytes.readBytes block (j.toNat + 16) namelen.toNat })

/-- How a loop over the entries of a block ends, with the start and the size of each entry that
it has read. -/
structure Walk (σ : Type) where
  outcome : Except Region σ
  records : List (ℤ × ℤ)

/-- `for (int j = 0; j < 0x10000; )`: the body says whether the loop goes on behind the entry. -/
def direntLoop {σ : Type} (body : σ → Dirent → σ × Bool) (block : ℕ → UInt8) :
    ℕ → ℤ → σ → Option (Walk σ)
  | 0, _, _ => none
  | fuel + 1, j, s =>
    if j < blockSize then
      match readDirent block j with
      | .error region => some ⟨.error region, []⟩
      | .ok none => some ⟨.ok s, []⟩
      | .ok (some dirent) =>
        match body s dirent with
        | (s, false) => some ⟨.ok s, [(j, dirent.entsize)]⟩
        | (s, true) =>
          (direntLoop body block fuel (toInt32 (j + dirent.entsize)) s).map fun walk =>
            ⟨walk.outcome, (j, dirent.entsize) :: walk.records⟩
    else some ⟨.ok s, []⟩

section Loops

variable {Path : Type}

/-- The variables of the loop over the flat path table. -/
structure FlatPaths (Path : Type) where
  flatPathIdx : ℤ
  extractPaths : ℤ → Option Path
  urootReached : Bool

def flatPathBody (extractRoot : Path) (s : FlatPaths Path) (dirent : Dirent) :
    FlatPaths Path × Bool :=
  if dirent.entsize = 0 then (s, false)
  else if dirent.ino ≠ 0 then ({ s with flatPathIdx := toInt32 (s.flatPathIdx + 1) }, true)
  else
    ({ s with
        extractPaths := Function.update s.extractPaths s.flatPathIdx (some extractRoot)
        urootReached := false }, false)

def flatPathLoop (extractRoot : Path) (block : ℕ → UInt8) (fuel : ℕ) (s : FlatPaths Path) :
    Option (Walk (FlatPaths Path)) :=
  direntLoop (flatPathBody extractRoot) block fuel 0 s

/-- `pfs_fs_table`. -/
structure FsTableEntry where
  name : Bytes
  inode : ℕ
  type : ℕ
  deriving DecidableEq

/-- What the loop over directory entries asks of paths. -/
structure Paths (Path : Type) where
  join : Path → Bytes → Path
  safeUnder : Path → Bool

/-- The variables of the loop over directory entries, and the directories that it creates. -/
structure Listing (Path : Type) where
  extractPaths : ℤ → Option Path
  currentDir : Path
  fsTable : List FsTableEntry
  created : List Path
  direntsThisBlock : ℕ
  addedThisBlock : ℕ
  listedEntries : ℕ
  endReached : Bool

def listingBody (paths : Paths Path) (ndinode : ℕ) (s : Listing Path) (dirent : Dirent) :
    Listing Path × Bool :=
  if dirent.ino = 0 then (s, false)
  else if dirent.entsize = 0 then (s, false)
  else
    let currentDir :=
      if dirent.type = pfsCurrentDir then (s.extractPaths dirent.ino).getD s.currentDir
      else s.currentDir
    let path := paths.join currentDir dirent.name
    let s := { s with
      direntsThisBlock := s.direntsThisBlock + 1
      currentDir := currentDir
      extractPaths := Function.update s.extractPaths dirent.ino (some path) }
    if dirent.type = pfsFile ∨ dirent.type = pfsDir then
      ({ s with
          created :=
            if dirent.type = pfsDir ∧ paths.safeUnder path then s.created ++ [path]
            else s.created
          fsTable := s.fsTable ++
            [⟨dirent.name, (dirent.ino % 2 ^ 32).toNat, (dirent.type % 2 ^ 32).toNat⟩]
          listedEntries := s.listedEntries + 1
          addedThisBlock := s.addedThisBlock + 1
          endReached := s.endReached || decide (ndinode ≤ s.listedEntries + 2) }, true)
    else (s, true)

def listingLoop (paths : Paths Path) (ndinode : ℕ) (block : ℕ → UInt8) (fuel : ℕ)
    (s : Listing Path) : Option (Walk (Listing Path)) :=
  direntLoop (listingBody paths ndinode) block fuel 0 s

end Loops

/-! ### Walks -/

/-- `read_dirent` refuses the entry, or gives one that lies with its name inside the block. -/
def ReadsInside (block : ℕ → UInt8) (j : ℤ) : Prop :=
  ∃ entry, readDirent block j = .ok entry ∧
    ∀ dirent ∈ entry, 16 + dirent.namelen ≤ dirent.entsize ∧ 0 ≤ dirent.namelen ∧ 0 ≤ j ∧
      j + dirent.entsize ≤ blockSize

/-- One of the two sums of the bound check leaves the range of `int`. -/
def Overflows (block : ℕ → UInt8) (j : ℤ) : Prop :=
  2 ^ 31 ≤ j + 16 ∨ (0 ≤ j ∧ j + 16 ≤ blockSize ∧ 2 ^ 31 ≤ j + direntEntsize block j ∧
    0 ≤ direntNamelen block j ∧ direntNamelen block j < 256)

instance (block : ℕ → UInt8) (j : ℤ) : Decidable (Overflows block j) :=
  inferInstanceAs (Decidable (2 ^ 31 ≤ j + 16 ∨ (0 ≤ j ∧ j + 16 ≤ blockSize ∧
    2 ^ 31 ≤ j + direntEntsize block j ∧ 0 ≤ direntNamelen block j ∧
      direntNamelen block j < 256)))

theorem toInt32_mem (value : ℤ) : -2 ^ 31 ≤ toInt32 value ∧ toInt32 value < 2 ^ 31 := by
  rw [toInt32, Int.bmod_def]
  split <;> omega

theorem toInt32_eq {value : ℤ} (hge : -2 ^ 31 ≤ value) (hlt : value < 2 ^ 31) :
    toInt32 value = value := by
  rw [toInt32, Int.bmod_def]
  split <;> omega

/-- A sum that is too large by less than its range comes out negative. -/
theorem toInt32_neg {value : ℤ} (hge : 2 ^ 31 ≤ value) (hlt : value < 2 ^ 32) :
    toInt32 value < 0 := by
  rw [toInt32, Int.bmod_def]
  split <;> omega

section ReadDirent

variable {block : ℕ → UInt8} {j : ℤ}

/-- An entry that is given has the fields found at its place, and has passed the checks. -/
theorem readDirent_some {dirent : Dirent} (h : readDirent block j = .ok (some dirent)) :
    dirent.namelen = direntNamelen block j ∧ dirent.entsize = direntEntsize block j ∧ 0 ≤ j ∧
      0 < dirent.entsize ∧ toInt32 (j + dirent.entsize) ≤ blockSize ∧ 0 ≤ dirent.namelen ∧
      dirent.namelen < 256 ∧ 16 + dirent.namelen ≤ dirent.entsize ∧
        toInt32 (j + 16) ≤ blockSize := by
  unfold readDirent at h
  dsimp only at h
  split_ifs at h with h1 h2 h3 h4 h5 h6
  all_goals simp only [Except.ok.injEq, Option.some.injEq, reduceCtorEq] at h
  subst h
  dsimp only
  omega

/-- A read outside the block is one of the header or one of the name, behind the checks. -/
theorem readDirent_error {region : Region} (h : readDirent block j = .error region) :
    0 ≤ j ∧ toInt32 (j + 16) ≤ blockSize ∧ (blockSize < j + 16 ∨
      (toInt32 (j + direntEntsize block j) ≤ blockSize ∧ 0 ≤ direntNamelen block j ∧
        direntNamelen block j < 256 ∧ 16 + direntNamelen block j ≤ direntEntsize block j ∧
        blockSize < j + 16 + direntNamelen block j)) := by
  unfold readDirent at h
  dsimp only at h
  split_ifs at h with h1 h2 h3 h4 h5 h6
  · omega
  · omega

theorem direntEntsize_mem (block : ℕ → UInt8) (j : ℤ) :
    -2 ^ 31 ≤ direntEntsize block j ∧ direntEntsize block j < 2 ^ 31 := by
  rw [direntEntsize, readS32]
  exact toInt32_mem _

theorem readsInside_of_not (hge : -2 ^ 31 ≤ j) (hnot : ¬ Overflows block j) :
    ReadsInside block j := by
  have hmem := direntEntsize_mem block j
  have hblock : blockSize = 0x10000 := rfl
  unfold Overflows at hnot
  have hsum := @toInt32_eq (j + 16) (by omega) (by omega)
  cases hread : readDirent block j with
  | error region =>
    exfalso
    obtain ⟨hpos, hheader, hout | ⟨hend, hname, hshort, hfits, hout⟩⟩ := readDirent_error hread
    · omega
    · rw [toInt32_eq (by omega) (by omega)] at hend
      omega
  | ok entry =>
    refine ⟨entry, hread, ?_⟩
    rintro dirent rfl
    obtain ⟨hnamelen, hentsize, hpos, hsize, hend, hname, hshort, hfits, hheader⟩ :=
      readDirent_some hread
    rw [hentsize] at hend hfits hsize ⊢
    rw [hnamelen] at hname hshort hfits ⊢
    rw [toInt32_eq (by omega) (by omega)] at hend
    exact ⟨hfits, hname, hpos, hend⟩

/-- Where a sum overflows, an entry is given that reaches behind the block, or a byte is read
there. -/
theorem not_readsInside_of_overflows (hlt : j < 2 ^ 31) (hover : Overflows block j) :
    ¬ ReadsInside block j := by
  rintro ⟨entry, hentry, hinside⟩
  have hmem := direntEntsize_mem block j
  have hblock : blockSize = 0x10000 := rfl
  rcases hover with hheader | ⟨hpos, hheader, hover, hname, hshort⟩
  · have hneg := toInt32_neg hheader (by omega)
    unfold readDirent at hentry
    rw [if_neg (by omega), if_pos (by omega)] at hentry
    cases hentry
  · -- the check of the size is passed with a negative sum
    have hneg := toInt32_neg hover (by omega)
    have hsum := @toInt32_eq (j + 16) (by omega) (by omega)
    unfold readDirent at hentry
    rw [if_neg (by omega), if_neg (by omega)] at hentry
    dsimp only at hentry
    rw [if_neg (by omega), if_neg (by omega), if_neg (by omega)] at hentry
    split_ifs at hentry with hout
    cases hentry
    have hend := (hinside _ rfl).2.2.2
    dsimp only at hend
    omega

end ReadDirent

/-! ### Loops -/

section Loops

variable {σ : Type} {body : σ → Dirent → σ × Bool} {block : ℕ → UInt8}

/-- The walk ends by itself, and its records lie inside the block, one behind the other. -/
structure Walk.Safe (walk : Walk σ) : Prop where
  ends : ∃ s, walk.outcome = .ok s
  inside : ∀ record ∈ walk.records, 0 ≤ record.1 ∧ 0 < record.2 ∧
    record.1 + record.2 ≤ blockSize
  disjoint : walk.records.Pairwise fun record later => record.1 + record.2 ≤ later.1

/-- No sum overflows at the places that the loop comes to. -/
def FitsWalk (body : σ → Dirent → σ × Bool) (block : ℕ → UInt8) : ℕ → ℤ → σ → Prop
  | 0, _, _ => True
  | fuel + 1, j, s => j < blockSize → ¬ Overflows block j ∧
      ∀ dirent, readDirent block j = .ok (some dirent) → (body s dirent).2 = true →
        FitsWalk body block fuel (toInt32 (j + dirent.entsize)) (body s dirent).1

/-- The loop goes on behind an entry, and has then read one record more. -/
theorem direntLoop_continue {fuel : ℕ} {j : ℤ} {s : σ} {dirent : Dirent} (hj : j < blockSize)
    (hread : readDirent block j = .ok (some dirent)) (hbody : (body s dirent).2 = true) :
    direntLoop body block (fuel + 1) j s =
      (direntLoop body block fuel (toInt32 (j + dirent.entsize)) (body s dirent).1).map
        fun walk => ⟨walk.outcome, (j, dirent.entsize) :: walk.records⟩ := by
  rw [direntLoop, if_pos hj, hread]
  dsimp only
  split
  · rename_i heq
    rw [heq] at hbody
    cases hbody
  · rename_i heq
    rw [heq]

theorem direntLoop_stop {fuel : ℕ} {j : ℤ} {s : σ} {dirent : Dirent} (hj : j < blockSize)
    (hread : readDirent block j = .ok (some dirent)) (hbody : (body s dirent).2 = false) :
    direntLoop body block (fuel + 1) j s = some ⟨.ok (body s dirent).1, [(j, dirent.entsize)]⟩ := by
  rw [direntLoop, if_pos hj, hread]
  dsimp only
  split
  · rename_i heq
    rw [heq]
  · rename_i heq
    rw [heq] at hbody
    cases hbody

theorem direntLoop_neg {fuel : ℕ} {j : ℤ} (hj : j < 0) (s : σ) :
    direntLoop body block (fuel + 1) j s = some ⟨.ok s, []⟩ := by
  have hblock : blockSize = 0x10000 := rfl
  have hread : readDirent block j = .ok none := by
    unfold readDirent
    rw [if_pos (.inl hj)]
  rw [direntLoop, if_pos (by omega), hread]

/-- What follows the first record of a safe walk is safe and lies behind the record. -/
theorem Walk.Safe.tail {outcome : Except Region σ} {record : ℤ × ℤ} {records : List (ℤ × ℤ)}
    (h : Walk.Safe ⟨outcome, record :: records⟩) : Walk.Safe ⟨outcome, records⟩ ∧
      ∀ later ∈ records, record.1 + record.2 ≤ later.1 where
  left :=
    { ends := h.ends
      inside := fun later hlater => h.inside later (List.mem_cons_of_mem _ hlater)
      disjoint := (List.pairwise_cons.1 h.disjoint).2 }
  right := (List.pairwise_cons.1 h.disjoint).1

theorem Walk.Safe.cons {walk : Walk σ} (h : walk.Safe) {j size : ℤ}
    (hrecord : 0 ≤ j ∧ 0 < size ∧ j + size ≤ blockSize)
    (hbehind : ∀ later ∈ walk.records, j + size ≤ later.1) :
    Walk.Safe ⟨walk.outcome, (j, size) :: walk.records⟩ ∧
      ∀ record ∈ (j, size) :: walk.records, j ≤ record.1 := by
  refine ⟨⟨h.ends, ?_, List.pairwise_cons.2 ⟨hbehind, h.disjoint⟩⟩, ?_⟩
  · rintro record (_ | ⟨_, hmem⟩)
    · exact hrecord
    · exact h.inside record hmem
  · rintro record (_ | ⟨_, hmem⟩)
    · exact le_rfl
    · have := hbehind record hmem
      omega

/-- From a place where a sum overflows the loop still ends, after a read outside the block or with
a record that reaches behind it. -/
theorem direntLoop_overflow {j : ℤ} (hlt : j < blockSize)
    (hover : Overflows block j) (fuel : ℕ) (s : σ) (hfuel : 1 ≤ fuel) :
    ∃ walk, direntLoop body block (fuel + 1) j s = some walk ∧ ¬ walk.Safe := by
  have hblock : blockSize = 0x10000 := rfl
  have hmem := direntEntsize_mem block j
  have hunsafe := not_readsInside_of_overflows (by omega) hover
  obtain hheader | ⟨-, -, hover, -⟩ := hover
  · omega
  cases hread : readDirent block j with
  | error region =>
    refine ⟨⟨.error region, []⟩, by rw [direntLoop, if_pos hlt, hread], fun h => ?_⟩
    obtain ⟨s', hs'⟩ := h.ends
    cases hs'
  | ok entry =>
    cases entry with
    | none => exact absurd ⟨none, hread, by simp⟩ hunsafe
    | some dirent =>
      obtain ⟨-, hentsize, -⟩ := readDirent_some hread
      rw [← hentsize] at hover hmem
      cases hbody : (body s dirent).2 with
      | false =>
        refine ⟨_, direntLoop_stop hlt hread hbody, fun h => ?_⟩
        have hend := (h.inside _ (List.mem_singleton.2 rfl)).2.2
        dsimp only at hend
        omega
      | true =>
        obtain ⟨fuel, rfl⟩ := Nat.exists_eq_add_of_le' hfuel
        have hneg := toInt32_neg hover (by omega)
        refine ⟨_, by rw [direntLoop_continue hlt hread hbody, direntLoop_neg hneg]; rfl,
          fun h => ?_⟩
        have hend := (h.inside _ List.mem_cons_self).2.2
        dsimp only at hend
        omega

/-- The walk from `j` on: it always ends, and it is safe, with all records from `j` on, exactly
when no sum overflows on its way. -/
theorem direntLoop_safe_iff (fuel : ℕ) {j : ℤ} (hj : 0 ≤ j) (hle : j ≤ blockSize)
    (hfuel : (blockSize : ℤ) - j + 2 ≤ fuel) (s : σ) :
    ∃ walk, direntLoop body block fuel j s = some walk ∧
      ((walk.Safe ∧ ∀ record ∈ walk.records, j ≤ record.1) ↔ FitsWalk body block fuel j s) := by
  have hblock : blockSize = 0x10000 := rfl
  induction fuel generalizing j s with
  | zero => omega
  | succ fuel ih =>
    by_cases hlt : j < blockSize
    · by_cases hover : Overflows block j
      · obtain ⟨walk, hwalk, hunsafe⟩ := @direntLoop_overflow σ body block j hlt hover fuel s
          (by omega)
        refine ⟨walk, hwalk, iff_of_false (fun h => hunsafe h.1) fun h => (h hlt).1 hover⟩
      · obtain ⟨entry, hread, hinside⟩ := readsInside_of_not (by omega) hover
        cases entry with
        | none =>
          refine ⟨⟨.ok s, []⟩, by rw [direntLoop, if_pos hlt, hread], iff_of_true ?_ ?_⟩
          · exact ⟨⟨⟨s, rfl⟩, by simp, .nil⟩, by simp⟩
          · intro _
            refine ⟨hover, fun dirent hdirent => ?_⟩
            rw [hread] at hdirent
            simp at hdirent
        | some dirent =>
          obtain ⟨-, -, -, hend⟩ := hinside dirent rfl
          obtain ⟨-, -, -, hsize, -⟩ := readDirent_some hread
          have hrecord : 0 ≤ j ∧ 0 < dirent.entsize ∧ j + dirent.entsize ≤ blockSize :=
            ⟨hj, hsize, hend⟩
          have honly (dirent' : Dirent) (h : readDirent block j = .ok (some dirent')) :
              dirent' = dirent := by
            rw [hread] at h
            simpa [eq_comm] using h
          cases hbody : (body s dirent).2 with
          | false =>
            refine ⟨_, direntLoop_stop hlt hread hbody, iff_of_true ?_ ?_⟩
            · exact ⟨⟨⟨_, rfl⟩, by simpa using hrecord, List.pairwise_singleton _ _⟩, by simp⟩
            · intro _
              refine ⟨hover, fun dirent' hdirent' hcontinue => ?_⟩
              rw [honly dirent' hdirent', hbody] at hcontinue
              cases hcontinue
          | true =>
            have hnext := @toInt32_eq (j + dirent.entsize) (by omega) (by omega)
            obtain ⟨walk, hwalk, hiff⟩ := @ih (j + dirent.entsize) (by omega) hend (by omega)
              (body s dirent).1
            refine ⟨_, by rw [direntLoop_continue hlt hread hbody, hnext, hwalk]; rfl, ?_⟩
            constructor
            · rintro ⟨hsafe, -⟩
              intro _
              refine ⟨hover, fun dirent' hdirent' _ => ?_⟩
              rw [honly dirent' hdirent', hnext, ← hiff]
              exact hsafe.tail
            · intro hfits
              have hrest := (hfits hlt).2 dirent hread hbody
              rw [hnext, ← hiff] at hrest
              exact hrest.1.cons hrecord hrest.2
    · refine ⟨⟨.ok s, []⟩, by rw [direntLoop, if_neg hlt], iff_of_true ?_ ?_⟩
      · exact ⟨⟨⟨s, rfl⟩, by simp, .nil⟩, by simp⟩
      · exact fun h => absurd h hlt

theorem direntLoop_start_safe_iff {fuel : ℕ} (hfuel : blockSize + 2 ≤ fuel) (s : σ) :
    ∃ walk, direntLoop body block fuel 0 s = some walk ∧
      (walk.Safe ↔ FitsWalk body block fuel 0 s) := by
  obtain ⟨walk, hwalk, hiff⟩ := @direntLoop_safe_iff σ body block fuel 0 le_rfl (by omega)
    (by omega) s
  refine ⟨walk, hwalk, ?_⟩
  rw [← hiff]
  exact ⟨fun h => ⟨h, fun record hrecord => (h.inside record hrecord).1⟩, And.left⟩

end Loops

/-- Reads of entries stay inside the block, and both loops end after visiting entries one behind
the other, exactly when no sum of the bound check overflows where they read. -/
theorem direntWalks_iff {Path : Type} (block : ℕ → UInt8) (extractRoot : Path)
    (paths : Paths Path) (ndinode : ℕ) :
    (∀ j : Int32, ReadsInside block j.toInt ↔ ¬ Overflows block j.toInt) ∧
    ∀ fuel, blockSize + 2 ≤ fuel →
      (∀ s, ∃ walk, flatPathLoop extractRoot block fuel s = some walk ∧
        (walk.Safe ↔ FitsWalk (flatPathBody extractRoot) block fuel 0 s)) ∧
      ∀ s, ∃ walk, listingLoop paths ndinode block fuel s = some walk ∧
        (walk.Safe ↔ FitsWalk (listingBody paths ndinode) block fuel 0 s) := by
  refine ⟨fun j => ?_, fun fuel hfuel => ⟨fun s => ?_, fun s => ?_⟩⟩
  · have hge := j.le_toInt
    have hlt := j.toInt_lt
    exact ⟨fun hinside hover => not_readsInside_of_overflows hlt hover hinside,
      readsInside_of_not hge⟩
  · exact direntLoop_start_safe_iff hfuel s
  · exact direntLoop_start_safe_iff hfuel s

/-- A block of zeros has no entry. -/
theorem direntWalks_zero : ReadsInside (fun _ => 0) 0 ∧
    ∃ walk, flatPathLoop () (fun _ => 0) (blockSize + 2) ⟨0, fun _ => none, true⟩ = some walk ∧
      walk.Safe := by
  have hall := direntWalks_iff (fun _ => 0) () ⟨fun _ _ => (), fun _ => true⟩ 0
  refine ⟨(hall.1 0).2 (by decide), ?_⟩
  obtain ⟨walk, hwalk, hiff⟩ := (hall.2 (blockSize + 2) le_rfl).1 ⟨0, fun _ => none, true⟩
  have hnone : readDirent (fun _ => 0) 0 = .ok none := by decide
  refine ⟨walk, hwalk, hiff.2 ?_⟩
  rw [FitsWalk]
  refine fun _ => ⟨by decide, fun dirent hread => ?_⟩
  rw [hnone] at hread
  cases hread

/-- Two entries: the first fills the block up to its last sixteen bytes, where the second one says
that it is as long as an `int` can be and has a name of 255 bytes. -/
def overlongBlock : ℕ → UInt8
  | 0 => 1
  | 12 => 0xF0
  | 13 => 0xFF
  | 0xFFF0 => 2
  | 0xFFF8 => 0xFF
  | 0xFFFC => 0xFF
  | 0xFFFD => 0xFF
  | 0xFFFE => 0xFF
  | 0xFFFF => 0x7F
  | _ => 0

/-- The name of the second entry is read behind the block, and the loop over the flat path table
comes to it. -/
theorem not_direntWalks_overlong :
    readDirent overlongBlock 0xFFF0 = .error .decompressedData ∧
      ¬ ReadsInside overlongBlock 0xFFF0 ∧
      ∃ walk, flatPathLoop () overlongBlock (blockSize + 2) ⟨0, fun _ => none, true⟩ = some walk ∧
        ¬ walk.Safe := by
  have hread : readDirent overlongBlock 0xFFF0 = .error .decompressedData := by decide +kernel
  have hfirst : readDirent overlongBlock 0 = .ok (some ⟨1, 0, 0, 0xFFF0, []⟩) := by
    decide +kernel
  have hnext : toInt32 (0 + 0xFFF0) = 0xFFF0 := by decide
  have hsecond (s : FlatPaths Unit) : direntLoop (flatPathBody ()) overlongBlock
      (blockSize + 1) 0xFFF0 s = some ⟨.error .decompressedData, []⟩ := by
    rw [direntLoop, if_pos (by decide), hread]
  have hloop := @direntLoop_continue _ (flatPathBody ()) overlongBlock (blockSize + 1) 0
    ⟨0, fun _ => none, true⟩ _ (by decide) hfirst rfl
  rw [hnext, hsecond] at hloop
  refine ⟨hread, ?_, ⟨.error .decompressedData, [(0, 0xFFF0)]⟩, hloop, fun hsafe => ?_⟩
  · rintro ⟨entry, hentry, -⟩
    rw [hread] at hentry
    cases hentry
  · obtain ⟨s, hs⟩ := hsafe.ends
    cases hs

end PS4Droid.Pkg
