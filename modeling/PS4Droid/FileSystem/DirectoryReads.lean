import PS4Droid.FileSystem.Dirents

/-!
# Reading a directory

A call skips the records up to the file offset and copies those behind it that fit. Since every
record fits into a block and the byte count is at least a block, a call copies a record as long as
one is left. The buffer is built anew for each call, so the records of different calls differ in
their inode numbers.
-/

namespace PS4Droid.FileSystem

open ByteStrings BoundedBuffers BlockPacking

variable {listing : List DirectoryEntry} {directory : NormalDirectory}
  {records done skipped left : List Dirent}
  {d : Dirent} {buffer written : List UInt8} {alignedCount : ℤ} {fuel : ℕ}

/-! ### The loop -/

theorem Dirent.Holds.length (h : d.Holds) : d.bytes.length = d.reclen :=
  Dirent.length_bytes (Nat.le_of_succ_le h.name)

theorem readDirents_at (h : d.Holds) (hnamed : d.entry.Named)
    (hbuffer : buffer = bytesOf done ++ d.bytes ++ bytesOf left)
    (alignedCount : ℤ) (fuel workingOffset : ℕ) (written : List UInt8) :
    readDirents buffer alignedCount (fuel + 1) (bytesOf done).length workingOffset written =
      if d.reclen ≤ workingOffset then
        readDirents buffer alignedCount fuel (bytesOf (done ++ [d])).length
          (workingOffset - d.reclen) written
      else if alignedCount < written.length + d.reclen then some written
      else (slice buffer ((bytesOf done).length + workingOffset) (d.reclen - workingOffset)).bind
        fun bytes =>
        readDirents buffer alignedCount fuel (bytesOf (done ++ [d])).length 0
          (written ++ bytes) := by
  have hreclen := Dirent.slice_reclen (bytesOf done) (bytesOf left) d
  have hnamlen := Dirent.getElem_namlen (bytesOf done) (bytesOf left) d
  rw [← hbuffer] at hreclen hnamlen
  have hblock := h.block
  have hname := h.name
  have hnonzero : UInt8.ofNat d.entry.leaf.length ≠ 0 := by
    intro hzero
    have hnat := congrArg UInt8.toNat hzero
    rw [UInt8.toNat_ofNat', Nat.mod_eq_of_lt (by have := hnamed.2; omega)] at hnat
    have hpos := hnamed.1
    change d.entry.leaf.length = 0 at hnat
    omega
  have hinside : (bytesOf done).length < buffer.length := by
    rw [hbuffer, List.length_append, List.length_append, h.length]
    omega
  have hnext : (bytesOf (done ++ [d])).length = (bytesOf done).length + d.reclen := by
    rw [bytesOf_append, List.length_append, bytesOf_cons, bytesOf_nil, List.append_nil, h.length]
  rw [readDirents, if_pos hinside, hreclen, hnamlen]
  simp only [leNat_leBytes_of_lt (show d.reclen < 256 ^ 2 by omega), if_neg hnonzero, hnext]

theorem readDirents_skip (hholds : ∀ d ∈ skipped, d.Holds) (hnamed : ∀ d ∈ skipped, d.entry.Named) :
    ∀ {done fuel}, buffer = bytesOf (done ++ skipped ++ left) →
      readDirents buffer alignedCount (fuel + skipped.length) (bytesOf done).length
        (bytesOf skipped).length written =
        readDirents buffer alignedCount fuel (bytesOf (done ++ skipped)).length 0 written := by
  induction skipped with
  | nil =>
    intro done fuel _
    rw [List.append_nil]
    rfl
  | cons d skipped ih =>
    intro done fuel hbuffer
    obtain ⟨hd, hholds⟩ := List.forall_mem_cons.mp hholds
    obtain ⟨hdnamed, hnamed⟩ := List.forall_mem_cons.mp hnamed
    have hshape : buffer = bytesOf done ++ d.bytes ++ bytesOf (skipped ++ left) := by
      rw [hbuffer]
      simp only [List.append_assoc, List.cons_append, bytesOf_append, bytesOf_cons]
    have hlength : (bytesOf (d :: skipped)).length = d.reclen + (bytesOf skipped).length := by
      rw [bytesOf_cons, List.length_append, hd.length]
    rw [List.length_cons, ← Nat.add_assoc, readDirents_at hd hdnamed hshape, hlength,
      if_pos (Nat.le_add_right _ _), Nat.add_sub_cancel_left, List.append_cons done d skipped]
    refine ih hholds hnamed ?_
    rw [hbuffer]
    simp only [List.append_assoc, List.cons_append, List.nil_append]

theorem readDirents_copy (hholds : ∀ d ∈ left, d.Holds) (hnamed : ∀ d ∈ left, d.entry.Named) :
    ∀ {done fuel written}, buffer = bytesOf (done ++ left) → left.length < fuel →
      written.length ≤ alignedCount → ∃ first more, left = first ++ more ∧
        readDirents buffer alignedCount fuel (bytesOf done).length 0 written =
          some (written ++ bytesOf first) ∧
        (written ++ bytesOf first).length ≤ alignedCount ∧
        (left ≠ [] → written.length + 512 ≤ alignedCount → first ≠ []) := by
  induction left with
  | nil =>
    intro done fuel written hbuffer hfuel hwritten
    obtain ⟨fuel, rfl⟩ := Nat.exists_eq_succ_of_ne_zero (Nat.ne_zero_of_lt hfuel)
    rw [List.append_nil] at hbuffer
    refine ⟨[], [], rfl, ?_, ?_, fun h => absurd rfl h⟩
    · rw [readDirents, hbuffer, if_neg (Nat.lt_irrefl _), bytesOf_nil, List.append_nil]
    · rwa [bytesOf_nil, List.append_nil]
  | cons d left ih =>
    intro done fuel written hbuffer hfuel hwritten
    obtain ⟨fuel, rfl⟩ := Nat.exists_eq_succ_of_ne_zero (Nat.ne_zero_of_lt hfuel)
    obtain ⟨hd, hholds⟩ := List.forall_mem_cons.mp hholds
    obtain ⟨hdnamed, hnamed⟩ := List.forall_mem_cons.mp hnamed
    have hblock := hd.block
    have hname := hd.name
    have hshape : buffer = bytesOf done ++ d.bytes ++ bytesOf left := by
      rw [hbuffer, bytesOf_append, bytesOf_cons, List.append_assoc]
    have hpositive : ¬d.reclen ≤ 0 := by omega
    have hslice : slice buffer ((bytesOf done).length + 0) (d.reclen - 0) = some d.bytes := by
      rw [hshape, Nat.add_zero, Nat.sub_zero, ← hd.length]
      exact slice_append _ _ _
    rw [readDirents_at hd hdnamed hshape, if_neg hpositive, hslice, Option.bind_some]
    by_cases hfull : alignedCount < written.length + d.reclen
    · refine ⟨[], d :: left, rfl, ?_, ?_, fun _ hroom => by omega⟩
      · rw [if_pos hfull, bytesOf_nil, List.append_nil]
      · rwa [bytesOf_nil, List.append_nil]
    · have hwritten' : ((written ++ d.bytes).length : ℤ) ≤ alignedCount := by
        rw [List.length_append, hd.length]
        omega
      obtain ⟨first, more, rfl, hrun, hfits, -⟩ :=
        @ih hholds hnamed (done ++ [d]) fuel (written ++ d.bytes)
        (by rw [hbuffer, ← List.append_cons]) (Nat.lt_of_succ_lt_succ hfuel) hwritten'
      rw [List.append_assoc, ← bytesOf_cons] at hrun hfits
      exact ⟨d :: first, more, rfl, by rw [if_neg hfull, hrun], hfits,
        fun _ _ => List.cons_ne_nil _ _⟩

/-! ### One call -/

/-- A directory that has been read up to the shapes that are left. -/
structure Reading (listing : List DirectoryEntry) (directory : NormalDirectory)
    (left : List (DirectoryEntry × ℕ)) : Prop where
  offset : ∃ taken, shapesOf listing = taken ++ left ∧
    directory.fileOffset = (taken.map Prod.snd).sum
  current : directory.previousFileOffset = directory.fileOffset →
    ∃ records, Records listing directory records ∧ records.map Dirent.shape = shapesOf listing

theorem Reading.rebuild {left : List (DirectoryEntry × ℕ)} (h : Reading listing directory left)
    (hnames : ∀ e ∈ listing, e.Named) (filenoPool : UInt32) : ∃ directory' pool' records,
      directory.rebuildDirents listing filenoPool = some (directory', pool') ∧
      directory'.fileOffset = directory.fileOffset ∧
        directory'.previousFileOffset = directory.fileOffset ∧
      Records listing directory' records ∧ records.map Dirent.shape = shapesOf listing := by
  by_cases hmoved : directory.previousFileOffset = directory.fileOffset
  · obtain ⟨records, hrecords, hshapes⟩ := h.current hmoved
    refine ⟨directory, filenoPool, records, ?_, rfl, hmoved, hrecords, hshapes⟩
    rw [NormalDirectory.rebuildDirents, if_pos hmoved]
  · exact rebuildDirents_eq hnames filenoPool hmoved

theorem Records.named (h : Records listing directory records) (hnames : ∀ e ∈ listing, e.Named) :
    ∀ d ∈ records, d.entry.Named := by
  intro d hd
  refine hnames d.entry ?_
  rw [← h.entries]
  exact List.mem_map_of_mem hd

theorem length_le_bytesOf (hholds : ∀ d ∈ records, d.Holds) :
    records.length ≤ (bytesOf records).length := by
  induction records with
  | nil => exact Nat.le_refl 0
  | cons d records ih =>
    obtain ⟨hd, hholds⟩ := List.forall_mem_cons.mp hholds
    have hname := hd.name
    have hlength := ih hholds
    rw [bytesOf_cons, List.length_append, hd.length, List.length_cons]
    omega

theorem sum_shapes (hholds : ∀ d ∈ records, d.Holds) :
    ((records.map Dirent.shape).map Prod.snd).sum = (bytesOf records).length := by
  rw [length_bytesOf hholds, List.map_map]
  rfl

variable {nbytes : UInt64}

theorem alignedCount_eq (hlow : 512 ≤ nbytes.toNat) (hhigh : nbytes.toNat < 2 ^ 63) :
    512 ≤ (BitVec.ofNat 64 (alignDown nbytes.toNat 512)).toInt ∧
      (BitVec.ofNat 64 (alignDown nbytes.toNat 512)).toInt ≤ nbytes.toNat := by
  have hle : alignDown nbytes.toNat 512 ≤ nbytes.toNat := Nat.sub_le _ _
  have hblock : 512 ≤ alignDown nbytes.toNat 512 := by
    unfold alignDown
    omega
  have hint : (BitVec.ofNat 64 (alignDown nbytes.toNat 512)).toInt =
    alignDown nbytes.toNat 512 := by
    rw [BitVec.toInt_eq_toNat_cond, BitVec.toNat_ofNat, Nat.mod_eq_of_lt (by omega),
      if_pos (by omega)]
  rw [hint]
  omega

/-- A call returns at least one whole record, as long as one is left. -/
theorem Reading.getdents {left : List (DirectoryEntry × ℕ)} (h : Reading listing directory left)
    (hnames : ∀ e ∈ listing, e.Named) (filenoPool : UInt32) (hlow : 512 ≤ nbytes.toNat)
    (hhigh : nbytes.toNat < 2 ^ 63) :
    ∃ result, directory.getdents listing filenoPool nbytes = some result ∧
      if left = [] then result.buf = [] ∧ Reading listing result.directory []
      else ∃ first more, left = first.map Dirent.shape ++ more ∧ first ≠ [] ∧
        result.buf = bytesOf first ∧
        result.buf.length ≤ nbytes.toNat ∧ Reading listing result.directory more := by
  obtain ⟨directory', pool', records, hrebuild, hoffset, hprevious, hrecords, hshapes⟩ :=
    h.rebuild hnames filenoPool
  obtain ⟨taken, hsplit, htaken⟩ := h.offset
  obtain ⟨skipped, rest, rfl, hskipped, hrest⟩ := List.map_eq_append_iff.mp (hshapes.trans hsplit)
  obtain ⟨hskippedHolds, hrestHolds⟩ := List.forall_mem_append.mp hrecords.holds
  obtain ⟨hskippedNamed, hrestNamed⟩ := List.forall_mem_append.mp (hrecords.named hnames)
  have hposition : directory'.fileOffset = (bytesOf skipped).length := by
    rw [hoffset, htaken, ← hskipped, sum_shapes hskippedHolds]
  have hsize : directory'.directorySize = (bytesOf skipped).length + (bytesOf rest).length := by
    rw [hrecords.size, ← length_bytesOf hrecords.holds, bytesOf_append, List.length_append]
  have hcount := length_le_bytesOf hrestHolds
  rw [NormalDirectory.getdents, hrebuild, Option.bind_some]
  by_cases hend : rest = []
  · have hleft : left = [] := by rw [← hrest, hend, List.map_nil]
    have hall : directory'.directorySize ≤ directory'.fileOffset := by
      rw [hsize, hposition, hend]
      exact Nat.le_refl _
    simp only [if_pos hall, if_pos hleft]
    refine ⟨_, rfl, rfl, ⟨taken, by rw [hsplit, hleft], by rw [hoffset, htaken]⟩,
      fun _ => ⟨_, hrecords, hshapes⟩⟩
  · have hleft : left ≠ [] := by
      rw [← hrest, Ne, List.map_eq_nil_iff]
      exact hend
    have hpos : 0 < rest.length := List.length_pos_iff.mpr hend
    have hsome : ¬directory'.directorySize ≤ directory'.fileOffset := by omega
    obtain ⟨hroom, hcap⟩ := alignedCount_eq hlow hhigh
    have hbuffer : directory'.direntCacheBin = bytesOf ([] ++ skipped ++ rest) := hrecords.bytes
    obtain ⟨fuel, hfuel, hcopy⟩ : ∃ fuel,
      directory'.direntCacheBin.length + 1 = fuel + skipped.length ∧ rest.length < fuel := by
      have htotal := length_le_bytesOf hrecords.holds
      rw [List.length_append] at htotal
      refine ⟨directory'.direntCacheBin.length + 1 - skipped.length, ?_, ?_⟩
      · rw [hrecords.bytes]
        omega
      · rw [hrecords.bytes]
        omega
    obtain ⟨first, more, rfl, hrun, hfits, hfirst⟩ :=
      @readDirents_copy rest directory'.direntCacheBin
      (BitVec.ofNat 64 (alignDown nbytes.toNat 512)).toInt hrestHolds hrestNamed skipped fuel
        [] hbuffer hcopy
      (by rw [List.length_nil]; omega)
    have hfirst := hfirst hend (by rw [List.length_nil]; omega)
    have hskip := @readDirents_skip skipped (first ++ more) directory'.direntCacheBin []
      (BitVec.ofNat 64 (alignDown nbytes.toNat 512)).toInt hskippedHolds hskippedNamed
        [] fuel hbuffer
    rw [← hfuel, ← hposition, bytesOf_nil, List.length_nil, List.nil_append, hrun,
      List.nil_append] at hskip
    rw [List.nil_append] at hfits
    simp only [if_neg hsome, if_neg hleft, hskip, Option.map_some]
    have hfirstHolds := (List.forall_mem_append.mp hrestHolds).1
    have hgrown := length_le_bytesOf hfirstHolds
    have hfirstPos : 0 < first.length := List.length_pos_iff.mpr hfirst
    refine ⟨_, rfl, first, more.map Dirent.shape, ?_, hfirst, rfl, ?_,
      ⟨taken ++ first.map Dirent.shape, ?_, ?_⟩, ?_⟩
    · rw [← hrest, List.map_append]
    · simp only
      omega
    · rw [hsplit, ← hrest, List.map_append, List.append_assoc]
    · simp only [List.map_append, List.sum_append, sum_shapes hfirstHolds]
      rw [hoffset, htaken]
    · -- the position has moved on from the one the buffer was built at
      intro hstill
      simp only [hprevious, hoffset] at hstill
      omega

/-! ### Calls behind each other -/

theorem reads_enumerated {left : List (DirectoryEntry × ℕ)} (h : Reading listing directory left)
    (hnames : ∀ e ∈ listing, e.Named) {calls : List (UInt64 × UInt32)}
    (hcalls : ∀ call ∈ calls, 512 ≤ call.1.toNat ∧ call.1.toNat < 2 ^ 63) : ∃ returned,
      directory.reads listing calls = some returned ∧
        Enumerated left (calls.map Prod.fst) returned := by
  induction calls generalizing directory left with
  | nil => exact ⟨[], rfl, rfl⟩
  | cons call calls ih =>
    obtain ⟨hcall, hcalls⟩ := List.forall_mem_cons.mp hcalls
    obtain ⟨result, hrun, hresult⟩ := h.getdents hnames call.2 hcall.1 hcall.2
    have hreads : ∀ returned, result.directory.reads listing calls = some returned →
        directory.reads listing (call :: calls) = some (result.buf :: returned) := by
      intro returned hrest
      rw [NormalDirectory.reads, hrun, Option.bind_some, hrest, Option.map_some]
    split_ifs at hresult with hleft
    · obtain ⟨hbuf, hreading⟩ := hresult
      obtain ⟨returned, hrest, henumerated⟩ := ih hreading hcalls
      refine ⟨_, hreads returned hrest, ?_⟩
      rw [List.map_cons, Enumerated, if_pos hleft]
      exact ⟨hbuf, henumerated⟩
    · obtain ⟨first, more, hsplit, hfirst, hbuf, hfits, hreading⟩ := hresult
      obtain ⟨returned, hrest, henumerated⟩ := ih hreading hcalls
      refine ⟨_, hreads returned hrest, ?_⟩
      rw [List.map_cons, Enumerated, if_neg hleft]
      exact ⟨first, more, hsplit, hfirst, hbuf, hfits, henumerated⟩

/-- What has been returned is a front part of the buffer, and after enough calls all of it. -/
theorem Enumerated.flatten {left : List (DirectoryEntry × ℕ)} {calls : List UInt64}
    {returned : List (List UInt8)}
    (h : Enumerated left calls returned) : ∃ records, returned.flatten = bytesOf records ∧
      records.map Dirent.shape <+: left ∧
        (left.length ≤ calls.length → records.map Dirent.shape = left) := by
  induction calls generalizing left returned with
  | nil =>
    obtain rfl : returned = [] := h
    exact ⟨[], rfl, List.nil_prefix,
      fun hle => (List.eq_nil_of_length_eq_zero (Nat.le_zero.mp hle)).symm⟩
  | cons nbytes calls ih =>
    rcases returned with _ | ⟨buf, returned⟩
    · exact h.elim
    · rw [Enumerated] at h
      split_ifs at h with hleft
      · obtain ⟨rfl, hrest⟩ := h
        obtain ⟨records, hflat, hprefix, hall⟩ := ih hrest
        refine ⟨records, ?_, ?_, fun _ => ?_⟩
        · rw [List.flatten_cons, List.nil_append, hflat]
        · rw [hleft]
          exact hprefix
        · rw [hleft]
          exact List.prefix_nil.mp hprefix
      · obtain ⟨first, more, rfl, hfirst, rfl, -, hrest⟩ := h
        obtain ⟨records, hflat, hprefix, hall⟩ := ih hrest
        refine ⟨first ++ records, ?_, ?_, fun hle => ?_⟩
        · rw [List.flatten_cons, hflat, bytesOf_append]
        · rw [List.map_append]
          exact List.prefix_append_right_inj _ |>.mpr hprefix
        · have hpos : 0 < first.length := List.length_pos_iff.mpr hfirst
          rw [List.length_append, List.length_map, List.length_cons] at hle
          rw [List.map_append, hall (by omega)]

/-- The buffer of a new directory is a chain of records, and calls behind each other return it
whole, with new inode numbers. -/
theorem getdents_enumerates (listing : List DirectoryEntry) (filenoPool : UInt32)
    (hnames : ∀ e ∈ listing, e.Named) :
    ∃ directory pool' records, NormalDirectory.create listing filenoPool = some (directory, pool') ∧
      Records listing directory records ∧
      ∀ calls :
      List (UInt64 × UInt32), (∀ call ∈ calls, 512 ≤ call.1.toNat ∧ call.1.toNat < 2 ^ 63) →
        ∃ returned, directory.reads listing calls = some returned ∧
          Enumerated (records.map Dirent.shape) (calls.map Prod.fst) returned ∧
          ∃ read, returned.flatten = bytesOf read ∧
            read.map Dirent.shape <+: records.map Dirent.shape ∧
            (records.length ≤ calls.length → read.map Dirent.shape = records.map Dirent.shape) := by
  obtain ⟨directory, pool', records, hcreate, hoffset, -, hrecords, hshapes⟩ :=
    @rebuildDirents_eq listing {} hnames filenoPool (by decide)
  refine ⟨directory, pool', records, hcreate, hrecords, fun calls hcalls => ?_⟩
  have hreading : Reading listing directory (records.map Dirent.shape) :=
    ⟨⟨[], by rw [hshapes, List.nil_append], hoffset⟩, fun _ => ⟨records, hrecords, hshapes⟩⟩
  obtain ⟨returned, hrun, henumerated⟩ := reads_enumerated hreading hnames hcalls
  obtain ⟨read, hflat, hprefix, hall⟩ := henumerated.flatten
  rw [List.length_map, List.length_map] at hall
  exact ⟨returned, hrun, henumerated, read, hflat, hprefix, hall⟩

/-! ### Two entries in two blocks -/

/-- A file name of 255 bytes. -/
def longEntry (c : UInt8) (h : c ≠ 0) : DirectoryEntry :=
  ⟨List.replicate 255 c, true, fun hmem => h (List.eq_of_mem_replicate hmem).symm⟩

theorem longEntry_named (c : UInt8) (h : c ≠ 0) : (longEntry c h).Named := by
  rw [DirectoryEntry.Named, longEntry, List.length_replicate]
  decide

def twoEntries : List DirectoryEntry := [longEntry 97 (by decide), longEntry 98 (by decide)]

theorem getdents_enumerates_two :
    ∃ directory pool' records, NormalDirectory.create twoEntries 10 = some (directory, pool') ∧
    Records twoEntries directory records ∧ ∃ returned,
      directory.reads twoEntries [(512, pool'), (1000, pool'), (512, pool')] = some returned ∧
        Enumerated (records.map Dirent.shape) [512, 1000, 512] returned := by
  have hnames : ∀ e ∈ twoEntries, e.Named :=
    List.forall_mem_cons.mpr ⟨longEntry_named _ _,
      List.forall_mem_singleton.mpr (longEntry_named _ _)⟩
  obtain ⟨directory, pool', records, hcreate, hrecords, hreads⟩ :=
    getdents_enumerates twoEntries 10 hnames
  have hblock : 512 ≤ (512 : UInt64).toNat ∧ (512 : UInt64).toNat < 2 ^ 63 := by decide
  have hlarger : 512 ≤ (1000 : UInt64).toNat ∧ (1000 : UInt64).toNat < 2 ^ 63 := by decide
  have hcalls : ∀ call ∈ ([(512, pool'), (1000, pool'), (512, pool')] : List (UInt64 × UInt32)),
      512 ≤ call.1.toNat ∧ call.1.toNat < 2 ^ 63 :=
    List.forall_mem_cons.mpr ⟨hblock,
      List.forall_mem_cons.mpr ⟨hlarger, List.forall_mem_singleton.mpr hblock⟩⟩
  obtain ⟨returned, hrun, henumerated, -⟩ := hreads _ hcalls
  exact ⟨directory, pool', records, hcreate, hrecords, returned, hrun, henumerated⟩

/-- Read block by block, the second record has another inode number than in the buffer that the
directory had at first; for a byte count from 2 ^ 63 on nothing is returned. -/
theorem getdents_new_inode_numbers : ∃ directory pool' returned,
    NormalDirectory.create twoEntries 10 = some (directory, pool') ∧
    directory.reads twoEntries [(512, pool'), (512, pool')] = some returned ∧
    returned.flatten ≠ directory.direntCacheBin ∧
    (directory.getdents twoEntries pool' (2 ^ 63)).map GetdentsResult.buf = some [] := by
  have hrun : ((NormalDirectory.create twoEntries 10).bind fun made =>
      (made.1.reads twoEntries [(512, made.2), (512, made.2)]).map fun returned =>
        (decide (returned.flatten = made.1.direntCacheBin),
          (made.1.getdents twoEntries made.2 (2 ^ 63)).map GetdentsResult.buf)) = some (false,
            some []) := by
    decide +kernel
  obtain ⟨⟨directory, pool'⟩, hcreate, hrun⟩ := Option.bind_eq_some_iff.mp hrun
  obtain ⟨returned, hreads, hresult⟩ := Option.map_eq_some_iff.mp hrun
  rw [Prod.mk.injEq] at hresult
  exact ⟨directory, pool', returned, hcreate, hreads, of_decide_eq_false hresult.1, hresult.2⟩

end PS4Droid.FileSystem
