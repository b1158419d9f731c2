import PS4Droid.FileSystem.NormalDirectory
import PS4Droid.Foundations.BlockPacking

/-!
# The entries of a directory buffer

While the buffer is built, the last record has the length of its entry, and zeros follow it up to
the ceiling. It is stretched to the ceiling once it is known that the next record does not fit. So
the lengths are those of the records packed into blocks.
-/

namespace PS4Droid.FileSystem

open ByteStrings BoundedBuffers BlockPacking

/-! ### One entry -/

namespace DirectoryEntry

/-- The length of its record before it is stretched. -/
def reclen (entry : DirectoryEntry) : ℕ := alignUp (direntMetaSize + entry.leaf.length + 1) 4

/-- A name fits into a directory entry. -/
def Named (entry : DirectoryEntry) : Prop := 1 ≤ entry.leaf.length ∧ entry.leaf.length ≤ 255

variable {entry : DirectoryEntry}

theorem alignUp_four (n : ℕ) : n ≤ alignUp n 4 ∧ alignUp n 4 < n + 4 ∧ alignUp n 4 % 4 = 0 := by
  unfold alignUp
  split_ifs <;> omega

theorem Named.reclen_bounds (h : entry.Named) : 8 + entry.leaf.length + 1 ≤ entry.reclen ∧
    entry.reclen ≤ 264 := by
  have halign := alignUp_four (direntMetaSize + entry.leaf.length + 1)
  have hname := h.2
  rw [reclen]
  rw [direntMetaSize] at halign ⊢
  omega

theorem takeWhile_leaf (entry : DirectoryEntry) : entry.leaf.takeWhile (· ≠ 0) = entry.leaf := by
  rw [List.takeWhile_eq_self_iff]
  intro c hc
  exact decide_eq_true fun heq => entry.noZero (heq ▸ hc)

theorem Named.dirent_bytes (h : entry.Named) (fileno : UInt32) :
    (entry.dirent fileno).dReclen = entry.reclen ∧
    (entry.dirent fileno).bytes.take entry.reclen =
      (Dirent.mk fileno entry entry.reclen).bytes := by
  have hlen : (UInt8.ofNat entry.leaf.length).toNat = entry.leaf.length := by
    rw [UInt8.toNat_ofNat']
    exact Nat.mod_eq_of_lt (by have := h.2; omega)
  have hbounds := h.reclen_bounds
  have hreclen : (entry.dirent fileno).dReclen = entry.reclen := by
    rw [dirent, reclen]
    simp only [hlen]
  have hname : (entry.dirent fileno).dName = entry.leaf ++ List.replicate
    (256 - entry.leaf.length) 0 := by
    rw [dirent, strncpy]
    simp only [hlen, takeWhile_leaf]
    rw [List.take_of_length_le (Nat.le_succ _)]
  have htype : (entry.dirent fileno).dType = UInt8.ofNat (if entry.entIsFile then 8 else 4) := by
    rw [dirent]
    cases entry.entIsFile <;> rfl
  refine ⟨hreclen, ?_⟩
  rw [NormalDirectoryDirent.bytes, hreclen, hname, htype, Dirent.bytes, ← List.append_assoc]
  have hhead : (leBytes 4 fileno.toNat ++ leBytes 2 entry.reclen ++
      [UInt8.ofNat (if entry.entIsFile then 8 else 4), UInt8.ofNat entry.leaf.length] ++
        entry.leaf).length =
      8 + entry.leaf.length := by
    simp only [List.length_append, length_leBytes, List.length_cons, List.length_nil]
  change (leBytes 4 fileno.toNat ++ leBytes 2 entry.reclen ++
      [UInt8.ofNat (if entry.entIsFile then 8 else 4), UInt8.ofNat entry.leaf.length] ++
        entry.leaf ++
      List.replicate (256 - entry.leaf.length) 0).take entry.reclen = _
  rw [List.take_append, hhead, List.take_of_length_le (by omega), List.take_replicate,
    Nat.min_eq_left (by omega)]

end DirectoryEntry

/-! ### One record -/

namespace Dirent

variable {d : Dirent}

theorem length_bytes (h : 8 + d.entry.leaf.length ≤ d.reclen) : d.bytes.length = d.reclen := by
  simp only [bytes, List.length_append, length_leBytes, List.length_cons, List.length_nil,
    List.length_replicate]
  omega

theorem slice_reclen (before behind : List UInt8) (d : Dirent) :
    slice (before ++ d.bytes ++ behind) (before.length + 4) 2 = some (leBytes 2 d.reclen) := by
  refine slice_eq_some.mpr ⟨before ++ leBytes 4 d.fileno.toNat,
    [UInt8.ofNat (if d.entry.entIsFile then 8 else 4),
    UInt8.ofNat d.entry.leaf.length] ++ d.entry.leaf ++ List.replicate
      (d.reclen - (8 + d.entry.leaf.length)) 0 ++ behind,
    ?_, ?_, length_leBytes 2 _⟩
  · simp only [bytes, List.append_assoc]
  · rw [List.length_append, length_leBytes]

theorem getElem_namlen (before behind : List UInt8) (d : Dirent) :
    (before ++ d.bytes ++ behind)[before.length + 7]? = some (UInt8.ofNat d.entry.leaf.length) := by
  have hshape : before ++ d.bytes ++ behind =
    (before ++ leBytes 4 d.fileno.toNat ++ leBytes 2 d.reclen ++
      [UInt8.ofNat (if d.entry.entIsFile then 8 else 4)]) ++
      UInt8.ofNat d.entry.leaf.length ::
        (d.entry.leaf ++ List.replicate (d.reclen - (8 + d.entry.leaf.length)) 0 ++ behind) := by
    simp only [bytes, List.append_assoc, List.cons_append, List.nil_append]
  have hlength : before.length + 7 = (before ++ leBytes 4 d.fileno.toNat ++ leBytes 2 d.reclen ++
      [UInt8.ofNat (if d.entry.entIsFile then 8 else 4)]).length := by
    simp only [List.length_append, length_leBytes, List.length_singleton]
  rw [hshape, hlength, List.getElem?_append_right (Nat.le_refl _), Nat.sub_self,
    List.getElem?_cons_zero]

theorem addReclen_eq (before : List UInt8) (h : 8 + d.entry.leaf.length ≤ d.reclen)
    (hblock : d.reclen ≤ 512) (n : ℕ) :
    addReclen (before ++ d.bytes ++ List.replicate n 0) (before.length + 4) n =
      some (before ++ { d with reclen := d.reclen + n }.bytes) := by
  rw [addReclen]
  split_ifs with hzero
  · rw [hzero, List.replicate_zero, List.append_nil]
    rfl
  · have hshape : before ++ d.bytes ++ List.replicate n 0 = (before ++ leBytes 4 d.fileno.toNat) ++
      leBytes 2 d.reclen ++
        ([UInt8.ofNat (if d.entry.entIsFile then 8 else 4), UInt8.ofNat d.entry.leaf.length] ++
          d.entry.leaf ++ List.replicate (d.reclen + n - (8 + d.entry.leaf.length)) 0) := by
      rw [Nat.sub_add_comm h, List.replicate_add]
      simp only [bytes, List.append_assoc]
    have hoffset : before.length + 4 = (before ++ leBytes 4 d.fileno.toNat).length := by
      rw [List.length_append, length_leBytes]
    have hlength : (leBytes 2 (d.reclen + n)).length = (leBytes 2 d.reclen).length := by
      rw [length_leBytes, length_leBytes]
    rw [slice_reclen, Option.bind_some, leNat_leBytes_of_lt (by omega), hshape, hoffset,
      store_over hlength]
    simp only [bytes, List.append_assoc]

end Dirent

@[simp]
theorem bytesOf_nil : bytesOf [] = [] := rfl

@[simp]
theorem bytesOf_cons (d : Dirent) (records : List Dirent) :
    bytesOf (d :: records) = d.bytes ++ bytesOf records :=
  List.flatMap_cons

@[simp]
theorem bytesOf_append (records more : List Dirent) :
    bytesOf (records ++ more) = bytesOf records ++ bytesOf more :=
  List.flatMap_append

theorem length_bytesOf {records : List Dirent} (h : ∀ d ∈ records, d.Holds) :
    (bytesOf records).length = (records.map Dirent.reclen).sum := by
  induction records with
  | nil => rfl
  | cons d records ih =>
    have hname := (h d List.mem_cons_self).name
    rw [bytesOf_cons, List.length_append, Dirent.length_bytes (Nat.le_of_succ_le hname),
      ih (fun e he => h e (List.mem_cons_of_mem d he)), List.map_cons, List.sum_cons]

/-! ### The loop over the listing -/

section Loop

variable {layout : Layout} {done : List Dirent} {last : Dirent} {used : ℕ} {entry : DirectoryEntry}
  {listing : List DirectoryEntry}

/-- The buffer after at least one entry: `used` bytes of its last block stand in front of the last
record. -/
structure Filling (layout : Layout) (done : List Dirent) (last : Dirent) (used : ℕ) : Prop where
  bytes : layout.direntCacheBin =
    bytesOf done ++ last.bytes ++ List.replicate (layout.nextCeiling - layout.direntOffset) 0
  offset : layout.direntOffset = (bytesOf done).length + last.reclen
  reclenOffset : layout.lastReclenOffset = (bytesOf done).length + 4
  room : layout.direntOffset ≤ layout.nextCeiling
  used : (bytesOf done).length + 512 = layout.nextCeiling + used
  holds : last.Holds

theorem Filling.name (h : Filling layout done last used) :
    8 + last.entry.leaf.length ≤ last.reclen :=
  Nat.le_of_succ_le h.holds.name

theorem Filling.addReclen (h : Filling layout done last used) :
    FileSystem.addReclen layout.direntCacheBin layout.lastReclenOffset
      (layout.nextCeiling - layout.direntOffset) =
      some (bytesOf (done ++ [{ last with reclen := 512 - used }])) := by
  have hoffset := h.offset
  have hused := h.used
  have hroom := h.room
  have hreclen : last.reclen + (layout.nextCeiling - layout.direntOffset) = 512 - used := by omega
  rw [h.bytes, h.reclenOffset, Dirent.addReclen_eq _ h.name h.holds.block, hreclen, bytesOf_append,
    bytesOf_cons, bytesOf_nil, List.append_nil]

theorem Filling.stretched (h : Filling layout done last used) :
    Dirent.Holds { last with reclen := 512 - used } ∧
    (bytesOf (done ++ [{ last with reclen := 512 - used }])).length = layout.nextCeiling := by
  have hoffset := h.offset
  have hused := h.used
  have hroom := h.room
  have hname := h.holds.name
  have hle : last.reclen ≤ 512 - used := by omega
  refine ⟨⟨Nat.le_trans hname hle, Nat.sub_le 512 used⟩, ?_⟩
  rw [bytesOf_append, List.length_append, bytesOf_cons, bytesOf_nil, List.append_nil,
    @Dirent.length_bytes { last with reclen := 512 - used } (Nat.le_trans h.name hle)]
  simp only
  omega

variable {buffer : List UInt8}

theorem store_record {n : ℕ} (hname : entry.Named) (fileno : UInt32) (hroom : entry.reclen ≤ n) :
    store (buffer ++ List.replicate n 0) buffer.length (Dirent.mk fileno entry entry.reclen).bytes =
      some (buffer ++ (Dirent.mk fileno entry entry.reclen).bytes ++ List.replicate
        (n - entry.reclen) 0) := by
  have hlength : (Dirent.mk fileno entry entry.reclen).bytes.length =
    (List.replicate entry.reclen (0 : UInt8)).length := by
    rw [List.length_replicate]
    exact Dirent.length_bytes (Nat.le_of_succ_le hname.reclen_bounds.1)
  have hsplit : List.replicate n (0 : UInt8) = List.replicate entry.reclen 0 ++ List.replicate
    (n - entry.reclen) 0 := by
    rw [← List.replicate_add, Nat.add_sub_cancel' hroom]
  rw [hsplit, ← List.append_assoc, store_over hlength]

theorem named_holds (hname : entry.Named) (fileno : UInt32) :
    Dirent.Holds ⟨fileno, entry, entry.reclen⟩ := by
  have hbounds := hname.reclen_bounds
  exact ⟨hbounds.1, Nat.le_trans hbounds.2 (by decide)⟩

/-- The record of an entry is put behind the records that are done, in front of the ceiling. -/
theorem addEntry_put {next : Layout} (hname : entry.Named)
    (hnext : (if layout.nextCeiling < entry.reclen + layout.direntOffset then
      Layout.nextBlock { layout with filenoPool := layout.filenoPool + 1 }
      else some { layout with filenoPool := layout.filenoPool + 1 }) = some next)
    (hbuffer : next.direntCacheBin = bytesOf done ++ List.replicate
      (next.nextCeiling - next.direntOffset) 0)
    (hoffset : next.direntOffset = (bytesOf done).length)
      (hused : (bytesOf done).length + 512 = next.nextCeiling + used)
    (hroom : next.direntOffset + entry.reclen ≤ next.nextCeiling) :
      ∃ layout' new, layout.addEntry entry = some layout' ∧
      new.entry = entry ∧ new.reclen = entry.reclen ∧ Filling layout' done new used := by
  obtain ⟨hreclen, hbytes⟩ := hname.dirent_bytes (layout.filenoPool + 1)
  have hstore := @store_record entry (bytesOf done) (next.nextCeiling - next.direntOffset) hname
    (layout.filenoPool + 1)
    (by omega)
  rw [← hoffset, ← hbuffer] at hstore
  refine ⟨{ next with
    lastReclenOffset := next.direntOffset + 4
    direntOffset := next.direntOffset + entry.reclen
    direntCacheBin :=
      bytesOf done ++ (Dirent.mk (layout.filenoPool + 1) entry entry.reclen).bytes ++
      List.replicate (next.nextCeiling - next.direntOffset - entry.reclen) 0 },
    ⟨layout.filenoPool + 1, entry, entry.reclen⟩, ?_, rfl, rfl, ?_⟩
  · rw [Layout.addEntry]
    simp only [hreclen, hnext, Option.bind_some, hbytes, hstore, Option.map_some]
  · refine ⟨?_, ?_, ?_, hroom, hused, named_holds hname _⟩
    · simp only [Nat.sub_sub]
    · simp only [hoffset]
    · simp only [hoffset]

theorem Filling.addEntry_room (h : Filling layout done last used) (hname : entry.Named)
    (hroom : used + last.reclen + entry.reclen ≤ 512) :
    ∃ layout' new, layout.addEntry entry = some layout' ∧
      new.entry = entry ∧ new.reclen = entry.reclen ∧
        Filling layout' (done ++ [last]) new (used + last.reclen) := by
  have hoffset := h.offset
  have hused := h.used
  have hdone : (bytesOf (done ++ [last])).length = layout.direntOffset := by
    rw [bytesOf_append, List.length_append, bytesOf_cons, bytesOf_nil, List.append_nil,
      Dirent.length_bytes h.name, hoffset]
  refine addEntry_put hname (if_neg (by omega)) ?_ hdone.symm ?_ ?_
  · rw [h.bytes, bytesOf_append, bytesOf_cons, bytesOf_nil, List.append_nil]
  · rw [hdone]
    simp only
    omega
  · simp only
    omega

theorem nextBlock_eq (hreclen : addReclen layout.direntCacheBin layout.lastReclenOffset
    (layout.nextCeiling - layout.direntOffset) = some buffer)
      (hlength : buffer.length = layout.nextCeiling) :
    layout.nextBlock = some { layout with
      direntOffset := layout.nextCeiling
      nextCeiling := layout.nextCeiling + 512
      direntCacheBin := buffer ++ List.replicate 512 0 } := by
  have hresize : resize buffer (layout.nextCeiling + 512) = buffer ++ List.replicate 512 0 := by
    rw [resize, List.take_of_length_le (by omega), hlength, Nat.add_sub_cancel_left]
  have hfill : fill (buffer ++ List.replicate 512 0) layout.nextCeiling (layout.nextCeiling + 512) =
      buffer ++ List.replicate 512 0 := by
    rw [fill, List.take_left' hlength, Nat.add_sub_cancel_left, List.drop_of_length_le,
      List.append_nil]
    rw [List.length_append, List.length_replicate, hlength]
  rw [Layout.nextBlock, hreclen, Option.map_some, hresize, hfill]

theorem Filling.addEntry_full (h : Filling layout done last used) (hname : entry.Named)
    (hfull : ¬used + last.reclen + entry.reclen ≤ 512) :
    ∃ layout' new, layout.addEntry entry = some layout' ∧
      new.entry = entry ∧ new.reclen = entry.reclen ∧
      Filling layout' (done ++ [{ last with reclen := 512 - used }]) new 0 := by
  have hoffset := h.offset
  have hused := h.used
  have hlength := h.stretched.2
  have hbounds := hname.reclen_bounds
  have hblock :=
    @nextBlock_eq { layout with filenoPool := layout.filenoPool + 1 } _ h.addReclen hlength
  refine addEntry_put hname ((if_pos (by omega)).trans hblock) ?_ hlength.symm ?_ ?_
  · simp only [Nat.add_sub_cancel_left]
  · simp only [hlength, Nat.add_zero]
  · simp only
    omega

theorem addEntry_first (hname : entry.Named) (filenoPool : UInt32) : ∃ layout' new,
    Layout.addEntry { filenoPool } entry = some layout' ∧ new.entry = entry ∧
      new.reclen = entry.reclen ∧ Filling layout' [] new 0 := by
  have hbounds := hname.reclen_bounds
  have hblock := @nextBlock_eq { filenoPool := filenoPool + 1 } [] rfl rfl
  refine addEntry_put hname ((if_pos ?_).trans hblock) rfl rfl rfl ?_
  · simp only
    omega
  · simp only
    omega

/-- Along the listing: the records that follow have the lengths of a packing. -/
theorem Filling.addEntries (h : Filling layout done last used) (hdone : ∀ d ∈ done, d.Holds)
    (hnames : ∀ e ∈ listing, e.Named) : ∃ layout' done' last' used' rest,
      layout.addEntries listing = some layout' ∧
      Filling layout' done' last' used' ∧
        done' ++ [{ last' with reclen := 512 - used' }] = done ++ rest ∧
      rest.map Dirent.entry = last.entry :: listing ∧
      rest.map Dirent.reclen = packed 512 used (last.reclen :: listing.map DirectoryEntry.reclen) ∧
        ∀ d ∈ rest, d.Holds := by
  induction listing generalizing layout done last used with
  | nil =>
    refine ⟨layout, done, last, used, [{ last with reclen := 512 - used }], rfl, h, rfl, rfl, rfl,
      ?_⟩
    intro d hd
    rw [List.mem_singleton.mp hd]
    exact h.stretched.1
  | cons entry listing ih =>
    have hname := hnames entry List.mem_cons_self
    have hlisting : ∀ e ∈ listing, e.Named := fun e he => hnames e (List.mem_cons_of_mem entry he)
    by_cases hroom : used + last.reclen + entry.reclen ≤ 512
    · obtain ⟨layout', new, hadd, hentry, hreclen, hfilling⟩ := h.addEntry_room hname hroom
      have hdone' : ∀ d ∈ done ++ [last], d.Holds := by
        intro d hd
        obtain hd | hd := List.mem_append.mp hd
        · exact hdone d hd
        · rw [List.mem_singleton.mp hd]
          exact h.holds
      obtain ⟨layout'', done', last', used', rest, hrun, hend, hsplit, hentries, hreclens,
        hholds⟩ :=
        ih hfilling hdone' hlisting
      refine ⟨layout'', done', last', used', last :: rest, ?_, hend, ?_, ?_, ?_, ?_⟩
      · rw [Layout.addEntries, hadd, Option.bind_some, hrun]
      · rw [hsplit, List.append_assoc, List.singleton_append]
      · rw [List.map_cons, hentries, hentry]
      · rw [List.map_cons, hreclens, hreclen, List.map_cons, packed, if_pos hroom]
      · exact List.forall_mem_cons.mpr ⟨h.holds, hholds⟩
    · obtain ⟨layout', new, hadd, hentry, hreclen, hfilling⟩ := h.addEntry_full hname hroom
      have hdone' : ∀ d ∈ done ++ [{ last with reclen := 512 - used }], d.Holds := by
        intro d hd
        obtain hd | hd := List.mem_append.mp hd
        · exact hdone d hd
        · rw [List.mem_singleton.mp hd]
          exact h.stretched.1
      obtain ⟨layout'', done', last', used', rest, hrun, hend, hsplit, hentries, hreclens,
        hholds⟩ :=
        ih hfilling hdone' hlisting
      refine ⟨layout'', done', last', used', { last with reclen := 512 - used } :: rest, ?_,
        hend, ?_, ?_, ?_, ?_⟩
      · rw [Layout.addEntries, hadd, Option.bind_some, hrun]
      · rw [hsplit, List.append_assoc, List.singleton_append]
      · rw [List.map_cons, hentries, hentry]
      · rw [List.map_cons, hreclens, hreclen, List.map_cons, packed, if_neg hroom]
      · exact List.forall_mem_cons.mpr ⟨h.stretched.1, hholds⟩

end Loop

/-! ### The whole buffer -/

section Rebuild

variable {listing : List DirectoryEntry} {directory : NormalDirectory} {records : List Dirent}

/-- The entries of a listing with the lengths of their records. -/
def shapesOf (listing : List DirectoryEntry) : List (DirectoryEntry × ℕ) :=
  listing.zip (packed 512 0 (listing.map DirectoryEntry.reclen))

theorem fits_listing (hnames : ∀ e ∈ listing, e.Named) :
    Fits 512 0 (listing.map DirectoryEntry.reclen) := by
  have hsize : ∀ n ∈ listing.map DirectoryEntry.reclen, 0 < n ∧ n ≤ 512 := by
    intro n hn
    obtain ⟨e, he, rfl⟩ := List.mem_map.mp hn
    have hbounds := (hnames e he).reclen_bounds
    omega
  refine ⟨hsize, fun n hn => ?_⟩
  rw [Nat.zero_add]
  exact (hsize n (List.mem_of_mem_head? hn)).2

theorem records_of_packed (hnames : ∀ e ∈ listing, e.Named) (hne : listing ≠ [])
    (hbytes : directory.direntCacheBin = bytesOf records)
    (hsize : directory.directorySize = (bytesOf records).length)
    (hentries : records.map Dirent.entry = listing)
    (hreclens : records.map Dirent.reclen = packed 512 0 (listing.map DirectoryEntry.reclen))
    (hholds : ∀ d ∈ records, d.Holds) :
    Records listing directory records ∧ records.map Dirent.shape = shapesOf listing := by
  have hfits := fits_listing hnames
  have hne' : listing.map DirectoryEntry.reclen ≠ [] := by rwa [Ne, List.map_eq_nil_iff]
  have hsum := hsize.trans (length_bytesOf hholds)
  refine ⟨⟨hbytes, hentries, hholds, hsum, ?_, ?_⟩, ?_⟩
  · rw [hsum, hreclens]
    have hdvd := dvd_sum_packed hfits hne'
    rwa [Nat.zero_add] at hdvd
  · intro before d after hsplit
    have hbefore : ∀ e ∈ before, e.Holds :=
      fun e he => hholds e (hsplit ▸ List.mem_append_left _ he)
    rw [hsplit, List.map_append, List.map_cons] at hreclens
    have hwithin := packed_within hfits hreclens.symm
    rwa [Nat.zero_add, ← length_bytesOf hbefore] at hwithin
  · have hzip : (records.map Dirent.entry).zip (records.map Dirent.reclen) =
      records.map Dirent.shape := List.zip_map'
    rw [hentries, hreclens] at hzip
    exact hzip.symm

theorem rebuildDirents_eq (hnames : ∀ e ∈ listing, e.Named) (filenoPool : UInt32)
    (hmoved : directory.previousFileOffset ≠ directory.fileOffset) : ∃ directory' pool' records,
      directory.rebuildDirents listing filenoPool = some (directory', pool') ∧
      directory'.fileOffset = directory.fileOffset ∧
        directory'.previousFileOffset = directory.fileOffset ∧
      Records listing directory' records ∧ records.map Dirent.shape = shapesOf listing := by
  rw [NormalDirectory.rebuildDirents, if_neg hmoved]
  cases listing with
  | nil => exact ⟨_, _, [], rfl, rfl, rfl,
      ⟨rfl, rfl, nofun, rfl, Nat.dvd_zero _, fun before _ _ h => by cases before <;> cases h⟩, rfl⟩
  | cons entry listing =>
    obtain ⟨hname, hlisting⟩ := List.forall_mem_cons.mp hnames
    obtain ⟨layout, new, hadd, hentry, hreclen, hfilling⟩ := addEntry_first hname filenoPool
    obtain ⟨layout', done, last, used, records, hrun, hend, hsplit, hentries, hreclens, hholds⟩ :=
      hfilling.addEntries nofun hlisting
    rw [List.nil_append] at hsplit
    rw [Layout.addEntries, hadd, Option.bind_some, hrun, Option.bind_some, hend.addReclen, hsplit,
      Option.map_some]
    refine ⟨_, _, records, rfl, rfl, rfl,
      records_of_packed hnames (List.cons_ne_nil _ _) rfl ?_ ?_ ?_ hholds⟩
    · rw [← hsplit]
      exact hend.stretched.2.symm
    · rw [hentries, hentry]
    · rw [hreclens, hreclen, List.map_cons]

end Rebuild

end PS4Droid.FileSystem
