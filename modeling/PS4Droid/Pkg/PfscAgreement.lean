import PS4Droid.Pkg.PfscSectors

/-!
# When the two paths give the same bytes

Every byte of the image means one thing under a threshold: its plain value below it, its decryption
above. The cache holds this under the threshold that located the header, except behind its last
whole sector, where nothing was ever decrypted. The window holds it under the default threshold, for
the package cut off at its end.
-/

namespace PS4Droid.Pkg

/-- What the byte at `p` of the image means. -/
def clearByte (aes : Aes) (keys : PfsKeys) (image : ℕ → UInt8) (cryptStartSector p : ℕ) : UInt8 :=
  if p / 0x1000 < cryptStartSector then image p else decryptedByte aes keys image (p / 0x1000) p

/-- The PFS image in the file. -/
def imageByte (file : PkgFile) (hdr : PkgHeader) : ℕ → UInt8 :=
  file.bytesAt hdr.pfsImageOffset.toNat

/-- The PFS image with zeros behind the end of the package. -/
def packagedByte (file : PkgFile) (hdr : PkgHeader) (p : ℕ) : UInt8 :=
  if hdr.pfsImageOffset.toNat + p < hdr.pkgSize.toNat then imageByte file hdr p else 0

namespace PkgHeader

/-- The end of the sectors that are decrypted at first. -/
def wholeSectors (hdr : PkgHeader) : ℕ := hdr.prefixLength / 0x1000 * 0x1000

theorem prefixLength_lt (hdr : PkgHeader) : hdr.prefixLength < 2 ^ 32 := by
  unfold prefixLength
  have hwrap : hdr.pfsCacheSize.toNat * 2 % 2 ^ 32 < 2 ^ 32 := Nat.mod_lt _ (by decide)
  dsimp only
  split_ifs <;> omega

end PkgHeader

/-- The decrypted prefix: what its whole sectors mean, and what the buffer held behind them. -/
theorem decryptPFS_front {aes : Aes} {keys : PfsKeys} {image : ℕ → UInt8} (hdr : PkgHeader)
    (cryptStartSector : ℕ) (buffer : ℕ → UInt8) (p : ℕ) :
    decryptPFS aes keys image hdr.prefixLength buffer 0 cryptStartSector p =
      if p < hdr.wholeSectors then clearByte aes keys image cryptStartSector p else buffer p := by
  have hlength := hdr.prefixLength_lt
  rw [decryptPFS_apply, PkgHeader.wholeSectors]
  by_cases hwhole : p < hdr.prefixLength / 0x1000 * 0x1000
  · rw [if_pos hwhole, if_pos hwhole, add64_eq (by omega), Nat.zero_add, clearByte]
  · rw [if_neg hwhole, if_neg hwhole]

section Location

variable {crypto : Crypto} {file : PkgFile} {hdr : PkgHeader} {st : Located}

/-- What the search for the header leaves. -/
structure Located.Holds (st : Located) (aes : Aes) (file : PkgFile) (hdr : PkgHeader) : Prop where
  threshold : st.cryptStartSector = 0 ∨ st.cryptStartSector = cryptStart
  size : st.pfscOffset + st.pfscSize = hdr.prefixLength
  bytes : ∀ i, st.pfsc i =
    if st.pfscOffset + i < hdr.wholeSectors then
      clearByte aes st.keys (imageByte file hdr) st.cryptStartSector (st.pfscOffset + i)
    else 0

/-- Every pass decrypts the same sectors, so that the bytes behind them stay zero. -/
theorem locate_holds {seed : Block} {passes : List (Bool × ℕ)}
    (hpasses : ∀ pass ∈ passes, pass.2 = 0 ∨ pass.2 = cryptStart) {buffer : ℕ → UInt8}
    (hbuffer : ∀ p, ¬ p < hdr.wholeSectors → buffer p = 0)
    (h : locate crypto seed (imageByte file hdr) hdr.prefixLength passes buffer = some (some st)) :
    st.Holds crypto.toAes file hdr := by
  induction passes generalizing buffer with
  | nil => simp [locate] at h
  | cons pass passes ih =>
    obtain ⟨useNewCrypt, cryptStartSector⟩ := pass
    simp only [locate] at h
    have hlater := fun pass hpass => hpasses pass (List.mem_cons_of_mem _ hpass)
    have hkept : ∀ p, ¬ p < hdr.wholeSectors →
        decryptPFS crypto.toAes (crypto.pfsGenCryptoKey seed useNewCrypt)
          (imageByte file hdr) hdr.prefixLength
          buffer 0 cryptStartSector p = 0 := by
      intro p hp
      rw [decryptPFS_front, if_neg hp, hbuffer p hp]
    split at h
    · simp at h
    · exact ih hlater hkept h
    · split_ifs at h with hin
      · simp only [Option.some.injEq] at h
        subst h
        refine ⟨hpasses _ (List.mem_cons_self ..), Nat.add_sub_cancel' hin.le, fun i => ?_⟩
        dsimp only
        split_ifs with hwhole
        · rw [decryptPFS_front, if_pos hwhole]
        · exact hkept _ hwhole
      · exact ih hlater hkept h

theorem openPfsc_holds (h : openPfsc crypto file hdr = some (.ok st)) :
    st.Holds crypto.toAes file hdr := by
  unfold openPfsc at h
  dsimp only at h
  split_ifs at h
  · simp at h
  · simp at h
  split at h
  · simp at h
  · simp at h
  · rename_i located hlocate
    split_ifs at h
    · simp at h
    simp only [Option.some.injEq, Except.ok.injEq] at h
    subst h
    refine locate_holds (fun pass hpass => ?_) (fun _ _ => rfl) hlocate
    simp only [List.mem_cons, List.not_mem_nil, or_false] at hpass
    rcases hpass with rfl | rfl | rfl
    · exact .inr rfl
    · exact .inr rfl
    · exact .inl rfl

end Location

/-- The range lies inside the decrypted prefix and inside the package, and is as long as a sector
may be. -/
structure Range (hdr : PkgHeader) (st : Located) (sectorOffset sectorSize : ℕ) : Prop where
  pos : 0 < sectorSize
  size : sectorSize ≤ 0x10000
  cached : sectorOffset + sectorSize ≤ st.pfscSize
  packaged : hdr.pfsImageOffset.toNat + st.pfscOffset + sectorOffset + sectorSize ≤
    hdr.pkgSize.toNat

/-- The file has the bytes of the window that its header promises. -/
def WindowReadable (file : PkgFile) (hdr : PkgHeader) (st : Located) (sectorOffset : ℕ) : Prop :=
  windowReadOffset hdr st sectorOffset + windowToRead hdr st sectorOffset ≤ file.size

section Window

variable {crypto : Crypto} {file : PkgFile} {hdr : PkgHeader} {st : Located}
  {sectorOffset sectorSize : ℕ}

/-- No sum of the window wraps. -/
structure WindowPlaces (hdr : PkgHeader) (st : Located) (sectorOffset : ℕ) : Prop where
  sector : add64 st.pfscOffset sectorOffset = st.pfscOffset + sectorOffset
  start : windowStart st sectorOffset + windowPreviousData st sectorOffset =
    st.pfscOffset + sectorOffset
  previous : windowPreviousData st sectorOffset < 0x1000
  aligned : windowStart st sectorOffset % 0x1000 = 0
  readOffset : windowReadOffset hdr st sectorOffset =
    hdr.pfsImageOffset.toNat + windowStart st sectorOffset

theorem Range.places (hrange : Range hdr st sectorOffset sectorSize) :
    WindowPlaces hdr st sectorOffset := by
  have hpkg : hdr.pkgSize.toNat < 2 ^ 64 := hdr.pkgSize.toNat_lt
  have hpackaged := hrange.packaged
  have hsum : add64 sectorOffset st.pfscOffset = st.pfscOffset + sectorOffset := by
    rw [add64_eq (by omega), Nat.add_comm]
  have hstart : windowStart st sectorOffset + windowPreviousData st sectorOffset =
      st.pfscOffset + sectorOffset := by
    rw [windowStart, windowPreviousData, hsum]
    omega
  have hprevious : windowPreviousData st sectorOffset < 0x1000 := Nat.mod_lt _ (by decide)
  refine ⟨add64_eq (by omega), hstart, hprevious, Nat.mul_mod_left _ _, ?_⟩
  rw [windowReadOffset, add64_eq (a := hdr.pfsImageOffset.toNat) (by omega), add64_eq (by omega),
    sub64_eq (by omega) (by omega)]
  omega

theorem Range.inside (hrange : Range hdr st sectorOffset sectorSize) :
    windowPreviousData st sectorOffset + sectorSize ≤ kWindow := by
  have := hrange.places.previous
  have := hrange.size
  unfold kWindow
  omega

/-- A range in the package has a byte in the window, so that something has to be read. -/
theorem Range.toRead_ne_zero (hrange : Range hdr st sectorOffset sectorSize) :
    windowToRead hdr st sectorOffset ≠ 0 := by
  have hplaces := hrange.places
  have hin : windowReadOffset hdr st sectorOffset < hdr.pkgSize.toNat := by
    have := hplaces.start
    have := hplaces.readOffset
    have := hrange.pos
    have := hrange.packaged
    omega
  have hwindow : 0 < kWindow := by decide
  unfold windowToRead
  dsimp only
  rw [if_pos hin]
  omega

theorem Range.unread (hrange : Range hdr st sectorOffset sectorSize)
    (hunread : ¬ WindowReadable file hdr st sectorOffset) :
    streamedSector crypto file hdr st sectorOffset sectorSize =
      .error "PFS metadata sector read failed" := by
  have hshort : preadAll file (windowToRead hdr st sectorOffset)
    (windowReadOffset hdr st sectorOffset) = false := by
    simp only [preadAll, Bool.or_eq_false_iff, decide_eq_false_iff_not]
    exact ⟨hrange.toRead_ne_zero, hunread⟩
  rw [streamedSector, hshort]
  exact if_pos rfl

/-- Byte by byte, the window gives the meaning of the package under the default threshold. -/
theorem Range.streamed (hrange : Range hdr st sectorOffset sectorSize)
    (hreadable : WindowReadable file hdr st sectorOffset) :
    streamedSector crypto file hdr st sectorOffset sectorSize =
      .ok (slice (clearByte crypto.toAes st.keys (packagedByte file hdr) cryptStart)
        (st.pfscOffset + sectorOffset) sectorSize) := by
  have hplaces := hrange.places
  have hinside := hrange.inside
  have hpkg : hdr.pkgSize.toNat < 2 ^ 64 := hdr.pkgSize.toNat_lt
  have hpackaged := hrange.packaged
  have hstart := hplaces.start
  have hprevious := hplaces.previous
  have haligned := hplaces.aligned
  have hwindow : ∀ y < kWindow, (if y < windowToRead hdr st sectorOffset then
        file.bytesAt (windowReadOffset hdr st sectorOffset) y else 0) =
        packagedByte file hdr (windowStart st sectorOffset + y) := by
    intro y hy
    have hread : y < windowToRead hdr st sectorOffset ↔
        hdr.pfsImageOffset.toNat + (windowStart st sectorOffset + y) < hdr.pkgSize.toNat := by
      unfold windowToRead
      dsimp only
      rw [hplaces.readOffset]
      split_ifs <;> omega
    rw [packagedByte, imageByte, hplaces.readOffset]
    simp only [PkgFile.bytesAt, Nat.add_assoc]
    exact if_congr hread rfl rfl
  have hfull : preadAll file (windowToRead hdr st sectorOffset)
    (windowReadOffset hdr st sectorOffset) = true := by
    simp only [preadAll, Bool.or_eq_true, decide_eq_true_eq]
    exact .inr hreadable
  rw [streamedSector, hfull, if_neg (by simp), if_neg (Nat.not_lt.mpr hinside)]
  congr 1
  refine List.map_congr_left fun k hk => ?_
  have hk := List.mem_range.mp hk
  have hsector : add64 ((st.pfscOffset + sectorOffset) / 0x1000)
      ((windowPreviousData st sectorOffset + k) / 0x1000) =
        (st.pfscOffset + sectorOffset + k) / 0x1000 := by
    rw [add64_eq (by omega)]
    omega
  have hplace : windowStart st sectorOffset + (windowPreviousData st sectorOffset + k) =
      st.pfscOffset + sectorOffset + k := by omega
  have hin : windowPreviousData st sectorOffset + k < kWindow / 0x1000 * 0x1000 := by
    have hwhole : kWindow / 0x1000 * 0x1000 = kWindow := rfl
    omega
  rw [decryptedWindow, decryptPFS_apply, if_pos hin, hplaces.sector, hsector, clearByte]
  by_cases hplain : (st.pfscOffset + sectorOffset + k) / 0x1000 < cryptStart
  · rw [if_pos hplain, if_pos hplain, ← hplace]
    exact hwindow _ hin
  · rw [if_neg hplain, if_neg hplain]
    refine decryptedByte_congr (fun j hj => ?_) (by omega)
    have hblock :
      windowStart st sectorOffset + ((windowPreviousData st sectorOffset + k) / 16 * 16 + j) =
        (st.pfscOffset + sectorOffset + k) / 16 * 16 + j := by omega
    have hend : (windowPreviousData st sectorOffset + k) / 16 * 16 + j < kWindow := by
      unfold kWindow at hin ⊢
      omega
    rw [← hblock]
    exact hwindow _ hend

end Window

/-- The byte at `p` of the image means the same for the cache and for the window where one of them
goes astray: behind the last whole sector of the prefix, below the default threshold if the header
was found without one, and in a block that the end of the package cuts. -/
structure Coincides (aes : Aes) (file : PkgFile) (hdr : PkgHeader) (st : Located) (p : ℕ) :
    Prop where
  tail : hdr.wholeSectors ≤ p → clearByte aes st.keys (packagedByte file hdr) cryptStart p = 0
  threshold : p < hdr.wholeSectors → p / 0x1000 < cryptStart → st.cryptStartSector = 0 →
    decryptedByte aes st.keys (imageByte file hdr) (p / 0x1000) p = imageByte file hdr p
  cut : p < hdr.wholeSectors → cryptStart ≤ p / 0x1000 →
    hdr.pkgSize.toNat < hdr.pfsImageOffset.toNat + (p / 16 * 16 + 16) →
      decryptedByte aes st.keys (packagedByte file hdr) (p / 0x1000) p =
        decryptedByte aes st.keys (imageByte file hdr) (p / 0x1000) p

section Agreement

variable {crypto : Crypto} {file : PkgFile} {hdr : PkgHeader} {st : Located}
  {sectorOffset sectorSize : ℕ}

theorem packagedByte_of_lt {p : ℕ} (hp : hdr.pfsImageOffset.toNat + p < hdr.pkgSize.toNat) :
    packagedByte file hdr p = imageByte file hdr p := if_pos hp

theorem same_iff (hholds : st.Holds crypto.toAes file hdr) {i : ℕ}
    (hp : hdr.pfsImageOffset.toNat + (st.pfscOffset + i) < hdr.pkgSize.toNat) :
    clearByte crypto.toAes st.keys (packagedByte file hdr) cryptStart (st.pfscOffset + i) =
      st.pfsc i ↔ Coincides crypto.toAes file hdr st (st.pfscOffset + i) := by
  rw [hholds.bytes]
  generalize st.pfscOffset + i = p at hp ⊢
  by_cases hwhole : p < hdr.wholeSectors
  · rw [if_pos hwhole]
    by_cases hplain : p / 0x1000 < cryptStart
    · have hdefault : clearByte crypto.toAes st.keys (packagedByte file hdr) cryptStart p =
        imageByte file hdr p := by
        rw [clearByte, if_pos hplain, packagedByte_of_lt hp]
      rw [hdefault, clearByte]
      rcases hholds.threshold with hzero | hsixteen
      · rw [hzero, if_neg (Nat.not_lt_zero _)]
        exact ⟨fun h => ⟨fun h' => absurd hwhole (by omega), fun _ _ _ => h.symm,
          fun _ h' => by omega⟩, fun h => (h.threshold hwhole hplain hzero).symm⟩
      · rw [hsixteen, if_pos hplain]
        exact iff_of_true rfl ⟨fun h' => absurd hwhole (by omega),
          fun _ _ h' => absurd (hsixteen.symm.trans h') (by decide), fun _ h' => by omega⟩
    · have hcrypt : ¬ p / 0x1000 < st.cryptStartSector := by
        rcases hholds.threshold with hzero | hsixteen
        · omega
        · rwa [hsixteen]
      rw [clearByte, if_neg hplain, clearByte, if_neg hcrypt]
      refine ⟨fun h => ⟨fun h' => absurd hwhole (by omega), fun _ h' => absurd h' hplain,
        fun _ _ _ => h⟩, fun h => ?_⟩
      by_cases hcut : hdr.pkgSize.toNat < hdr.pfsImageOffset.toNat + (p / 16 * 16 + 16)
      · exact h.cut hwhole (Nat.not_lt.mp hplain) hcut
      · exact decryptedByte_congr (fun k hk => packagedByte_of_lt (by omega)) rfl
  · rw [if_neg hwhole]
    exact ⟨fun h => ⟨fun _ => h, fun h' => absurd h' hwhole, fun h' => absurd h' hwhole⟩,
      fun h => h.tail (Nat.not_lt.mp hwhole)⟩

/-- What the two paths promise for a range: the same bytes, a window that contains the range, and
the decryption of a slice as the slice of the decryption. -/
structure PathsAgree (crypto : Crypto) (file : PkgFile) (hdr : PkgHeader) (st : Located)
    (sectorOffset sectorSize : ℕ) : Prop where
  same : streamedSector crypto file hdr st sectorOffset sectorSize =
    .ok (cachedSector st sectorOffset sectorSize)
  inside : windowPreviousData st sectorOffset + sectorSize ≤ kWindow
  sliced : ∀ (keys : PfsKeys) (image dst dst' : ℕ → UInt8)
    (first size whole cryptStartSector y : ℕ),
    first + size / 0x1000 < 2 ^ 64 → first * 0x1000 + size ≤ whole → y < size / 0x1000 * 0x1000 →
    decryptPFS crypto.toAes keys
      (fun i => image (first * 0x1000 + i)) size dst first cryptStartSector y =
      decryptPFS crypto.toAes keys image whole dst' 0 cryptStartSector (first * 0x1000 + y)

/-- The cached and the streamed bytes of a range agree exactly when the window can be read and every
byte at one of the three places where the paths differ is the same by chance. -/
theorem pathsAgree_iff (hlocated : openPfsc crypto file hdr = some (.ok st))
    (hrange : Range hdr st sectorOffset sectorSize) :
    PathsAgree crypto file hdr st sectorOffset sectorSize ↔
      WindowReadable file hdr st sectorOffset ∧
        ∀ i < sectorSize,
          Coincides crypto.toAes file hdr st (st.pfscOffset + (sectorOffset + i)) := by
  have hholds := openPfsc_holds hlocated
  have hpackaged := hrange.packaged
  have hbytes : slice (clearByte crypto.toAes st.keys (packagedByte file hdr) cryptStart)
        (st.pfscOffset + sectorOffset) sectorSize = cachedSector st sectorOffset sectorSize ↔
      ∀ i < sectorSize,
        Coincides crypto.toAes file hdr st (st.pfscOffset + (sectorOffset + i)) := by
    rw [slice, cachedSector, slice, List.map_inj_left]
    simp only [List.mem_range]
    refine forall₂_congr fun i hi => ?_
    rw [Nat.add_assoc]
    exact same_iff hholds (by omega)
  constructor
  · intro h
    by_cases hreadable : WindowReadable file hdr st sectorOffset
    · refine ⟨hreadable, hbytes.mp ?_⟩
      have hsame := h.same
      rw [hrange.streamed hreadable] at hsame
      exact Except.ok.inj hsame
    · have hsame := h.same
      rw [hrange.unread hreadable] at hsame
      simp at hsame
  · rintro ⟨hreadable, hcoincides⟩
    refine ⟨?_, hrange.inside,
      fun keys image dst dst' first size whole cryptStartSector y hfirst hwhole hy =>
      decryptPFS_slice first size hfirst whole hwhole dst dst' cryptStartSector hy⟩
    rw [hrange.streamed hreadable, hbytes.mpr hcoincides]

end Agreement

section Sample

def sampleKeys : PfsKeys := ⟨fun _ => 1, fun _ => 1⟩

/-- The cipher takes no part: every sector below the sixteenth is plain. -/
def sampleCrypto : Crypto where
  encrypt := fun key block k => block k + key k
  decrypt := fun key block k => block k - key k
  pfsGenCryptoKey := fun _ _ => sampleKeys

/-- The image is a sector and a half long. -/
def sampleHeader : PkgHeader where
  pkgSize := 0x2000
  pfsImageOffset := 0
  pfsImageSize := 0x1800
  pfsImageFlags := 0
  pfsCacheSize := 0

def samplePackage : PkgFile where
  bytes := fun i => if i = 0 then 0x50 else if i = 1 then 0x46 else if i = 2 then 0x53
    else if i = 3 then 0x43 else 1
  size := 0x2000
  size_lt := by decide

def sampleLocated : Located where
  keys := sampleKeys
  cryptStartSector := cryptStart
  pfscOffset := 0
  pfsc := fun i => decryptPFS sampleCrypto.toAes sampleKeys (samplePackage.bytesAt 0) 0x1800
    (fun _ => 0) 0 cryptStart (0 + i)
  pfscSize := 0x1800

theorem sampleLocated_eq :
    openPfsc sampleCrypto samplePackage sampleHeader = some (.ok sampleLocated) := by
  have hlength : sampleHeader.prefixLength = 0x1800 := by decide +kernel
  have hscan :
    getPFSCOffset (decryptPFS sampleCrypto.toAes sampleKeys (samplePackage.bytesAt 0) 0x1800
      (fun _ => 0) 0 cryptStart) 0x1800 = some (some 0) := by decide +kernel
  have hoffset : sampleHeader.pfsImageOffset.toNat = 0 := rfl
  have hkeys : ∀ seed useNewCrypt, sampleCrypto.pfsGenCryptoKey seed useNewCrypt = sampleKeys :=
    fun _ _ => rfl
  unfold openPfsc locate
  simp only [hlength, hoffset, hkeys, hscan]
  rfl

/-- The cached prefix is zero behind its first sector, where the package has data. -/
theorem paths_differ : ¬ ∀ (crypto : Crypto) (file : PkgFile) (hdr : PkgHeader) (st : Located)
    (sectorOffset sectorSize : ℕ), openPfsc crypto file hdr = some (.ok st) →
    Range hdr st sectorOffset sectorSize →
      PathsAgree crypto file hdr st sectorOffset sectorSize := by
  intro h
  have hrange : Range sampleHeader sampleLocated 0x1000 1 :=
    ⟨by decide, by decide, by decide, by decide⟩
  have hsame := (h _ _ _ _ 0x1000 1 sampleLocated_eq hrange).same
  have hstreamed : streamedSector sampleCrypto samplePackage sampleHeader sampleLocated 0x1000 1 =
    .ok [1] := by
    decide +kernel
  have hcached : cachedSector sampleLocated 0x1000 1 = [0] := by decide +kernel
  rw [hstreamed, hcached] at hsame
  simp at hsame

/-- In the first sector the paths agree. -/
theorem pathsAgree_first :
    PathsAgree sampleCrypto samplePackage sampleHeader sampleLocated 0 4 := by
  refine (pathsAgree_iff sampleLocated_eq ⟨by decide, by decide, by decide, by decide⟩).mpr
    ⟨by unfold WindowReadable; decide +kernel, fun i hi => ?_⟩
  have hplace : sampleLocated.pfscOffset + (0 + i) = i := by simp [sampleLocated]
  have hwhole : sampleHeader.wholeSectors = 0x1000 := by decide +kernel
  rw [hplace]
  exact ⟨fun h => by omega, fun _ _ h => absurd h (by decide),
    fun _ h => absurd h (by unfold cryptStart; omega)⟩

end Sample

end PS4Droid.Pkg
