import Mathlib.Data.UInt
import PS4Droid.Foundations.Scatter
import PS4Droid.Foundations.Words

/-!
# Cached and streamed PFSC sectors

`build_fs_table` of `pkg_extractor.cpp` decrypts a prefix of the PFS image, looks for the PFSC
header in it and keeps the bytes from there on. `load_pfsc_sector` copies a sector from these bytes
where it lies in them, and otherwise reads and decrypts a window of the package. The cached bytes
are decrypted with the threshold under which the header was found, the window always with the
default one.
-/

namespace PS4Droid.Pkg

/-!
### Decryption

`Crypto::decryptPFS` of `pkg_crypto.cpp`: whole sectors of 0x1000 bytes, each with a tweak that
comes from its number and is doubled from block to block. The two operations on blocks are those of
AES-128. A byte of the result depends on its sector, its place in the sector and the block it lies
in.
-/

/-- Sixteen bytes. -/
abbrev Block := Fin 16 → UInt8

/-- AES-128 on one block, with the key in front. -/
structure Aes where
  encrypt : Block → Block → Block
  decrypt : Block → Block → Block

structure PfsKeys where
  dataKey : Block
  tweakKey : Block

/-- The sector number as a little-endian `u64`, filled up with zeros. -/
def sectorTweak (sector : ℕ) : Block := fun k =>
  if k.val < 8 then UInt8.ofNat (sector / 256 ^ k.val) else 0

/-- The multiplication by two in GF(2^128): every byte takes the top bit of the one before. -/
def doubled (tweak : Block) : Block := fun k =>
  if k = 0 then
    if tweak 15 >>> 7 ≠ 0 then (tweak 0 <<< 1) ^^^ 0x87 else tweak 0 <<< 1
  else (tweak k <<< 1) ||| (tweak (k - 1) >>> 7)

def Block.at (block : Block) (i : ℕ) : UInt8 := block (Fin.ofNat 16 i)

/-- The block of the image at `pos`, decrypted under a tweak. -/
def decryptBlock (aes : Aes) (keys : PfsKeys) (src : ℕ → UInt8) (pos : ℕ) (tweak : Block) : Block :=
  fun k => aes.decrypt keys.dataKey (fun j => src (pos + j.val) ^^^ tweak j) k ^^^ tweak k

/-- `for (int off = 0; off < 0x1000; off += 16)`. -/
def decryptBlocks (aes : Aes) (keys : PfsKeys) (src : ℕ → UInt8) :
    ℕ → ℕ → Block → (ℕ → UInt8) → ℕ → UInt8
  | 0, _, _, dst => dst
  | blocks + 1, pos, tweak, dst =>
    decryptBlocks aes keys src blocks (pos + 16) (doubled tweak)
      (copyAt dst pos 16 (decryptBlock aes keys src pos tweak).at)

/-- The loop over whole sectors from the byte `i` on. -/
def decryptSectors (aes : Aes) (keys : PfsKeys) (src : ℕ → UInt8) (sector cryptStartSector : ℕ) :
    ℕ → ℕ → (ℕ → UInt8) → ℕ → UInt8
  | 0, _, dst => dst
  | sectors + 1, i, dst =>
    let currentSector := add64 sector (i / 0x1000)
    let dst :=
      if currentSector < cryptStartSector then copyAt dst i 0x1000 fun k => src (i + k)
      else
        decryptBlocks aes keys src (0x1000 / 16) i
          (aes.encrypt keys.tweakKey (sectorTweak currentSector)) dst
    decryptSectors aes keys src sector cryptStartSector sectors (i + 0x1000) dst

/-- Source and destination have `size` bytes; bytes behind the last whole sector are left as they
are. -/
def decryptPFS (aes : Aes) (keys : PfsKeys) (src : ℕ → UInt8) (size : ℕ) (dst : ℕ → UInt8)
    (sector cryptStartSector : ℕ) : ℕ → UInt8 :=
  decryptSectors aes keys src sector cryptStartSector (size / 0x1000) 0 dst

/-- The byte at `x` of the image, which lies in the given sector, when the sector is decrypted. -/
def decryptedByte (aes : Aes) (keys : PfsKeys) (src : ℕ → UInt8) (sector x : ℕ) : UInt8 :=
  (decryptBlock aes keys src (x / 16 * 16)
    (doubled^[x % 0x1000 / 16] (aes.encrypt keys.tweakKey (sectorTweak sector)))).at (x % 16)

section Bytes

variable {aes : Aes} {keys : PfsKeys} {src : ℕ → UInt8}

/-- The bytes of the blocks from `pos` on are decrypted, the others kept. -/
theorem decryptBlocks_apply (blocks pos : ℕ) (tweak : Block) (dst : ℕ → UInt8) (x : ℕ) :
    decryptBlocks aes keys src blocks pos tweak dst x =
      if pos ≤ x ∧ x < pos + 16 * blocks then
        (decryptBlock aes keys src (pos + (x - pos) / 16 * 16)
          (doubled^[(x - pos) / 16] tweak)).at ((x - pos) % 16)
      else dst x := by
  induction blocks generalizing pos tweak dst with
  | zero =>
    rw [decryptBlocks, if_neg (by omega)]
  | succ blocks ih =>
    rw [decryptBlocks, ih]
    by_cases hlater : pos + 16 ≤ x ∧ x < pos + 16 + 16 * blocks
    · have hdiv : (x - pos) / 16 = (x - (pos + 16)) / 16 + 1 := by omega
      have hmod : (x - pos) % 16 = (x - (pos + 16)) % 16 := by omega
      have hpos : pos + 16 + (x - (pos + 16)) / 16 * 16 = pos + (x - pos) / 16 * 16 := by omega
      rw [if_pos hlater, if_pos (by omega), hdiv, hmod, Function.iterate_succ_apply, hpos, hdiv]
    · rw [if_neg hlater, copyAt]
      by_cases hfirst : pos ≤ x ∧ x < pos + 16
      · have hdiv : (x - pos) / 16 = 0 := by omega
        have hmod : (x - pos) % 16 = x - pos := by omega
        rw [if_pos hfirst, if_pos (by omega), hdiv, hmod]
        rfl
      · rw [if_neg hfirst, if_neg (by omega)]

/-- The bytes of the sectors from `i` on are decrypted or copied, the others kept. -/
theorem decryptSectors_apply (sector cryptStartSector sectors i : ℕ) (hi : i % 0x1000 = 0)
    (dst : ℕ → UInt8) (x : ℕ) :
    decryptSectors aes keys src sector cryptStartSector sectors i dst x =
      if i ≤ x ∧ x < i + sectors * 0x1000 then
        if add64 sector (x / 0x1000) < cryptStartSector then src x
        else decryptedByte aes keys src (add64 sector (x / 0x1000)) x
      else dst x := by
  induction sectors generalizing i dst with
  | zero =>
    rw [decryptSectors, if_neg (by omega)]
  | succ sectors ih =>
    rw [decryptSectors, ih (i + 0x1000) (by omega)]
    by_cases hlater : i + 0x1000 ≤ x ∧ x < i + 0x1000 + sectors * 0x1000
    · have hin : i ≤ x ∧ x < i + (sectors + 1) * 0x1000 := by omega
      rw [if_pos hlater, if_pos hin]
    · rw [if_neg hlater]
      by_cases hfirst : i ≤ x ∧ x < i + 0x1000
      · have hin : i ≤ x ∧ x < i + (sectors + 1) * 0x1000 := by omega
        have hsector : x / 0x1000 = i / 0x1000 := by omega
        rw [if_pos hin, hsector]
        split_ifs with hplain
        · rw [copyAt, if_pos hfirst, Nat.add_sub_cancel' hfirst.1]
        · have hblocks : i ≤ x ∧ x < i + 16 * (0x1000 / 16) := ⟨hfirst.1, hfirst.2⟩
          have hdiv : (x - i) / 16 = x % 0x1000 / 16 := by omega
          have hmod : (x - i) % 16 = x % 16 := by omega
          have hpos : i + x % 0x1000 / 16 * 16 = x / 16 * 16 := by omega
          rw [decryptBlocks_apply, if_pos hblocks, hdiv, hmod, hpos, decryptedByte]
      · have hout : ¬ (i ≤ x ∧ x < i + (sectors + 1) * 0x1000) := by omega
        rw [if_neg hout]
        split_ifs with hplain
        · rw [copyAt, if_neg hfirst]
        · have hblocks : ¬ (i ≤ x ∧ x < i + 16 * (0x1000 / 16)) := fun h => hfirst ⟨h.1, h.2⟩
          rw [decryptBlocks_apply, if_neg hblocks]

theorem decryptPFS_apply (size : ℕ) (dst : ℕ → UInt8) (sector cryptStartSector x : ℕ) :
    decryptPFS aes keys src size dst sector cryptStartSector x =
      if x < size / 0x1000 * 0x1000 then
        if add64 sector (x / 0x1000) < cryptStartSector then src x
        else decryptedByte aes keys src (add64 sector (x / 0x1000)) x
      else dst x := by
  rw [decryptPFS, decryptSectors_apply _ _ _ _ (Nat.zero_mod _)]
  simp only [Nat.zero_le, true_and, Nat.zero_add]

theorem decryptedByte_congr {src' : ℕ → UInt8} {sector x x' : ℕ}
    (hsame : ∀ k < 16, src' (x' / 16 * 16 + k) = src (x / 16 * 16 + k))
    (hplace : x' % 0x1000 = x % 0x1000) :
    decryptedByte aes keys src' sector x' = decryptedByte aes keys src sector x := by
  have hmod : x' % 16 = x % 16 := by omega
  have hblock (tweak : Block) : decryptBlock aes keys src' (x' / 16 * 16) tweak =
      decryptBlock aes keys src (x / 16 * 16) tweak := by
    funext k
    simp only [decryptBlock, fun j : Fin 16 => hsame j.val j.isLt]
  rw [decryptedByte, decryptedByte, hplace, hmod, hblock]

/-- Decrypting a slice that starts at a sector, with the number of that sector, gives the slice of
the decrypted image. -/
theorem decryptPFS_slice (first size : ℕ) (hfirst : first + size / 0x1000 < 2 ^ 64)
    (whole : ℕ) (hwhole : first * 0x1000 + size ≤ whole) (dst dst' : ℕ → UInt8)
    (cryptStartSector : ℕ) {y : ℕ} (hy : y < size / 0x1000 * 0x1000) :
    decryptPFS aes keys (fun i => src (first * 0x1000 + i)) size dst first cryptStartSector y =
      decryptPFS aes keys src whole dst' 0 cryptStartSector (first * 0x1000 + y) := by
  have hsector : add64 first (y / 0x1000) = add64 0 ((first * 0x1000 + y) / 0x1000) := by
    rw [add64_eq (by omega), add64_eq (by omega)]
    omega
  have hin : first * 0x1000 + y < whole / 0x1000 * 0x1000 := by omega
  rw [decryptPFS_apply, decryptPFS_apply, if_pos hy, if_pos hin, hsector]
  split_ifs with hplain
  · rfl
  · refine decryptedByte_congr (fun k _ => ?_) (by omega)
    congr 1
    omega

end Bytes

/-! ### The two ways to a sector -/

/-- The fields of `PKGHeader` that the two functions read, in host order. -/
structure PkgHeader where
  pkgSize : UInt64
  pfsImageOffset : UInt64
  pfsImageSize : UInt64
  pfsImageFlags : UInt64
  pfsCacheSize : UInt32

/-- The open package. Sizes of files are `off_t`. -/
structure PkgFile where
  bytes : ℕ → UInt8
  size : ℕ
  size_lt : size < 2 ^ 63

/-- The cipher, and `PfsGenCryptoKey` for the key of the package. -/
structure Crypto extends Aes where
  pfsGenCryptoKey : Block → Bool → PfsKeys

/-- The default argument of `decryptPFS`, and `kCryptStartSector`. -/
def cryptStart : ℕ := 16

/-- Whether all `n` bytes at the offset are there. They go to a buffer only then. -/
def preadAll (file : PkgFile) (n offset : ℕ) : Bool := n = 0 || offset + n ≤ file.size

def PkgFile.bytesAt (file : PkgFile) (offset : ℕ) : ℕ → UInt8 := fun i => file.bytes (offset + i)

/-- `"PFSC"`. -/
def isPfscMagic (image : ℕ → UInt8) (i : ℕ) : Bool :=
  image i = 0x50 && image (i + 1) = 0x46 && image (i + 2) = 0x53 && image (i + 3) = 0x43

/-- `for (u32 i = start; i + 4 <= size; i += step)`. A counter that has come round without an end of
the loop comes round for ever, which is `none`. -/
def scanMagic (image : ℕ → UInt8) (size step : ℕ) : ℕ → ℕ → Option (Option ℕ)
  | 0, _ => none
  | fuel + 1, i =>
    if (i + 4) % 2 ^ 32 ≤ size then
      if isPfscMagic image i then some (some i)
        else scanMagic image size step fuel ((i + step) % 2 ^ 32)
    else some none

def getPFSCOffset (image : ℕ → UInt8) (size : ℕ) : Option (Option ℕ) :=
  match scanMagic image size 0x10000 (2 ^ 16) (if size > 0x20000 then 0x10000 else 0) with
  | some none => scanMagic image size 0x1000 (2 ^ 20) 0
  | result => result

/-- What is known once the header is found. The code does not keep the threshold of the pass that
found it. -/
structure Located where
  keys : PfsKeys
  cryptStartSector : ℕ
  pfscOffset : ℕ
  pfsc : ℕ → UInt8
  pfscSize : ℕ

/-- The passes over the prefix, each with a kind of key and a threshold. All decrypt into the same
buffer. -/
def locate (crypto : Crypto) (seed : Block) (encrypted : ℕ → UInt8) (length : ℕ) :
    List (Bool × ℕ) → (ℕ → UInt8) → Option (Option Located)
  | [], _ => some none
  | (useNewCrypt, cryptStartSector) :: passes, buffer =>
    let keys := crypto.pfsGenCryptoKey seed useNewCrypt
    let decrypted := decryptPFS crypto.toAes keys encrypted length buffer 0 cryptStartSector
    match getPFSCOffset decrypted length with
    | none => none
    | some none => locate crypto seed encrypted length passes decrypted
    | some (some pfscOffset) =>
      if pfscOffset < length then
        some (some {
          keys, cryptStartSector, pfscOffset
          pfsc := fun i => decrypted (pfscOffset + i)
          pfscSize := length - pfscOffset })
      else locate crypto seed encrypted length passes decrypted

namespace PkgHeader

/-- `(pfs_flags & 0x2000000000000000ULL) != 0`. -/
def newCrypt (hdr : PkgHeader) : Bool := hdr.pfsImageFlags &&& 0x2000000000000000 != 0

/-- The number of bytes decrypted at first. -/
def prefixLength (hdr : PkgHeader) : ℕ :=
  let length := hdr.pfsCacheSize.toNat * 2 % 2 ^ 32
  let length := if length = 0 then 0x100000 else length
  let length := if length < 0x40000 then 0x40000 else length
  if 0 < hdr.pfsImageSize.toNat ∧ hdr.pfsImageSize.toNat < length then hdr.pfsImageSize.toNat
    else length

end PkgHeader

/-- `build_fs_table` up to the vector `pfsc`; `none` when it does not return. -/
def openPfsc (crypto : Crypto) (file : PkgFile) (hdr : PkgHeader) :
    Option (Except String Located) :=
  let seedOffset := add64 hdr.pfsImageOffset.toNat 0x370
  let pfsOff := hdr.pfsImageOffset.toNat
  if !preadAll file 16 seedOffset then some (.error "Failed to read PFS seed")
  else if !preadAll file hdr.prefixLength pfsOff then
    some (.error "Failed reading PFS header region")
  else
    let passes := [(hdr.newCrypt, cryptStart), (!hdr.newCrypt, cryptStart), (hdr.newCrypt, 0)]
    let seed : Block := fun k => file.bytesAt seedOffset k
    match locate crypto seed (file.bytesAt pfsOff) hdr.prefixLength passes fun _ => 0 with
    | none => none
    | some none => some (.error "PFSC magic not found (wrong keys or unsupported PFS layout)")
    | some (some st) => if st.pfscSize < 0x30 then some (.error "PFSC header OOB")
        else some (.ok st)

/-- `size` bytes from `offset` on. -/
def slice (src : ℕ → UInt8) (offset size : ℕ) : List UInt8 := (List.range size).map fun k =>
    src (offset + k)

/-- The copy from the decrypted prefix. -/
def cachedSector (st : Located) (sectorOffset sectorSize : ℕ) : List UInt8 :=
  slice st.pfsc sectorOffset sectorSize

def kWindow : ℕ := 0x11000

/-- The place in the image of the window for a sector. -/
def windowStart (st : Located) (sectorOffset : ℕ) : ℕ :=
  add64 sectorOffset st.pfscOffset / 0x1000 * 0x1000

def windowPreviousData (st : Located) (sectorOffset : ℕ) : ℕ :=
  add64 sectorOffset st.pfscOffset % 0x1000

/-- The place in the package of the window for a sector. -/
def windowReadOffset (hdr : PkgHeader) (st : Located) (sectorOffset : ℕ) : ℕ :=
  let fileOffset := add64 (add64 hdr.pfsImageOffset.toNat st.pfscOffset) sectorOffset
  sub64 fileOffset (windowPreviousData st sectorOffset)

/-- The bytes of the window that the package still has. -/
def windowToRead (hdr : PkgHeader) (st : Located) (sectorOffset : ℕ) : ℕ :=
  let readOff := windowReadOffset hdr st sectorOffset
  min kWindow (if readOff < hdr.pkgSize.toNat then hdr.pkgSize.toNat - readOff else 0)

/-- The window as read, filled up with zeros and decrypted. -/
def decryptedWindow (crypto : Crypto) (st : Located) (sectorOffset toRead : ℕ) (bytes : ℕ → UInt8) :
    ℕ → UInt8 :=
  let enc := fun i => if i < toRead then bytes i else 0
  let currentSector := add64 st.pfscOffset sectorOffset / 0x1000
  decryptPFS crypto.toAes st.keys enc kWindow (fun _ => 0) currentSector cryptStart

/-- The slow path. -/
def streamedSector (crypto : Crypto) (file : PkgFile) (hdr : PkgHeader) (st : Located)
    (sectorOffset sectorSize : ℕ) : Except String (List UInt8) :=
  let readOff := windowReadOffset hdr st sectorOffset
  let toRead := windowToRead hdr st sectorOffset
  if !preadAll file toRead readOff then .error "PFS metadata sector read failed"
  else
    let dec := decryptedWindow crypto st sectorOffset toRead (file.bytesAt readOff)
    if windowPreviousData st sectorOffset + sectorSize > kWindow then
      .error "PFS metadata sector window OOB"
    else .ok (slice dec (windowPreviousData st sectorOffset) sectorSize)

end PS4Droid.Pkg
