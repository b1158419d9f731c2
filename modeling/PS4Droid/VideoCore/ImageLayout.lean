import Mathlib.Algebra.Order.BigOperators.Group.Finset
import Mathlib.Tactic.Ring

/-!
# The guest layout of an image

`ImageInfo::UpdateSize` pads every mip and adds up the sizes. The products of the padded extents are
taken in 32 bits; the same functions over all numbers give the exact sizes.
-/

namespace PS4Droid.VideoCore

inductive ArrayMode
  | linearGeneral
  | linearAligned
  | tiled1DThin1
  | tiled1DThick
  | tiled2DThin1
  | tiled2DThick
  | other
  deriving DecidableEq

inductive ImageType
  | color1D
  | color2D
  | color3D
  | cube
  | color1DArray
  | color2DArray
  | color2DMsaa
  | color2DMsaaArray
  deriving DecidableEq

/-- An image descriptor, with what the tables say of its format and tile mode: the bits of a block,
the array mode and the macro tile extents. -/
structure Image where
  width : Fin (2 ^ 14)
  height : Fin (2 ^ 14)
  depth : Fin (2 ^ 13)
  pitch : Fin (2 ^ 14)
  lastLevel : Fin 16
  pow2pad : Bool
  type : ImageType
  isBlock : Bool
  numBits : ℕ
  arrayMode : ArrayMode
  macroTileExtents : ℕ × ℕ

namespace Image

def isMsaa (image : Image) : Bool := image.type = .color2DMsaa || image.type = .color2DMsaaArray

def numLevels (image : Image) : ℕ := if image.isMsaa then 1 else image.lastLevel + 1

def numSamples (image : Image) : ℕ := if image.isMsaa then 2 ^ (image.lastLevel : ℕ) else 1

/-- The depth counts the slices of an array, and the full cubes of a cube. -/
def numLayers (image : Image) : ℕ :=
  let slices :=
    match image.type with
    | .color3D => 1
    | .cube => (image.depth + 1) * 6
    | _ => image.depth + 1
  if image.pow2pad then slices.nextPowerOfTwo else slices

end Image

structure ImageInfo where
  isBlock : Bool
  isPow2 : Bool
  pitch : ℕ
  height : ℕ
  depth : ℕ
  levels : ℕ
  layers : ℕ
  numBits : ℕ
  numSamples : ℕ
  arrayMode : ArrayMode
  macroTileExtents : ℕ × ℕ

structure MipInfo where
  size : ℕ
  pitch : ℕ
  height : ℕ
  offset : ℕ
  deriving DecidableEq

/-- What the size functions return; the size is one of a slice. -/
structure Padded where
  pitch : ℕ
  height : ℕ
  size : ℕ

def wrap32 (n : ℕ) : ℕ := n % 2 ^ 32

/-- `(x + align - 1) & ~(align - 1)`; alignments are powers of two, and a pitch has 14 bits. -/
def alignTo (x align : ℕ) : ℕ := (x + align - 1) / align * align

/-- `while (bad(pitch)) pitch += step;`; `none` when it has not ended after `fuel` steps. -/
def padWhile (bad : ℕ → Bool) (step : ℕ) : ℕ → ℕ → Option ℕ
  | 0, pitch => if bad pitch then none else some pitch
  | fuel + 1, pitch => if bad pitch then padWhile bad step fuel (pitch + step) else some pitch

def padFuel : ℕ := 8

/-! ### The size functions

The first argument is what the arithmetic does to a product: `wrap32`, or nothing for the exact
sizes. -/

variable (wrap : ℕ → ℕ)

def pitchAlign (bpp : ℕ) : ℕ := max 8 (64 / ((bpp + 7) / 8))

def sliceAlign (bpp : ℕ) : ℕ := max 64 (256 / ((bpp + 7) / 8))

def imageSizeLinearAligned (pitch height bpp numSamples : ℕ) : Option Padded := do
  let logSz := fun pitch => wrap (pitch * height * numSamples)
  let pitch ← padWhile (fun pitch => logSz pitch % sliceAlign bpp != 0) (pitchAlign bpp) padFuel
    (alignTo pitch (pitchAlign bpp))
  return { pitch, height, size := (logSz pitch * bpp + 7) / 8 }

def imageSizeMicroTiled (pitch height thickness bpp numSamples : ℕ) : Option Padded := do
  let height := alignTo height 8
  let logSz := fun pitch => wrap (pitch * height * bpp * numSamples + 7) / 8
  let pitch ← padWhile (fun pitch => logSz pitch * thickness % 256 != 0) 8 padFuel (alignTo pitch 8)
  return { pitch, height, size := logSz pitch }

/-- The zero extents of a tile mode that is not macro tiled are asserted against. -/
def imageSizeMacroTiled (extents : ℕ × ℕ) (pitch height thickness bpp numSamples mip : ℕ) :
    Option Padded :=
  if extents.1 = 0 ∨ extents.2 = 0 then none
  else if 0 < mip ∧ (pitch < extents.1 ∨ height < extents.2) then
    imageSizeMicroTiled wrap pitch height thickness bpp numSamples
  else
    let pitch := alignTo pitch extents.1
    let height := alignTo height extents.2
    let logSz := wrap (pitch * height * numSamples)
    some { pitch, height, size := wrap (logSz * bpp + 7) / 8 }

namespace ImageInfo

/-- The constructor from a descriptor, up to `UpdateSize`. -/
def ofImage (image : Image) : ImageInfo where
  isBlock := image.isBlock
  isPow2 := image.pow2pad
  pitch := image.pitch + 1
  height := image.height + 1
  depth := if image.type = .color3D then image.depth + 1 else 1
  levels := image.numLevels
  layers := image.numLayers
  numBits := image.numBits
  numSamples := image.numSamples
  arrayMode := image.arrayMode
  macroTileExtents := image.macroTileExtents

variable (info : ImageInfo)

def blocks (n : ℕ) : ℕ := if info.isBlock then (n + 3) / 4 else n

def ceilPow2 (n : ℕ) : ℕ := if info.isPow2 then n.nextPowerOfTwo else n

def mipW (mip : ℕ) : ℕ := info.ceilPow2 (max (info.blocks (info.pitch >>> mip)) 1)

def mipH (mip : ℕ) : ℕ := info.ceilPow2 (max (info.blocks (info.height >>> mip)) 1)

def thickness : ℕ := if info.arrayMode = .tiled1DThick ∨ info.arrayMode = .tiled2DThick then 4
    else 1

def mipD (mip : ℕ) : ℕ :=
  let mipD := info.ceilPow2 (max (info.depth >>> mip) 1)
  if info.thickness = 4 then alignTo mipD 4 else mipD

/-- The switch over the array modes. -/
def paddedMip (mip : ℕ) : Option Padded :=
  match info.arrayMode with
  | .linearAligned =>
      imageSizeLinearAligned wrap (info.mipW mip) (info.mipH mip) info.numBits info.numSamples
  | .tiled1DThin1 | .tiled1DThick =>
    imageSizeMicroTiled wrap (info.mipW mip)
      (info.mipH mip) info.thickness info.numBits info.numSamples
  | .tiled2DThin1 | .tiled2DThick =>
    if info.isBlock then none
    else imageSizeMacroTiled wrap info.macroTileExtents (info.mipW mip)
      (info.mipH mip) info.thickness info.numBits
      info.numSamples mip
  | _ => none

/-- From blocks to texels. -/
def texels (n : ℕ) : ℕ := if info.isBlock then max (n * 4) 32 else n

def mipInfo (mip guestSize : ℕ) : Option MipInfo := do
  let padded ← info.paddedMip wrap mip
  return {
    size := wrap (wrap padded.size * wrap (info.mipD mip * info.layers))
    pitch := info.texels padded.pitch
    height := info.texels padded.height
    offset := guestSize }

/-- The layout of the first mips, and the guest size after them. -/
def layMips : ℕ → Option (List MipInfo × ℕ)
  | 0 => some ([], 0)
  | mip + 1 => do
    let (mips, guestSize) ← layMips mip
    let mipInfo ← info.mipInfo wrap mip guestSize
    return (mips ++ [mipInfo], wrap (guestSize + mipInfo.size))

def updateSize : Option (List MipInfo × ℕ) := info.layMips wrap info.levels

/-! ### Exact layouts -/

/-- A mip as the size functions pad it over all numbers. -/
def exactMip (mip : ℕ) : Padded := (info.paddedMip id mip).getD ⟨0, 0, 0⟩

/-- The bits of the padded samples of a slice. -/
def sliceBits (mip : ℕ) : ℕ :=
  (info.exactMip mip).pitch * (info.exactMip mip).height * info.numSamples * info.numBits

def exactBytes (mip : ℕ) : ℕ := info.sliceBits mip / 8 * (info.mipD mip * info.layers)

def exactSize : ℕ := ∑ mip ∈ Finset.range info.levels, info.exactBytes mip

/-- What the code makes of them. -/
def wrappedBytes (mip : ℕ) : ℕ :=
  (if info.arrayMode = .linearAligned then
    wrap32 ((info.exactMip mip).pitch * (info.exactMip mip).height * info.numSamples) *
      info.numBits / 8
  else info.sliceBits mip / 8 % 2 ^ 29) * (info.mipD mip * info.layers) % 2 ^ 32

/-- What a padded pitch and height are to be multiples of. -/
def alignments (mip : ℕ) : ℕ × ℕ :=
  if info.arrayMode = .linearAligned then (pitchAlign info.numBits, 1)
  else if (info.arrayMode = .tiled2DThin1 ∨ info.arrayMode = .tiled2DThick) ∧ ¬(0 < mip ∧
        (info.mipW mip < info.macroTileExtents.1 ∨ info.mipH mip < info.macroTileExtents.2)) then
    info.macroTileExtents
  else (8, 8)

/-- What `UpdateSize` is made for; macro tile extents that are not zero are powers of two. -/
structure Supported : Prop where
  numBits : info.numBits ∈ [8, 16, 32, 64, 128]
  numSamples : info.numSamples ∈ [1, 2, 4, 8]
  arrayMode : info.arrayMode ∈ [.linearAligned, .tiled1DThin1, .tiled1DThick, .tiled2DThin1,
    .tiled2DThick]
  macroTiled : info.arrayMode = .tiled2DThin1 ∨ info.arrayMode = .tiled2DThick →
    info.isBlock = false ∧ ∃ a b, info.macroTileExtents = (2 ^ a, 2 ^ b)

/-- The layout of a mip says what its padded samples take, and where the mips before it end. -/
structure ExactMip (mip : ℕ) (m : MipInfo) : Prop where
  pitch : m.pitch = info.texels (info.exactMip mip).pitch
  height : m.height = info.texels (info.exactMip mip).height
  covers : info.mipW mip ≤ (info.exactMip mip).pitch ∧ info.mipH mip ≤ (info.exactMip mip).height
  aligned : (info.alignments mip).1 ∣ (info.exactMip mip).pitch ∧
    (info.alignments mip).2 ∣ (info.exactMip mip).height
  size : m.size = info.exactBytes mip
  offset : m.offset = ∑ i ∈ Finset.range mip, info.exactBytes i

structure ExactLayout (mips : List MipInfo) (guestSize : ℕ) : Prop where
  length : mips.length = info.levels
  mip : ∀ mip m, mips[mip]? = some m → info.ExactMip mip m
  guestSize : guestSize = info.exactSize

end ImageInfo

/-! ### Padding -/

variable {bpp numSamples pitch height thickness : ℕ}

theorem alignTo_spec {x align : ℕ} (h : 0 < align) :
    x ≤ alignTo x align ∧ align ∣ alignTo x align := by
  constructor
  · have hlt := Nat.lt_div_mul_add (a := x + align - 1) h
    unfold alignTo
    omega
  · exact Nat.dvd_mul_left ..

/-- A loop that meets a good pitch ends, some steps on. -/
theorem padWhile_ends (bad : ℕ → Bool) {step fuel k : ℕ} (hk : k ≤ fuel)
    (h : bad (pitch + step * k) = false) :
    ∃ j, padWhile bad step fuel pitch = some (pitch + step * j) := by
  induction fuel generalizing pitch k with
  | zero =>
    rw [Nat.le_zero.mp hk] at h
    exact ⟨0, by simpa [padWhile] using h⟩
  | succ fuel ih =>
    unfold padWhile
    cases hbad : bad pitch with
    | false => exact ⟨0, rfl⟩
    | true =>
      cases k with
      | zero => exact absurd (hbad.symm.trans h) (by simp)
      | succ k =>
        have hstep : pitch + step + step * k = pitch + step * (k + 1) := by rw [Nat.mul_succ]; omega
        obtain ⟨j, hj⟩ := ih (Nat.le_of_succ_le_succ hk) (hstep ▸ h)
        exact ⟨j + 1, by rw [if_pos rfl, hj, Nat.mul_succ, Nat.add_assoc, Nat.add_comm step]⟩

/-- Arithmetic that keeps the low 32 bits. -/
def Keeps (wrap : ℕ → ℕ) : Prop := ∀ n, wrap n % 2 ^ 32 = n % 2 ^ 32

theorem keeps_wrap32 : Keeps wrap32 := fun n => Nat.mod_mod n _

theorem keeps_id : Keeps id := fun _ => rfl

variable {wrap : ℕ → ℕ}

theorem Keeps.mod (h : Keeps wrap) {d : ℕ} (hd : d ∣ 2 ^ 32) (n : ℕ) : wrap n % d = n % d := by
  rw [← Nat.mod_mod_of_dvd _ hd, h, Nat.mod_mod_of_dvd _ hd]

theorem exists_dvd_add {r : ℕ} (hr : 0 < r) (q : ℕ) : ∃ k ≤ r, r ∣ q + k := by
  refine ⟨r - q % r, Nat.sub_le .., ?_⟩
  have hlt := Nat.mod_lt q hr
  have hdiv := Nat.mod_add_div q r
  have hsum : q + (r - q % r) = r * (q / r + 1) := by rw [Nat.mul_add]; omega
  exact hsum ▸ Nat.dvd_mul_right ..

/-- The loop of the linear layout ends with the same pitch, whatever happens above 32 bits. -/
theorem imageSizeLinearAligned_spec (hbpp : bpp ∈ [8, 16, 32, 64, 128])
    (pitch height numSamples : ℕ) :
    ∃ p, pitch ≤ p ∧ pitchAlign bpp ∣ p ∧ ∀ wrap, Keeps wrap →
      imageSizeLinearAligned wrap pitch height bpp numSamples =
      some ⟨p, height, (wrap (p * height * numSamples) * bpp + 7) / 8⟩ := by
  obtain ⟨r, hr, hpos, hr8, halign, hdvd⟩ : ∃ r, sliceAlign bpp = pitchAlign bpp * r ∧ 0 < r ∧
    r ≤ 8 ∧ 0 < pitchAlign bpp ∧ sliceAlign bpp ∣ 2 ^ 32 := by
    simp only [List.mem_cons, List.not_mem_nil, or_false] at hbpp
    rcases hbpp with rfl | rfl | rfl | rfl | rfl
    · exact ⟨4, by decide⟩
    · exact ⟨4, by decide⟩
    · exact ⟨4, by decide⟩
    · exact ⟨8, by decide⟩
    · exact ⟨8, by decide⟩
  obtain ⟨hle, q, hq⟩ := alignTo_spec (x := pitch) halign
  obtain ⟨k, hk, c, hc⟩ := exists_dvd_add hpos q
  -- one of the next pitches is itself a multiple of the alignment of a slice
  have hfits : (((alignTo pitch (pitchAlign bpp) + pitchAlign bpp * k) * height * numSamples) %
    sliceAlign bpp != 0) = false := by
    rw [hq, ← Nat.mul_add, hc, ← Nat.mul_assoc, ← hr, Nat.mul_assoc, Nat.mul_assoc,
      Nat.mul_mod_right]
    rfl
  obtain ⟨j, hj⟩ := padWhile_ends (fun pitch => pitch * height * numSamples % sliceAlign bpp != 0)
    (Nat.le_trans hk hr8) hfits
  refine ⟨_, Nat.le_trans hle (Nat.le_add_right _ (pitchAlign bpp * j)), ?_, fun wrap hwrap => ?_⟩
  · exact Nat.dvd_add ⟨q, hq⟩ (Nat.dvd_mul_right ..)
  · simp only [imageSizeLinearAligned, hwrap.mod hdvd, padFuel, hj, Option.bind_eq_bind,
      Option.bind_some, Option.pure_def]

/-- A size in bytes from one in bits; a product in 32 bits loses the bytes from 512 MiB on. -/
theorem bytes_of_bits {n : ℕ} (h : 8 ∣ n) :
    (n + 7) / 8 = n / 8 ∧ wrap32 (n + 7) / 8 = n / 8 % 2 ^ 29 := by
  obtain ⟨m, rfl⟩ := h
  unfold wrap32
  omega

/-- So does the loop of the micro tiled layout. -/
theorem imageSizeMicroTiled_spec (hbpp : 8 ∣ bpp) (pitch height thickness numSamples : ℕ) :
    ∃ p h, pitch ≤ p ∧ height ≤ h ∧ 8 ∣ p ∧ 8 ∣ h ∧ ∀ wrap, Keeps wrap →
      imageSizeMicroTiled wrap pitch height thickness bpp numSamples =
        some ⟨p, h, wrap (p * h * bpp * numSamples + 7) / 8⟩ := by
  obtain ⟨hleH, hdvdH⟩ := alignTo_spec (x := height) (by decide : 0 < 8)
  obtain ⟨hle, q, hq⟩ := alignTo_spec (x := pitch) (by decide : 0 < 8)
  obtain ⟨k, hk, c, hc⟩ := exists_dvd_add (r := 4) (by decide) q
  obtain ⟨h, hh⟩ := hdvdH
  obtain ⟨b, hb⟩ := hbpp
  have hfits :
    ((((alignTo pitch 8 + 8 * k) * alignTo height 8 * bpp * numSamples + 7) / 8 % 256 * thickness) %
    256 !=
      0) = false := by
    have hbits : (alignTo pitch 8 + 8 * k) * alignTo height 8 * bpp * numSamples =
      8 * (256 * (c * h * b * numSamples)) := by
      rw [hq, ← Nat.mul_add, hc, hh, hb]
      ring
    rw [hbits, Nat.mul_add_div (by decide), Nat.div_eq_of_lt (by decide), Nat.add_zero,
      Nat.mul_mod_right, Nat.zero_mul]
    rfl
  obtain ⟨j, hj⟩ := padWhile_ends (fun pitch =>
    (pitch * alignTo height 8 * bpp * numSamples + 7) / 8 % 256 * thickness % 256 != 0)
      (Nat.le_trans hk (by decide : 4 ≤ 8))
    hfits
  refine ⟨_, _, Nat.le_trans hle (Nat.le_add_right _ (8 * j)), hleH, ?_, ⟨h, hh⟩,
    fun wrap hwrap => ?_⟩
  · exact Nat.dvd_add ⟨q, hq⟩ (Nat.dvd_mul_right ..)
  · -- the loop looks at the low bits only
    have hlow : ∀ n, wrap n / 8 * thickness % 256 = n / 8 % 256 * thickness % 256 := by
      intro n
      rw [Nat.mod_mul_mod, Nat.mul_mod, ← Nat.mod_mul_right_div_self, hwrap.mod (by decide),
        Nat.mod_mul_right_div_self, ← Nat.mul_mod]
    simp only [imageSizeMicroTiled, hlow, padFuel, hj, Option.bind_eq_bind, Option.bind_some,
      Option.pure_def]

namespace ImageInfo

variable {info : ImageInfo}

/-- A tiled mip is micro tiled, or a multiple of the macro tile. -/
theorem Supported.tiled (hs : info.Supported) (hlinear : info.arrayMode ≠ .linearAligned)
    (mip : ℕ) :
    (info.alignments mip = (8, 8) ∧ ∀ wrap,
      info.paddedMip wrap mip = imageSizeMicroTiled wrap (info.mipW mip)
      (info.mipH mip) info.thickness info.numBits info.numSamples) ∨
    ∃ e₁ e₂, info.alignments mip = (e₁, e₂) ∧ 0 < e₁ ∧ 0 < e₂ ∧ ∀ wrap, info.paddedMip wrap mip =
      some ⟨alignTo (info.mipW mip) e₁, alignTo (info.mipH mip) e₂,
        wrap (wrap (alignTo (info.mipW mip) e₁ * alignTo (info.mipH mip) e₂ * info.numSamples) *
          info.numBits + 7) / 8⟩ := by
  by_cases htiles : info.arrayMode = .tiled2DThin1 ∨ info.arrayMode = .tiled2DThick
  · obtain ⟨hblock, a, b, hext⟩ := hs.macroTiled htiles
    have hpadded : ∀ wrap,
      info.paddedMip wrap mip = imageSizeMacroTiled wrap (2 ^ a, 2 ^ b) (info.mipW mip)
        (info.mipH mip) info.thickness info.numBits info.numSamples mip := by
      intro wrap
      rcases htiles with h | h <;> simp [ImageInfo.paddedMip, h, hblock, hext]
    by_cases hmip : 0 < mip ∧ (info.mipW mip < 2 ^ a ∨ info.mipH mip < 2 ^ b)
    · left
      constructor
      · rw [alignments, if_neg hlinear, hext, if_neg (fun hand => hand.2 hmip)]
      · intro wrap
        rw [hpadded, imageSizeMacroTiled, if_neg (by simp), if_pos hmip]
    · right
      refine ⟨2 ^ a, 2 ^ b, ?_, Nat.two_pow_pos a, Nat.two_pow_pos b, fun wrap => ?_⟩
      · rw [alignments, if_neg hlinear, hext, if_pos ⟨htiles, hmip⟩]
      · rw [hpadded, imageSizeMacroTiled, if_neg (by simp), if_neg hmip]
  · left
    constructor
    · rw [alignments, if_neg hlinear, if_neg (fun hand => htiles hand.1)]
    · intro wrap
      have hmode := hs.arrayMode
      simp only [List.mem_cons, List.not_mem_nil, or_false, hlinear, false_or] at hmode
      rcases hmode with h | h | h | h
      · simp [ImageInfo.paddedMip, h]
      · simp [ImageInfo.paddedMip, h]
      · exact absurd (.inl h) htiles
      · exact absurd (.inr h) htiles

/-- What the code and the exact functions have in common for a mip. -/
theorem Supported.paddedMip (hs : info.Supported) (mip : ℕ) :
    ∃ p h, info.mipW mip ≤ p ∧ info.mipH mip ≤ h ∧
    (info.alignments mip).1 ∣ p ∧ (info.alignments mip).2 ∣ h ∧
    info.paddedMip id mip = some ⟨p, h, p * h * info.numSamples * info.numBits / 8⟩ ∧
    info.paddedMip wrap32 mip = some ⟨p, h,
      if info.arrayMode = .linearAligned then wrap32 (p * h * info.numSamples) * info.numBits / 8
      else p * h * info.numSamples * info.numBits / 8 % 2 ^ 29⟩ := by
  have hbpp : 8 ∣ info.numBits := by
    have hbits := hs.numBits
    simp only [List.mem_cons, List.not_mem_nil, or_false] at hbits
    omega
  have hbytes : ∀ p h, 8 ∣ p * h * info.numSamples * info.numBits :=
    fun p h => Dvd.dvd.mul_left hbpp _
  by_cases hlinear : info.arrayMode = .linearAligned
  · obtain ⟨p, hw, hp, heq⟩ :=
      imageSizeLinearAligned_spec hs.numBits (info.mipW mip) (info.mipH mip) info.numSamples
    have halign : info.alignments mip = (pitchAlign info.numBits, 1) := if_pos hlinear
    refine ⟨p, info.mipH mip, hw, Nat.le_refl _, halign ▸ hp, halign ▸ Nat.one_dvd _, ?_, ?_⟩
    · rw [ImageInfo.paddedMip, hlinear]
      exact (heq id keeps_id).trans (by rw [id, (bytes_of_bits (hbytes _ _)).1])
    · rw [ImageInfo.paddedMip, hlinear]
      refine (heq wrap32 keeps_wrap32).trans ?_
      rw [if_pos rfl, (bytes_of_bits (Dvd.dvd.mul_left hbpp _)).1]
  · simp only [if_neg hlinear]
    obtain ⟨halign, hpadded⟩ | ⟨e₁, e₂, halign, he₁, he₂, hpadded⟩ := hs.tiled hlinear mip
    · obtain ⟨p, h, hw, hh, hp, hq, heq⟩ :=
        imageSizeMicroTiled_spec hbpp (info.mipW mip) (info.mipH mip) info.thickness
        info.numSamples
      have hcomm := Nat.mul_right_comm (p * h) info.numBits info.numSamples
      refine ⟨p, h, hw, hh, halign ▸ hp, halign ▸ hq, ?_, ?_⟩
      · rw [hpadded, heq id keeps_id, hcomm, id, (bytes_of_bits (hbytes p h)).1]
      · rw [hpadded, heq wrap32 keeps_wrap32, hcomm, (bytes_of_bits (hbytes p h)).2]
    · obtain ⟨hw, hp⟩ := alignTo_spec (x := info.mipW mip) he₁
      obtain ⟨hh, hq⟩ := alignTo_spec (x := info.mipH mip) he₂
      refine ⟨_, _, hw, hh, halign ▸ hp, halign ▸ hq, ?_, ?_⟩
      · rw [hpadded, id, id, (bytes_of_bits (hbytes _ _)).1]
      · have hwrap : ∀ n m, wrap32 (wrap32 n * m + 7) = wrap32 (n * m + 7) := by
          intro n m
          simp [wrap32, Nat.add_mod, Nat.mod_mul_mod]
        rw [hpadded, hwrap, (bytes_of_bits (hbytes _ _)).2]

/-- The layout of a mip, with a size that has wrapped. -/
def wrappedMip (info : ImageInfo) (mip : ℕ) : MipInfo where
  size := info.wrappedBytes mip
  pitch := info.texels (info.exactMip mip).pitch
  height := info.texels (info.exactMip mip).height
  offset := (∑ i ∈ Finset.range mip, info.wrappedBytes i) % 2 ^ 32

theorem Supported.mipInfo (hs : info.Supported) (mip : ℕ) :
    (info.mipW mip ≤ (info.exactMip mip).pitch ∧ info.mipH mip ≤ (info.exactMip mip).height) ∧
    ((info.alignments mip).1 ∣ (info.exactMip mip).pitch ∧
      (info.alignments mip).2 ∣ (info.exactMip mip).height) ∧
    info.mipInfo wrap32 mip (info.wrappedMip mip).offset = some (info.wrappedMip mip) := by
  obtain ⟨p, h, hw, hh, hp, hq, hid, hwrap⟩ := hs.paddedMip mip
  have hexact : info.exactMip mip = ⟨p, h, p * h * info.numSamples * info.numBits / 8⟩ := by
    rw [exactMip, hid, Option.getD_some]
  have hmul : ∀ n m, wrap32 (wrap32 n * wrap32 m) = n * m % 2 ^ 32 :=
    fun n m => (Nat.mul_mod n m _).symm
  rw [ImageInfo.mipInfo, hwrap, wrappedMip, wrappedBytes, sliceBits, hexact]
  simp only [Option.bind_eq_bind, Option.bind_some, Option.pure_def, hmul]
  exact ⟨⟨hw, hh⟩, ⟨hp, hq⟩, trivial⟩

theorem Supported.layMips (hs : info.Supported) (n : ℕ) : info.layMips wrap32 n =
    some ((List.range n).map info.wrappedMip,
      (∑ i ∈ Finset.range n, info.wrappedBytes i) % 2 ^ 32) := by
  induction n with
  | zero => rfl
  | succ n ih =>
    rw [ImageInfo.layMips, ih]
    simp only [Option.bind_eq_bind, Option.bind_some]
    have hmip := (hs.mipInfo n).2.2
    unfold wrappedMip at hmip
    rw [hmip, List.range_succ, List.map_append, Finset.sum_range_succ, Nat.add_mod]
    simp [wrappedMip, wrap32, wrappedBytes]

theorem ceilPow2_pos {n : ℕ} (h : 0 < n) : 0 < info.ceilPow2 n := by
  unfold ceilPow2
  split_ifs
  · exact Nat.pos_of_isPowerOfTwo (Nat.isPowerOfTwo_nextPowerOfTwo n)
  · exact h

theorem mipD_pos (mip : ℕ) : 0 < info.mipD mip := by
  have hpos : 0 < info.ceilPow2 (max (info.depth >>> mip) 1) := ceilPow2_pos (by omega)
  unfold mipD
  split_ifs
  · exact Nat.lt_of_lt_of_le hpos (alignTo_spec (by decide)).1
  · exact hpos

/-- Up to a size of 4 GiB, a mip keeps its size exactly when it is linear or its slices are below
512 MiB. -/
theorem Supported.wrappedBytes_eq_iff (hs : info.Supported) {mip : ℕ} (hlayers : 0 < info.layers)
    (hlt : info.exactBytes mip < 2 ^ 32) :
    info.wrappedBytes mip = info.exactBytes mip ↔ info.arrayMode = .linearAligned ∨
      info.sliceBits mip < 2 ^ 32 := by
  have hslices : 0 < info.mipD mip * info.layers := Nat.mul_pos (mipD_pos mip) hlayers
  have hle : info.sliceBits mip / 8 ≤ info.exactBytes mip := Nat.le_mul_of_pos_right _ hslices
  have hbits := hs.numBits
  simp only [List.mem_cons, List.not_mem_nil, or_false] at hbits
  unfold wrappedBytes
  by_cases hlinear : info.arrayMode = .linearAligned
  · have hsamples : (info.exactMip mip).pitch * (info.exactMip mip).height * info.numSamples ≤
      info.sliceBits mip / 8 := by
      apply (Nat.le_div_iff_mul_le (by decide)).mpr
      exact Nat.mul_le_mul_left _ (by omega)
    have hkept : wrap32 ((info.exactMip mip).pitch * (info.exactMip mip).height * info.numSamples) =
        (info.exactMip mip).pitch * (info.exactMip mip).height * info.numSamples :=
          Nat.mod_eq_of_lt (by omega)
    rw [if_pos hlinear, hkept]
    exact iff_of_true (Nat.mod_eq_of_lt hlt) (.inl hlinear)
  · have hdvd : 8 ∣ info.sliceBits mip := Dvd.dvd.mul_left (by omega) _
    rw [if_neg hlinear, Nat.mod_eq_of_lt
      (Nat.lt_of_le_of_lt (Nat.mul_le_mul_right _ (Nat.mod_le ..)) hlt), exactBytes,
      Nat.mul_left_inj hslices.ne']
    simp only [hlinear, false_or]
    omega

end ImageInfo

open ImageInfo

theorem Image.numLayers_pos (image : Image) : 0 < image.numLayers := by
  unfold numLayers
  split_ifs
  · exact Nat.pos_of_isPowerOfTwo (Nat.isPowerOfTwo_nextPowerOfTwo _)
  · split <;> simp

/-- The loops end for every image, and an image below 4 GiB is laid out exactly if and only if it is
linear or every padded slice has less than `2 ^ 32` bits. -/
theorem layout_exact_iff (image : Image) (hs : (ofImage image).Supported)
    (hsize : (ofImage image).exactSize < 2 ^ 32) :
    ∃ mips guestSize, (ofImage image).updateSize wrap32 = some (mips, guestSize) ∧
      ((ofImage image).ExactLayout mips guestSize ↔ (ofImage image).arrayMode = .linearAligned ∨
        ∀ mip < (ofImage image).levels, (ofImage image).sliceBits mip < 2 ^ 32) := by
  refine ⟨_, _, hs.layMips _, ?_⟩
  have hmip : ∀ mip < (ofImage image).levels, (ofImage image).exactBytes mip < 2 ^ 32 := by
    intro mip hlt
    exact Nat.lt_of_le_of_lt
      (Finset.single_le_sum (fun _ _ => Nat.zero_le _) (Finset.mem_range.mpr hlt)) hsize
  constructor
  · intro hexact
    by_cases hlinear : (ofImage image).arrayMode = .linearAligned
    · exact .inl hlinear
    · right
      intro mip hlt
      have hm := (hexact.mip mip ((ofImage image).wrappedMip mip) (by simp [hlt])).size
      exact ((hs.wrappedBytes_eq_iff image.numLayers_pos (hmip mip hlt)).mp hm).resolve_left hlinear
  · intro hcond
    have heq : ∀ mip < (ofImage image).levels,
      (ofImage image).wrappedBytes mip = (ofImage image).exactBytes mip := by
      intro mip hlt
      exact (hs.wrappedBytes_eq_iff image.numLayers_pos (hmip mip hlt)).mpr (hcond.imp id fun h =>
        h mip hlt)
    -- no prefix of the sizes wraps
    have hsum : ∀ n ≤ (ofImage image).levels,
      (∑ i ∈ Finset.range n, (ofImage image).wrappedBytes i) % 2 ^ 32 =
        ∑ i ∈ Finset.range n, (ofImage image).exactBytes i := by
      intro n hn
      rw [Finset.sum_congr rfl fun i hi => heq i (Nat.lt_of_lt_of_le (Finset.mem_range.mp hi) hn)]
      apply Nat.mod_eq_of_lt
      apply Nat.lt_of_le_of_lt _ hsize
      exact Finset.sum_le_sum_of_subset (Finset.range_subset_range.mpr hn)
    constructor
    · simp
    · intro mip m hget
      obtain ⟨hlt, rfl⟩ : mip < (ofImage image).levels ∧ (ofImage image).wrappedMip mip = m := by
        simpa [List.getElem?_map, List.getElem?_range, Option.map_eq_some_iff,
          List.getElem?_eq_some_iff] using hget
      obtain ⟨hcovers, haligned, _⟩ := hs.mipInfo mip
      exact ⟨rfl, rfl, hcovers, haligned, heq mip hlt, hsum mip (Nat.le_of_lt hlt)⟩
    · exact hsum _ (Nat.le_refl _)

/-- A square of micro tiles with 32 bits a texel. -/
def sampleImage (side : Fin (2 ^ 14)) : Image where
  width := side
  height := side
  depth := 0
  pitch := side
  lastLevel := ⟨0, Nat.zero_lt_succ 15⟩
  pow2pad := false
  type := .color2D
  isBlock := false
  numBits := 32
  arrayMode := .tiled1DThin1
  macroTileExtents := (0, 0)

theorem layout_exact_sample :
    ∃ mips guestSize, (ofImage (sampleImage 63)).updateSize wrap32 = some (mips, guestSize) ∧
    (ofImage (sampleImage 63)).ExactLayout mips guestSize := by
  obtain ⟨mips, guestSize, hupdate, hiff⟩ := layout_exact_iff (sampleImage 63)
    ⟨by decide, by decide, by decide, fun h => absurd h (by decide)⟩ (by decide)
  exact ⟨mips, guestSize, hupdate, hiff.mpr (.inr (by decide))⟩

/-- An image of 16384 by 16384 texels has a gibibyte, and is laid out with no byte. -/
theorem layout_wraps : (ofImage (sampleImage 16383)).exactSize = 2 ^ 30 ∧
    (ofImage (sampleImage 16383)).updateSize wrap32 = some ([⟨0, 16384, 16384, 0⟩], 0) := by
  decide

end PS4Droid.VideoCore
