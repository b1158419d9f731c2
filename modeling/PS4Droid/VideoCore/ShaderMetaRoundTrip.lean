import Mathlib.Tactic.Ring
import PS4Droid.Common.Serdes

/-!
# The round trip of shader metadata

Each `Serialize` adds certain bytes to the archive, and the `Deserialize` beside it gets the values
back from these bytes. What the archive had before, and the room that was made ahead, play no role.
-/

namespace PS4Droid.VideoCore.ShaderMeta

open Common.Serialization

/-!
### Metadata

`Serialize` and `Deserialize` of stage specializations and shader infos in
`vk_pipeline_serialization.cpp`. Types that are copied as a whole are objects of the size that the
ABI gives them; the theorems hold for any sizes.
-/

/-- `sizeof` of the types that are copied as a whole. -/
structure Abi where
  runtimeInfo : ℕ
  infoPersistent : ℕ
  vsAttribSpecialization : ℕ
  bufferSpecialization : ℕ
  imageSpecialization : ℕ
  samplerSpecialization : ℕ

/-- `Backend::Bindings`. -/
structure Bindings where
  unified : UInt32 := 0
  buffer : UInt32 := 0
  userData : UInt32 := 0

instance : TriviallyCopyable Bindings :=
  .ofFields (fun b => (b.unified, b.buffer, b.userData)) (fun b => ⟨b.1, b.2.1, b.2.2⟩) fun _ => rfl

structure VertexAttribute where
  semantic : UInt8
  destVgpr : UInt8
  numElements : UInt8
  sgprBase : UInt8
  dwordOffset : UInt8
  instanceData : UInt8
  instOffset : UInt8
  dataFormat : UInt8 := 0
  numFormat : UInt8 := 0

instance : TriviallyCopyable VertexAttribute where
  size := 9
  toBytes a := [a.semantic, a.destVgpr, a.numElements, a.sgprBase, a.dwordOffset, a.instanceData,
    a.instOffset, a.dataFormat, a.numFormat]
  ofBytes bytes :=
    ⟨bytes.getD 0 0, bytes.getD 1 0, bytes.getD 2 0, bytes.getD 3 0, bytes.getD 4 0, bytes.getD 5 0,
    bytes.getD 6 0, bytes.getD 7 0, bytes.getD 8 0⟩
  length_toBytes _ := rfl
  ofBytes_toBytes _ := rfl

/-- The register numbers are `s8`. -/
structure FetchShaderData where
  size : UInt32 := 0
  attributes : List VertexAttribute := []
  vertexOffsetSgpr : UInt8 := 255
  instanceOffsetSgpr : UInt8 := 255

namespace FetchShaderData

/-- `sizeof(FetchShaderData)`: the size, the three pointers of the vector, and the two registers
with their padding. -/
def sizeof : UInt64 := 40

def serialize (fetch : FetchShaderData) : Serde Unit := do
  grow (6 + fetch.attributes.length * 9)
  write fetch.size
  write fetch.vertexOffsetSgpr
  write fetch.instanceOffsetSgpr
  writeContainer fetch.attributes

def deserialize (fetch : FetchShaderData) : Serde FetchShaderData := do
  let size ← read UInt32
  let vertexOffsetSgpr ← read UInt8
  let instanceOffsetSgpr ← read UInt8
  let attributes ← readContainer fetch.attributes
  pure ⟨size, attributes, vertexOffsetSgpr, instanceOffsetSgpr⟩

end FetchShaderData

/-! ### The resource bitset -/

def maxStageResources : ℕ := 128

/-- `std::bitset::to_string` of the low bits of a number, the highest first. -/
def bitChars : ℕ → ℕ → List UInt8
  | 0, _ => []
  | n + 1, v => bitChars n (v / 2) ++ [if v % 2 = 1 then 49 else 48]

/-- The constructor of `std::bitset` from a string, which throws for other characters than
digits. -/
def bitsOf (chars : List UInt8) : Option ℕ :=
  if (chars.take maxStageResources).all fun c => decide (c = 48 ∨ c = 49) then
    some ((chars.take maxStageResources).foldl (fun v c => 2 * v + if c = 49 then 1 else 0) 0)
  else none

/-! ### Stage specializations -/

structure StageSpecialization (abi : Abi) where
  runtimeInfo : Object abi.runtimeInfo := ⟨List.replicate abi.runtimeInfo 0, List.length_replicate⟩
  bitset : BitVec 128 := 0
  fetchShaderData : Option FetchShaderData := none
  vsAttribs : List (Object abi.vsAttribSpecialization) := []
  buffers : List (Object abi.bufferSpecialization) := []
  images : List (Object abi.imageSpecialization) := []
  fmasks : List (Object 8) := []
  samplers : List (Object abi.samplerSpecialization) := []
  start : Bindings := {}

namespace StageSpecialization

variable {abi : Abi}

def serialize (spec : StageSpecialization abi) : Serde Unit := do
  write spec.start
  write spec.runtimeInfo
  writeString (bitChars maxStageResources spec.bitset.toNat)
  match spec.fetchShaderData with
  | some fetch => do
    write FetchShaderData.sizeof
    fetch.serialize
  | none => write (0 : UInt64)
  writeContainer spec.vsAttribs
  writeContainer spec.buffers
  writeContainer spec.images
  writeContainer spec.fmasks
  writeContainer spec.samplers

def deserialize (spec : StageSpecialization abi) : Serde (StageSpecialization abi) := do
  let start ← read Bindings
  let runtimeInfo ← read (Object abi.runtimeInfo)
  let bits ← readString
  let bitset ← fun ar => (bitsOf bits).map fun v => (BitVec.ofNat 128 v, ar)
  let fetchDataSize ← read UInt64
  let fetchShaderData ← if fetchDataSize ≠ 0 then do
      let fetch ← FetchShaderData.deserialize {}
      pure (some fetch)
    else pure spec.fetchShaderData
  let vsAttribs ← readContainer spec.vsAttribs
  let buffers ← readContainer spec.buffers
  let images ← readContainer spec.images
  let fmasks ← readContainer spec.fmasks
  let samplers ← readContainer spec.samplers
  pure { runtimeInfo, bitset, fetchShaderData, vsAttribs, buffers, images, fmasks, samplers, start }

end StageSpecialization

/-! ### Shader infos -/

/-- The object in memory, with its padding. -/
structure PersistentSrtInfo where
  walkerFunc : UInt64 := 0
  walkerFuncSize : UInt64 := 0
  flattenedBufsizeDw : UInt32 := 16
  padding : UInt32 := 0

instance : TriviallyCopyable PersistentSrtInfo :=
  .ofFields (fun srt => (srt.walkerFunc, srt.walkerFuncSize, srt.flattenedBufsizeDw, srt.padding))
    (fun srt => ⟨srt.1, srt.2.1, srt.2.2.1, srt.2.2.2⟩) fun _ => rfl

namespace PersistentSrtInfo

/-- The code of the walker is in the memory that it points to. -/
def serialize (memory : UInt64 → (n : ℕ) → Object n) (srt : PersistentSrtInfo) : Serde Unit := do
  write srt
  if srt.walkerFuncSize ≠ 0 then writeBytes (memory srt.walkerFunc srt.walkerFuncSize.toNat).bytes
    else pure ()

/-- `register` is `RegisterWalkerCode`: the address of a copy of the code, or null. -/
def deserialize (register : List UInt8 → UInt64) : Serde (PersistentSrtInfo × Bool) := do
  let srt ← read PersistentSrtInfo
  if srt.walkerFuncSize ≠ 0 then do
    let code ← readBytes srt.walkerFuncSize.toNat
    pure ({ srt with walkerFunc := register code }, decide (register code ≠ 0))
  else pure (srt, true)

end PersistentSrtInfo

/-- The persistent part of an info, and what else is written. -/
structure Info (abi : Abi) where
  persistent : Object abi.infoPersistent :=
    ⟨List.replicate abi.infoPersistent 0, List.length_replicate⟩
  flattenedUdBuf : List UInt32 := []
  srtInfo : PersistentSrtInfo := {}

namespace Info

variable {abi : Abi}

def serialize (memory : UInt64 → (n : ℕ) → Object n) (info : Info abi) : Serde Unit := do
  write info.persistent
  writeContainer info.flattenedUdBuf
  info.srtInfo.serialize memory

def deserialize (register : List UInt8 → UInt64) (info : Info abi) : Serde (Info abi × Bool) := do
  let persistent ← read (Object abi.infoPersistent)
  let flattenedUdBuf ← readContainer info.flattenedUdBuf
  let (srtInfo, result) ← PersistentSrtInfo.deserialize register
  pure ({ persistent, flattenedUdBuf, srtInfo }, result)

end Info

/-! ### The round trip -/

variable {abi : Abi} {memory : UInt64 → (n : ℕ) → Object n} {register : List UInt8 → UInt64}

/-! ### The resource bitset -/

theorem length_bitChars (n v : ℕ) : (bitChars n v).length = n := by
  induction n generalizing v with
  | zero => rfl
  | succ n ih => rw [bitChars, List.length_append, ih, List.length_singleton]

theorem bitChars_digits {n v : ℕ} {c : UInt8} (hc : c ∈ bitChars n v) : c = 48 ∨ c = 49 := by
  induction n generalizing v with
  | zero => cases hc
  | succ n ih =>
    rw [bitChars] at hc
    obtain hc | hc := List.mem_append.mp hc
    · exact ih hc
    · rw [List.mem_singleton.mp hc]
      split_ifs
      · exact .inr rfl
      · exact .inl rfl

theorem foldl_bitChars (n v acc : ℕ) :
    (bitChars n v).foldl (fun v c => 2 * v + if c = 49 then 1 else 0) acc =
      acc * 2 ^ n + v % 2 ^ n := by
  induction n generalizing v with
  | zero => rw [bitChars, List.foldl_nil, Nat.pow_zero, Nat.mul_one, Nat.mod_one, Nat.add_zero]
  | succ n ih =>
    have hmod : v % 2 ^ (n + 1) = v % 2 + 2 * (v / 2 % 2 ^ n) := by rw [Nat.pow_succ', Nat.mod_mul]
    have hdigit : (if (if v % 2 = 1 then (49 : UInt8) else 48) = 49 then 1 else 0) = v % 2 := by
      obtain h | h := Nat.mod_two_eq_zero_or_one v <;> rw [h] <;> rfl
    rw [bitChars, List.foldl_append, ih, List.foldl_cons, List.foldl_nil, hdigit, hmod,
      Nat.pow_succ]
    ring

theorem bitsOf_bitChars (bits : BitVec 128) :
    (bitsOf (bitChars maxStageResources bits.toNat)).map (BitVec.ofNat 128) = some bits := by
  have htake : (bitChars maxStageResources bits.toNat).take maxStageResources =
    bitChars maxStageResources bits.toNat :=
    List.take_of_length_le (Nat.le_of_eq (length_bitChars _ _))
  have hall : (bitChars maxStageResources bits.toNat).all (fun c => decide (c = 48 ∨ c = 49)) =
    true := by
    rw [List.all_eq_true]
    exact fun c hc => decide_eq_true (bitChars_digits hc)
  rw [bitsOf, htake, if_pos hall, foldl_bitChars, Nat.zero_mul, Nat.zero_add, Option.map_some,
    maxStageResources, Nat.mod_eq_of_lt bits.isLt, BitVec.ofNat_toNat, BitVec.setWidth_eq]

/-! ### Fetch shader data -/

namespace FetchShaderData

def bytes (fetch : FetchShaderData) : List UInt8 :=
  TriviallyCopyable.toBytes fetch.size ++ (TriviallyCopyable.toBytes fetch.vertexOffsetSgpr ++
    (TriviallyCopyable.toBytes fetch.instanceOffsetSgpr ++ containerBytes fetch.attributes))

theorem writes (fetch : FetchShaderData) : Writes fetch.serialize fetch.bytes :=
  (Writes.grow _).seq
    ((Writes.write _).seq ((Writes.write _).seq ((Writes.write _).seq (Writes.writeContainer _))))

theorem reads (fetch : FetchShaderData) (h : fetch.attributes.length < 2 ^ 31) :
    Reads (deserialize {}) fetch.bytes fetch := by
  refine (Reads.read fetch.size).bind ((Reads.read fetch.vertexOffsetSgpr).bind
    ((Reads.read fetch.instanceOffsetSgpr).bind ?_))
  exact (Reads.readContainer h).map (fun attributes =>
    FetchShaderData.mk fetch.size attributes fetch.vertexOffsetSgpr
    fetch.instanceOffsetSgpr)

end FetchShaderData

/-! ### Stage specializations -/

namespace StageSpecialization

/-- No list is longer than an `int` can count. -/
structure Countable (spec : StageSpecialization abi) : Prop where
  attributes : ∀ fetch, spec.fetchShaderData = some fetch → fetch.attributes.length < 2 ^ 31
  vsAttribs : spec.vsAttribs.length < 2 ^ 31
  buffers : spec.buffers.length < 2 ^ 31
  images : spec.images.length < 2 ^ 31
  fmasks : spec.fmasks.length < 2 ^ 31
  samplers : spec.samplers.length < 2 ^ 31

def fetchBytes (spec : StageSpecialization abi) : List UInt8 :=
  match spec.fetchShaderData with
  | some fetch => TriviallyCopyable.toBytes FetchShaderData.sizeof ++ fetch.bytes
  | none => TriviallyCopyable.toBytes (0 : UInt64)

def bytes (spec : StageSpecialization abi) : List UInt8 :=
  TriviallyCopyable.toBytes spec.start ++ (TriviallyCopyable.toBytes spec.runtimeInfo ++
    (stringBytes (bitChars maxStageResources spec.bitset.toNat) ++
      (spec.fetchBytes ++ (containerBytes spec.vsAttribs ++
      (containerBytes spec.buffers ++ (containerBytes spec.images ++ (containerBytes spec.fmasks ++
        containerBytes spec.samplers)))))))

theorem writes (spec : StageSpecialization abi) : Writes spec.serialize spec.bytes := by
  have hlists : Writes (do
      writeContainer spec.vsAttribs
      writeContainer spec.buffers
      writeContainer spec.images
      writeContainer spec.fmasks
      writeContainer spec.samplers)
        (containerBytes spec.vsAttribs ++ (containerBytes spec.buffers ++
        (containerBytes spec.images ++
          (containerBytes spec.fmasks ++ containerBytes spec.samplers)))) :=
    (Writes.writeContainer _).seq ((Writes.writeContainer _).seq ((Writes.writeContainer _).seq
      ((Writes.writeContainer _).seq (Writes.writeContainer _))))
  refine (Writes.write spec.start).seq
    ((Writes.write spec.runtimeInfo).seq ((Writes.writeString _).seq ?_))
  rw [fetchBytes]
  cases spec.fetchShaderData with
  | none => exact (Writes.write (0 : UInt64)).seq hlists
  | some fetch =>
    have hfetch := (Writes.write FetchShaderData.sizeof).seq (fetch.writes.seq hlists)
    rw [← List.append_assoc] at hfetch
    exact hfetch

theorem runs (spec : StageSpecialization abi) (h : spec.Countable)
    {samplers : List (Object abi.samplerSpecialization)}
    {result : Option (List (Object abi.samplerSpecialization))}
    (hsamplers : Runs (readContainer []) (containerBytes samplers) result) :
    Runs (deserialize {}) (bytes { spec with samplers })
    (result.map fun samplers => { spec with samplers }) := by
  have hchars : (bitChars maxStageResources spec.bitset.toNat).length < 2 ^ 31 := by
    rw [length_bitChars]
    decide
  have hbitset : Reads (fun ar =>
    (bitsOf (bitChars maxStageResources spec.bitset.toNat)).map fun v => (BitVec.ofNat 128 v, ar))
      [] spec.bitset := by
    intro before behind _
    obtain ⟨v, hv, hbits⟩ := Option.map_eq_some_iff.mp (bitsOf_bitChars spec.bitset)
    simp only [hv, Option.map_some, hbits]
    rfl
  have hlists : ∀ fetchShaderData, Runs (do
      let vsAttribs ← readContainer []
      let buffers ← readContainer []
      let images ← readContainer []
      let fmasks ← readContainer []
      let samplers ← readContainer []
      pure { spec with fetchShaderData, vsAttribs, buffers, images, fmasks, samplers })
        (containerBytes spec.vsAttribs ++
        (containerBytes spec.buffers ++
          (containerBytes spec.images ++ (containerBytes spec.fmasks ++
          containerBytes samplers))))
            (result.map fun samplers => { spec with fetchShaderData, samplers }) := by
    intro fetchShaderData
    refine (Reads.readContainer h.vsAttribs).bind ((Reads.readContainer h.buffers).bind
      ((Reads.readContainer h.images).bind ((Reads.readContainer h.fmasks).bind ?_)))
    exact hsamplers.map fun samplers => { spec with fetchShaderData, samplers }
  refine (Reads.read spec.start).bind
    ((Reads.read spec.runtimeInfo).bind ((Reads.readString hchars).bind ?_))
  refine hbitset.bind ?_
  rw [fetchBytes]
  cases hfetch : spec.fetchShaderData with
  | none =>
    refine (Reads.read (0 : UInt64)).bind ?_
    simp only [ne_eq, not_true_eq_false, if_false, pure_bind]
    exact hlists none
  | some fetch =>
    simp only
    refine (Reads.read FetchShaderData.sizeof).bind ?_
    have hsizeof : FetchShaderData.sizeof ≠ 0 := by decide
    simp only [if_pos hsizeof, pure_bind]
    exact (fetch.reads (h.attributes fetch hfetch)).bind (hlists (some fetch))

theorem reads (spec : StageSpecialization abi) (h : spec.Countable) :
    Reads (deserialize {}) spec.bytes spec :=
  spec.runs h (Reads.readContainer h.samplers)

theorem wraps (spec : StageSpecialization abi) : Wraps spec.serialize := by
  have hlists : Wraps (do
      writeContainer spec.vsAttribs
      writeContainer spec.buffers
      writeContainer spec.images
      writeContainer spec.fmasks
      writeContainer spec.samplers) :=
    (Wraps.writeContainer _).seq ((Wraps.writeContainer _).seq ((Wraps.writeContainer _).seq
      ((Wraps.writeContainer _).seq (Wraps.writeContainer _))))
  refine (Wraps.writeBytes _).seq ((Wraps.writeBytes _).seq ?_)
  refine ((Wraps.writeBytes _).seq (Wraps.writeBytes _)).seq ?_
  cases spec.fetchShaderData with
  | none => exact (Wraps.writeBytes _).seq hlists
  | some fetch =>
    have hfetch : Wraps fetch.serialize :=
      (Wraps.grow _).seq ((Wraps.writeBytes _).seq ((Wraps.writeBytes _).seq
      ((Wraps.writeBytes _).seq (Wraps.writeContainer _))))
    exact (Wraps.writeBytes _).seq (hfetch.seq hlists)

end StageSpecialization

/-! ### Shader infos -/

namespace PersistentSrtInfo

/-- The code of the walker, if there is one. -/
def code (memory : UInt64 → (n : ℕ) → Object n) (srt : PersistentSrtInfo) : List UInt8 :=
  if srt.walkerFuncSize ≠ 0 then (memory srt.walkerFunc srt.walkerFuncSize.toNat).bytes else []

/-- The info with its walker where a copy of the code has been registered. -/
def registered (memory : UInt64 → (n : ℕ) → Object n) (register : List UInt8 → UInt64)
    (srt : PersistentSrtInfo) :
    PersistentSrtInfo × Bool :=
  if srt.walkerFuncSize ≠ 0 then
    ({ srt with walkerFunc := register (srt.code memory) }, decide (register (srt.code memory) ≠ 0))
  else (srt, true)

theorem writes (memory : UInt64 → (n : ℕ) → Object n) (srt : PersistentSrtInfo) :
    Writes (srt.serialize memory) (TriviallyCopyable.toBytes srt ++ srt.code memory) := by
  rw [serialize, code]
  refine (Writes.write srt).seq ?_
  split_ifs
  · exact .writeBytes _
  · exact .pure

theorem reads (memory : UInt64 → (n : ℕ) → Object n) (register : List UInt8 → UInt64)
    (srt : PersistentSrtInfo) :
    Reads (deserialize register) (TriviallyCopyable.toBytes srt ++ srt.code memory)
    (srt.registered memory register) := by
  rw [registered, deserialize]
  refine (Reads.read srt).bind ?_
  by_cases hsize : srt.walkerFuncSize ≠ 0
  · have hcode : srt.code memory = (memory srt.walkerFunc srt.walkerFuncSize.toNat).bytes :=
      if_pos hsize
    have hbytes := Reads.readBytes (srt.code memory)
    rw [hcode, (memory srt.walkerFunc srt.walkerFuncSize.toNat).length, ← hcode] at hbytes
    simp only [if_pos hsize]
    exact hbytes.map fun code => ({ srt with walkerFunc := register code },
      decide (register code ≠ 0))
  · have hcode : srt.code memory = [] := if_neg hsize
    simp only [if_neg hsize, hcode]
    exact Reads.pure _

end PersistentSrtInfo

namespace Info

def bytes (memory : UInt64 → (n : ℕ) → Object n) (info : Info abi) : List UInt8 :=
  TriviallyCopyable.toBytes info.persistent ++ (containerBytes info.flattenedUdBuf ++
    (TriviallyCopyable.toBytes info.srtInfo ++ info.srtInfo.code memory))

/-- The info with its walker where a copy of the code has been registered, and the answer of
`Deserialize`. -/
def registered (memory : UInt64 → (n : ℕ) → Object n) (register : List UInt8 → UInt64)
    (info : Info abi) : Info abi × Bool :=
  ({ info with srtInfo := (info.srtInfo.registered memory register).1 },
    (info.srtInfo.registered memory register).2)

theorem writes (memory : UInt64 → (n : ℕ) → Object n) (info : Info abi) :
    Writes (info.serialize memory) (info.bytes memory) :=
  (Writes.write info.persistent).seq ((Writes.writeContainer _).seq (info.srtInfo.writes memory))

theorem reads (memory : UInt64 → (n : ℕ) → Object n) (register : List UInt8 → UInt64)
    (info : Info abi) (h : info.flattenedUdBuf.length < 2 ^ 31) :
    Reads (deserialize register {}) (info.bytes memory) (info.registered memory register) := by
  refine (Reads.read info.persistent).bind ((Reads.readContainer h).bind ?_)
  exact (info.srtInfo.reads memory register).map fun srt =>
    ({ info with srtInfo := srt.1 }, srt.2)

end Info

/-! ### Both -/

def serialize (memory : UInt64 → (n : ℕ) → Object n) (spec : StageSpecialization abi)
    (info : Info abi) : Serde Unit := do
  spec.serialize
  info.serialize memory

def deserialize (register : List UInt8 → UInt64) :
    Serde (StageSpecialization abi × Info abi × Bool) := do
  let spec ← StageSpecialization.deserialize {}
  let info ← Info.deserialize register {}
  pure (spec, info)

/-- What is serialized behind the offset of an archive is read back from there: the same values,
except that the walker is where a copy of its code has been registered, and just the bytes that have
been written. -/
def RoundTrips (memory : UInt64 → (n : ℕ) → Object n) (register : List UInt8 → UInt64)
    (spec : StageSpecialization abi) (info : Info abi) (ar : Archive) : Prop :=
  ∃ ar', serialize memory spec info ar = some ((), ar') ∧
    ar'.offset = ar.offset + (spec.bytes ++ info.bytes memory).length ∧
    ar'.container.take ar'.offset = ar.container.take ar.offset ++
      (spec.bytes ++ info.bytes memory) ∧
    deserialize register { ar' with offset := ar.offset } =
      some ((spec, info.registered memory register), ar')

/-- In every archive that stays below 4 GiB, with lists that an `int` can count. -/
theorem shaderMeta_roundTrips (memory : UInt64 → (n : ℕ) → Object n)
    (register : List UInt8 → UInt64)
    (spec : StageSpecialization abi) (info : Info abi) (ar : Archive)
    (hinside : ar.offset ≤ ar.container.length)
    (hspec : spec.Countable) (hinfo : info.flattenedUdBuf.length < 2 ^ 31)
    (hsize : ar.offset + (spec.bytes ++ info.bytes memory).length < 2 ^ 32) :
    RoundTrips memory register spec info ar := by
  have hwrites := spec.writes.seq (info.writes memory)
  have hreads : Reads (deserialize register) (spec.bytes ++ info.bytes memory) (spec,
    info.registered memory register) :=
    (spec.reads hspec).bind ((info.reads memory register hinfo).map fun info => (spec, info))
  obtain ⟨ar', hrun, happended⟩ := hwrites ar hinside hsize
  exact ⟨ar', hrun, happended.offset, happended.written, hreads.of_appended happended hinside hsize⟩

/-! ### Archives that are too long -/

theorem serialize_wraps (memory : UInt64 → (n : ℕ) → Object n) (spec : StageSpecialization abi)
    (info : Info abi) :
    Wraps (serialize memory spec info) := by
  refine spec.wraps.seq
    ((Wraps.writeBytes _).seq ((Wraps.writeContainer _).seq ((Wraps.writeBytes _).seq ?_)))
  split_ifs
  · exact .writeBytes _
  · exact .pure

variable {spec : StageSpecialization abi} {info : Info abi} {ar : Archive}

theorem not_roundTrips_of_offset (hoffset : ar.offset < 2 ^ 32)
    (hsize : 2 ^ 32 ≤ ar.offset + (spec.bytes ++ info.bytes memory).length) :
    ¬RoundTrips memory register spec info ar := by
  rintro ⟨ar', hrun, hend, -⟩
  have hlt := serialize_wraps memory spec info ar () ar' hrun hoffset
  omega

theorem not_roundTrips_of_samplers
    {samplers : List (Object abi.samplerSpecialization)} (hinside : ar.offset ≤ ar.container.length)
    (h : spec.Countable)
    (hlow : 2 ^ 31 ≤ samplers.length) (hhigh : samplers.length < 2 ^ 64)
    (hsize : ar.offset +
      (StageSpecialization.bytes { spec with samplers } ++ info.bytes memory).length < 2 ^ 32) :
    ¬RoundTrips memory register { spec with samplers } info ar := by
  rintro ⟨ar', -, -, hwritten, hread⟩
  have hfront : (ar.container.take ar.offset).length = ar.offset := List.length_take_of_le hinside
  have hshape : ar'.container = ar.container.take ar.offset ++ StageSpecialization.bytes
    { spec with samplers } ++ (info.bytes memory ++ ar'.container.drop ar'.offset) := by
    rw [← List.append_assoc, List.append_assoc _ (StageSpecialization.bytes _), ← hwritten,
      List.take_append_drop]
  rw [List.length_append] at hsize
  have hnone := spec.runs h (Runs.readContainer_long hlow hhigh) (ar.container.take ar.offset)
    (info.bytes memory ++ ar'.container.drop ar'.offset) (by rw [hfront]; omega)
  rw [← hshape, hfront] at hnone
  change (StageSpecialization.deserialize {} _).bind _ = some _ at hread
  rw [hnone] at hread
  cases hread

/-! ### Examples -/

/-- The sizes where words have 64 bits. -/
def abi64 : Abi where
  runtimeInfo := 248
  infoPersistent := 3176
  vsAttribSpecialization := 12
  bufferSpecialization := 12
  imageSpecialization := 32
  samplerSpecialization := 1

def nops (_ : UInt64) (n : ℕ) : Object n := ⟨List.replicate n 0x90, List.length_replicate⟩

def registerAt (code : List UInt8) : UInt64 := if code = [] then 0 else 0x10000

def fetchingSpec : StageSpecialization abi64 where
  bitset := 5
  fetchShaderData :=
    some { size := 24, attributes := [⟨0, 4, 4, 2, 0, 0, 0, 0, 0⟩, ⟨1, 8, 2, 2, 4, 1, 0, 0, 0⟩] }
  fmasks := [⟨List.replicate 8 1, List.length_replicate⟩]
  samplers := [⟨[2], rfl⟩, ⟨[3], rfl⟩]

def walkingInfo : Info abi64 where
  flattenedUdBuf := [1, 2, 3]
  srtInfo := { walkerFunc := 0x7000, walkerFuncSize := 7, flattenedBufsizeDw := 20 }

theorem fetchingSpec_countable : fetchingSpec.Countable := by
  refine ⟨fun fetch hfetch => ?_, by decide, by decide, by decide, by decide, by decide⟩
  cases hfetch
  decide

theorem shaderMeta_roundTrips_example :
    RoundTrips nops registerAt fetchingSpec walkingInfo ⟨2, [7, 8, 9]⟩ :=
  shaderMeta_roundTrips nops registerAt fetchingSpec walkingInfo ⟨2,
    [7, 8, 9]⟩ (by decide) fetchingSpec_countable (by decide)
    (by decide +kernel)

theorem length_with_samplers (spec : StageSpecialization abi)
    (samplers : List (Object abi.samplerSpecialization)) :
    (StageSpecialization.bytes { spec with samplers }).length +
      (containerBytes spec.samplers).length =
      spec.bytes.length + (containerBytes samplers).length := by
  simp only [StageSpecialization.bytes, StageSpecialization.fetchBytes, List.length_append]
  omega

/-- An archive that is full up to 4 GiB, and 2 ^ 31 samplers. -/
theorem shaderMeta_roundTrips_fails :
    (∃ ar : Archive, ar.offset < 2 ^ 32 ∧ ar.offset ≤ ar.container.length ∧
      ¬RoundTrips nops registerAt fetchingSpec walkingInfo ar) ∧
    ∃ samplers : List (Object 1), samplers.length = 2 ^ 31 ∧
      ¬RoundTrips nops registerAt { fetchingSpec with samplers } walkingInfo {} := by
  constructor
  · obtain ⟨n, hn⟩ : ∃ n, n = 2 ^ 32 - 1 := ⟨_, rfl⟩
    refine ⟨⟨n, List.replicate n 0⟩, by simp only; omega, by rw [List.length_replicate],
      not_roundTrips_of_offset ?_ ?_⟩
    · simp only
      omega
    · have hpos : 0 < (fetchingSpec.bytes ++ walkingInfo.bytes nops).length := by decide +kernel
      simp only
      omega
  · obtain ⟨n, hn⟩ : ∃ n, n = 2 ^ 31 := ⟨_, rfl⟩
    obtain ⟨samplers, hlength⟩ : ∃ samplers : List (Object abi64.samplerSpecialization),
      samplers.length = n :=
      ⟨List.replicate n ⟨[0], rfl⟩, List.length_replicate⟩
    have hsamplers := length_with_samplers fetchingSpec samplers
    have hspec : fetchingSpec.bytes.length + (walkingInfo.bytes nops).length < 10000 := by
      decide +kernel
    have hcontainer := length_containerBytes samplers
    have hone : TriviallyCopyable.size (Object abi64.samplerSpecialization) = 1 := rfl
    rw [hlength, hone] at hcontainer
    rw [hcontainer] at hsamplers
    refine ⟨samplers, hlength.trans hn, ?_⟩
    refine not_roundTrips_of_samplers (Nat.le_refl 0) fetchingSpec_countable (by omega)
      (by omega) ?_
    rw [List.length_append]
    simp only [Nat.zero_add]
    omega

end PS4Droid.VideoCore.ShaderMeta
