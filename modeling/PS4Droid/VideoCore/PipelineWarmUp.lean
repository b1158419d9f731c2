import Mathlib.Data.Fintype.Basic
import PS4Droid.Foundations.Lockstep

/-!
# Loading cached pipelines

`PipelineCache::WarmUp` reads the stored pipeline keys one after another and builds the pipeline
of each from the stored metadata and binaries of its stages (`vk_pipeline_serialization.cpp`). The
stages are collected in members of the cache that all keys share.

The parts of the shader descriptions that the loader only passes on are type parameters. A shader
module is identified with the code it was compiled from, and a pointer to the description of a
program with the hash under which `program_cache` holds the program.
-/

namespace PS4Droid.VideoCore

def shaderBinaryVersion : ℕ := 2

def shaderMetaVersion : ℕ := 2

def pipelineKeyVersion : ℕ := 2

/-- `MaxShaderStages`: fragment, tessellation control and evaluation, vertex, geometry and
compute, in the order of `LogicalStage`. -/
abbrev StageIndex := Fin 6

structure ShaderModule where
  spv : List ℕ
  deriving DecidableEq

/-- `Shader::Info`. -/
structure ShaderInfo (ι : Type) where
  pgmHash : ℕ
  resources : ι
  deriving DecidableEq

structure StageSpecialization (ρ φ : Type) where
  fetchShaderData : Option φ
  resources : ρ
  deriving DecidableEq

/-- A deserialised metadata blob. -/
structure ShaderMeta (ι ρ φ : Type) where
  metaVersion : ℕ
  binaryVersion : ℕ
  permHash : ℕ
  permIdx : ℕ
  spec : StageSpecialization ρ φ
  info : ShaderInfo ι
  deriving DecidableEq

/-- The blob store. A metadata blob that is missing is empty, and so is a missing binary. -/
structure DataBase (ι ρ φ : Type) where
  shaderMeta : ℕ → Option (ShaderMeta ι ρ φ)
  shaderBinary : ℕ → ℕ → List ℕ

/-- `Program::Module`. The entries that `InsertPermut` creates below the inserted one have no
module and no valid specialization. -/
structure Permutation (ρ φ : Type) where
  module : Option ShaderModule
  spec : Option (StageSpecialization ρ φ)

structure Program (ι ρ φ : Type) where
  info : ShaderInfo ι
  modules : List (Permutation ρ φ)

structure GraphicsPipelineKey (κ : Type) where
  stageHashes : StageIndex → ℕ
  state : κ
  deriving DecidableEq

structure GraphicsPipeline (σ φ : Type) where
  infos : StageIndex → Option ℕ
  modules : StageIndex → Option ShaderModule
  fetchShader : Option φ
  sdata : σ

structure ComputePipeline where
  info : ℕ
  module : Option ShaderModule

structure PipelineCache (ι ρ φ κ σ : Type) where
  programCache : ℕ → Option (Program ι ρ φ)
  computePipelines : ℕ → Option ComputePipeline
  graphicsPipelines : GraphicsPipelineKey κ → Option (GraphicsPipeline σ φ)
  infos : StageIndex → Option ℕ
  modules : StageIndex → Option ShaderModule
  fetchShader : Option φ

/-- The assertions of the loader, and the dereference of a null pointer. -/
inductive LoadAbort where
  | keyNotNew
  | permutationMoved
  | nullInfo
  deriving DecidableEq

/-- A stored pipeline key, with the header that selects how it is read. -/
inductive PipelineBlob (κ σ : Type) where
  | compute (version value : ℕ)
  | graphics (version : ℕ) (key : GraphicsPipelineKey κ) (sdata : σ)

variable {ι ρ φ κ σ : Type}

def Program.insertPermut (program : Program ι ρ φ) (module : Option ShaderModule)
    (spec : StageSpecialization ρ φ) (permIdx : ℕ) : Program ι ρ φ :=
  let resized := program.modules ++
    List.replicate (max program.modules.length (permIdx + 1) - program.modules.length) ⟨none, none⟩
  { program with modules := resized.set permIdx ⟨module, some spec⟩ }

/-- `LoadShaderMeta`, which leaves its outputs alone when a version is stale. -/
def loadShaderMeta (blob : ShaderMeta ι ρ φ) : Option (ShaderMeta ι ρ φ) :=
  if blob.metaVersion ≠ shaderMetaVersion then none
  else if blob.binaryVersion ≠ shaderBinaryVersion then none
  else some blob

section Loading

variable (same : StageSpecialization ρ φ → StageSpecialization ρ φ → Bool) (db : DataBase ι ρ φ)

/-- `std::ranges::find` over the permutations: an entry without a valid specialization is equal
to none. -/
def Program.findPermut (program : Program ι ρ φ) (spec : StageSpecialization ρ φ) : Option ℕ :=
  program.modules.findIdx? fun permut => permut.spec.any fun found => same found spec

/-- The module of a permutation: compiled, or taken from an equal permutation loaded before. -/
def findModule (program : Program ι ρ φ) (blob : ShaderMeta ι ρ φ) (spv : List ℕ) :
    Except LoadAbort (Option ShaderModule) :=
  match program.findPermut same blob.spec with
  | none => .ok (some ⟨spv⟩)
  | some idx =>
    if blob.permIdx = idx then .ok (program.modules[idx]?.bind Permutation.module)
    else .error .permutationMoved

def PipelineCache.loadPipelineStage (cache : PipelineCache ι ρ φ κ σ)
    (blob : ShaderMeta ι ρ φ) (stage : StageIndex) :
    Except LoadAbort (Bool × PipelineCache ι ρ φ κ σ) :=
  match loadShaderMeta blob with
  | none => .ok (false, cache)
  | some loaded =>
    -- the metadata is read straight into the shared member
    let cache := { cache with fetchShader := loaded.spec.fetchShaderData }
    let spv := db.shaderBinary loaded.info.pgmHash loaded.permIdx
    if spv = [] then .ok (false, cache)
    else
      let program := (cache.programCache loaded.info.pgmHash).getD ⟨loaded.info, []⟩
      match findModule same program loaded spv with
      | .error e => .error e
      | .ok module =>
        let program := program.insertPermut module loaded.spec loaded.permIdx
        .ok (true, { cache with
          programCache := Function.update cache.programCache loaded.info.pgmHash (some program)
          infos := Function.update cache.infos stage (some loaded.info.pgmHash)
          modules := Function.update cache.modules stage module })

/-- Loads a stage from the metadata stored under a hash. -/
def PipelineCache.loadStage (cache : PipelineCache ι ρ φ κ σ) (hash : ℕ) (stage : StageIndex) :
    Except LoadAbort (Bool × PipelineCache ι ρ φ κ σ) :=
  match db.shaderMeta hash with
  | none => .ok (false, cache)
  | some blob => cache.loadPipelineStage same db blob stage

def PipelineCache.loadComputePipeline (cache : PipelineCache ι ρ φ κ σ) (value : ℕ) :
    Except LoadAbort (Bool × PipelineCache ι ρ φ κ σ) := do
  let (loaded, cache) ← cache.loadStage same db value 0
  if ¬ loaded then return (false, cache)
  if (cache.computePipelines value).isSome then throw .keyNotNew
  match cache.infos 0 with
  | none => throw .nullInfo
  | some info =>
    return (true, { cache with
      computePipelines := Function.update cache.computePipelines value
        (some ⟨info, cache.modules 0⟩)
      infos := fun _ => none
      modules := fun _ => none })

/-- The loop over the stages of a graphics key. -/
def PipelineCache.loadStages (key : GraphicsPipelineKey κ) :
    List StageIndex → PipelineCache ι ρ φ κ σ → Except LoadAbort (Bool × PipelineCache ι ρ φ κ σ)
  | [], cache => .ok (true, cache)
  | stage :: rest, cache =>
    if key.stageHashes stage = 0 then loadStages key rest cache
    else
      match cache.loadStage same db (key.stageHashes stage) stage with
      | .error e => .error e
      | .ok (false, cache) => .ok (false, cache)
      | .ok (true, cache) => loadStages key rest cache

def PipelineCache.loadGraphicsPipeline [DecidableEq κ] (cache : PipelineCache ι ρ φ κ σ)
    (key : GraphicsPipelineKey κ) (sdata : σ) :
    Except LoadAbort (Bool × PipelineCache ι ρ φ κ σ) := do
  let (loaded, cache) ← cache.loadStages same db key (List.finRange 6)
  if ¬ loaded then return (false, cache)
  if (cache.graphicsPipelines key).isSome then throw .keyNotNew
  return (true, { cache with
    graphicsPipelines := Function.update cache.graphicsPipelines key
      (some ⟨cache.infos, cache.modules, cache.fetchShader, sdata⟩)
    infos := fun _ => none
    modules := fun _ => none
    fetchShader := none })

/-- What `WarmUp` does with one stored key. -/
def PipelineCache.loadBlob [DecidableEq κ] (cache : PipelineCache ι ρ φ κ σ)
    (blob : PipelineBlob κ σ) : Except LoadAbort (Bool × PipelineCache ι ρ φ κ σ) :=
  match blob with
  | .compute version value =>
    if version ≠ pipelineKeyVersion then .ok (false, cache)
    else cache.loadComputePipeline same db value
  | .graphics version key sdata =>
    if version ≠ pipelineKeyVersion then .ok (false, cache)
    else cache.loadGraphicsPipeline same db key sdata

/-- The loop of `WarmUp` over the stored keys. -/
def PipelineCache.warmUp [DecidableEq κ] (cache : PipelineCache ι ρ φ κ σ)
    (blobs : List (PipelineBlob κ σ)) : Except LoadAbort (PipelineCache ι ρ φ κ σ) :=
  blobs.foldlM (fun cache blob => Prod.snd <$> cache.loadBlob same db blob) cache

end Loading

/-- The cache as it is constructed. -/
def PipelineCache.empty : PipelineCache ι ρ φ κ σ where
  programCache := fun _ => none
  computePipelines := fun _ => none
  graphicsPipelines := fun _ => none
  infos := fun _ => none
  modules := fun _ => none
  fetchShader := none

/-! ## What a clean blob leaves behind -/

section Correctness

variable (db : DataBase ι ρ φ)

/-- The metadata under a hash, when its versions are current. -/
def DataBase.currentMeta (hash : ℕ) : Option (ShaderMeta ι ρ φ) :=
  (db.shaderMeta hash).bind loadShaderMeta

/-- The metadata under a hash, when its versions are current and its binary is stored. -/
def DataBase.loadable (hash : ℕ) : Option (ShaderMeta ι ρ φ) :=
  (db.currentMeta hash).filter fun loaded =>
    db.shaderBinary loaded.info.pgmHash loaded.permIdx ≠ []

/-- The stages of a key, in the order in which they are loaded. -/
def GraphicsPipelineKey.stages (key : GraphicsPipelineKey κ) : List StageIndex :=
  (List.finRange 6).filter fun stage => key.stageHashes stage ≠ 0

/-- A stage that has a hash uses the program and the module of its own metadata, one that has none
uses nothing. -/
def StageOf (hash : ℕ) (info : Option ℕ) (module : Option ShaderModule) : Prop :=
  if hash = 0 then info = none ∧ module = none
  else ∃ loaded, db.loadable hash = some loaded ∧ info = some loaded.info.pgmHash ∧
    module = some ⟨db.shaderBinary loaded.info.pgmHash loaded.permIdx⟩

/-- The fetch shader that the metadata under a hash records. -/
def DataBase.fetchShaderAt (hash : ℕ) : Option φ :=
  (db.currentMeta hash).bind fun loaded => loaded.spec.fetchShaderData

/-- The fetch shader is the one that a stage of the key records, and there is none when no stage
records one. -/
def FetchShaderOf (key : GraphicsPipelineKey κ) (fetchShader : Option φ) : Prop :=
  (∀ stage ∈ key.stages, db.fetchShaderAt (key.stageHashes stage) ≠ none →
    fetchShader = db.fetchShaderAt (key.stageHashes stage)) ∧
  ((∀ stage ∈ key.stages, db.fetchShaderAt (key.stageHashes stage) = none) → fetchShader = none)

/-- Every pipeline that is built uses the stages of its own key only. -/
structure PipelineCache.Faithful (cache : PipelineCache ι ρ φ κ σ) : Prop where
  graphics : ∀ key pipeline, cache.graphicsPipelines key = some pipeline →
    (∀ stage, StageOf db (key.stageHashes stage) (pipeline.infos stage) (pipeline.modules stage)) ∧
      FetchShaderOf db key pipeline.fetchShader
  compute : ∀ value pipeline, cache.computePipelines value = some pipeline →
    ∃ loaded, db.loadable value = some loaded ∧ pipeline.info = loaded.info.pgmHash ∧
      pipeline.module = some ⟨db.shaderBinary loaded.info.pgmHash loaded.permIdx⟩

/-- The members that collect the stages are empty. -/
def PipelineCache.Cleared (cache : PipelineCache ι ρ φ κ σ) : Prop :=
  (∀ stage, cache.infos stage = none) ∧ (∀ stage, cache.modules stage = none) ∧
    cache.fetchShader = none

/-- The blobs that the loader leaves nothing of behind: a compute shader records no fetch shader; a
graphics key has all its stages stored, and its last stage records the fetch shader when there is
one, or it fails at its first stage before any fetch shader is read. -/
def DataBase.Clean (blob : PipelineBlob κ σ) : Prop :=
  match blob with
  | .compute version value => version = pipelineKeyVersion → db.fetchShaderAt value = none
  | .graphics version key _ => version = pipelineKeyVersion →
    ((∀ stage ∈ key.stages, (db.loadable (key.stageHashes stage)).isSome) ∧
      ∀ stage ∈ key.stages, db.fetchShaderAt (key.stageHashes stage) ≠ none →
        ∀ last ∈ key.stages.getLast?,
          db.fetchShaderAt (key.stageHashes last) = db.fetchShaderAt (key.stageHashes stage)) ∨
    (∀ first ∈ key.stages.head?, db.loadable (key.stageHashes first) = none ∧
      db.fetchShaderAt (key.stageHashes first) = none) ∧ key.stages ≠ []

/-- A permutation of a program that is loaded holds the module of its own binary. -/
def Program.Stored (hash : ℕ) (program : Program ι ρ φ) : Prop :=
  ∀ (i : ℕ) (permut : Permutation ρ φ), program.modules[i]? = some permut → permut.spec ≠ none →
    permut.module = some ⟨db.shaderBinary hash i⟩

def PipelineCache.Stored (cache : PipelineCache ι ρ φ κ σ) : Prop :=
  ∀ hash program, cache.programCache hash = some program → program.Stored db hash

variable {db} {program : Program ι ρ φ} {loaded : ShaderMeta ι ρ φ} {stage : StageIndex}
  {fetchShader : Option φ} {after : PipelineCache ι ρ φ κ σ} {key : GraphicsPipelineKey κ}
  {stages : List StageIndex}

theorem Program.Stored.insertPermut {hash permIdx : ℕ}
    (h : program.Stored db hash) (spec : StageSpecialization ρ φ) :
    (program.insertPermut (some ⟨db.shaderBinary hash permIdx⟩) spec permIdx).Stored db hash := by
  intro i permut hi hspec
  simp only [Program.insertPermut] at hi
  rw [List.getElem?_set] at hi
  split_ifs at hi with heq hlt
  · cases hi
    rw [← heq]
  · rw [List.getElem?_append] at hi
    split_ifs at hi with hold
    · exact h i permut hi hspec
    · have hdefault := (List.mem_replicate.1 (List.mem_of_getElem? hi)).2
      rw [hdefault] at hspec
      exact absurd rfl hspec

theorem Program.Stored.findModule (same : StageSpecialization ρ φ → StageSpecialization ρ φ → Bool)
    (h : program.Stored db loaded.info.pgmHash) : Outcome (· = .permutationMoved)
      (findModule same program loaded (db.shaderBinary loaded.info.pgmHash loaded.permIdx))
      (· = some ⟨db.shaderBinary loaded.info.pgmHash loaded.permIdx⟩) := by
  unfold VideoCore.findModule
  cases hfind : program.findPermut same loaded.spec with
  | none => exact rfl
  | some idx =>
    by_cases hidx : loaded.permIdx = idx
    · simp only [hidx, if_true]
      obtain ⟨hlt, hvalid, -⟩ := List.findIdx?_eq_some_iff_getElem.1 hfind
      obtain ⟨spec, hspec, -⟩ := (Option.any_eq_true _ _).1 hvalid
      have hentry := h idx _ (List.getElem?_eq_getElem hlt) (by rw [hspec]; exact nofun)
      change program.modules[idx]?.bind Permutation.module = _
      rw [List.getElem?_eq_getElem hlt]
      exact hentry
    · simp only [if_neg hidx]
      exact rfl

variable {same : StageSpecialization ρ φ → StageSpecialization ρ φ → Bool}
  {cache : PipelineCache ι ρ φ κ σ}

theorem PipelineCache.loadStage_none {hash : ℕ}
    (hload : db.loadable hash = none) (hfetch : db.fetchShaderAt hash = none)
    (hcache : cache.fetchShader = none) :
    cache.loadStage same db hash stage = .ok (false, cache) := by
  unfold loadStage
  cases hblob : db.shaderMeta hash with
  | none => rfl
  | some blob =>
    simp only [loadPipelineStage]
    cases hmeta : loadShaderMeta blob with
    | none => rfl
    | some loaded =>
      have hcurrent : db.currentMeta hash = some loaded := by
        simp [DataBase.currentMeta, hblob, hmeta]
      have hspv : db.shaderBinary loaded.info.pgmHash loaded.permIdx = [] := by
        simpa [DataBase.loadable, hcurrent, Option.filter] using hload
      have hnone : loaded.spec.fetchShaderData = none := by
        simpa [DataBase.fetchShaderAt, hcurrent] using hfetch
      simp only [hspv, if_true, hnone, ← hcache]

/-- A stage that can be loaded adds its program and module and replaces the fetch shader. -/
structure PipelineCache.AddsStages (db : DataBase ι ρ φ) (added : StageIndex → Prop)
    [DecidablePred added] (hash : StageIndex → ℕ) (fetchShader : Option φ)
    (cache after : PipelineCache ι ρ φ κ σ) : Prop where
  stored : after.Stored db
  infos : ∀ stage, after.infos stage = if added stage then
    (db.loadable (hash stage)).map (fun loaded => loaded.info.pgmHash) else cache.infos stage
  modules : ∀ stage, after.modules stage = if added stage then
    (db.loadable (hash stage)).map
      (fun loaded => ⟨db.shaderBinary loaded.info.pgmHash loaded.permIdx⟩)
    else cache.modules stage
  fetchShader : after.fetchShader = fetchShader
  graphicsPipelines : after.graphicsPipelines = cache.graphicsPipelines
  computePipelines : after.computePipelines = cache.computePipelines

theorem DataBase.loadable_eq_some {hash : ℕ}
    (h : db.loadable hash = some loaded) : db.currentMeta hash = some loaded ∧
      db.shaderBinary loaded.info.pgmHash loaded.permIdx ≠ [] := by
  simpa [DataBase.loadable, Option.filter_eq_some_iff] using h

theorem PipelineCache.Stored.loadStage (hstored : cache.Stored db) (hash : StageIndex → ℕ)
    (hload : (db.loadable (hash stage)).isSome) :
    Outcome (· = .permutationMoved) (cache.loadStage same db (hash stage) stage) fun r =>
      r.1 = true ∧
        cache.AddsStages db (· = stage) hash (db.fetchShaderAt (hash stage)) r.2 := by
  obtain ⟨loaded, hloaded⟩ := Option.isSome_iff_exists.1 hload
  obtain ⟨hcurrent, hspv⟩ := DataBase.loadable_eq_some hloaded
  obtain ⟨blob, hblob, hmeta⟩ := Option.bind_eq_some_iff.1 hcurrent
  simp only [PipelineCache.loadStage, hblob, loadPipelineStage, hmeta, if_neg hspv]
  have hprogram : Program.Stored db loaded.info.pgmHash
      ((cache.programCache loaded.info.pgmHash).getD ⟨loaded.info, []⟩) := by
    cases hfound : cache.programCache loaded.info.pgmHash with
    | none => intro i permut hi; simp at hi
    | some program => exact hstored _ _ hfound
  have hfind := hprogram.findModule same
  cases hmodule : findModule same
      ((cache.programCache loaded.info.pgmHash).getD ⟨loaded.info, []⟩) loaded
      (db.shaderBinary loaded.info.pgmHash loaded.permIdx) with
  | error e =>
    rw [hmodule] at hfind
    exact hfind
  | ok module =>
    rw [hmodule] at hfind
    obtain rfl : module = some ⟨db.shaderBinary loaded.info.pgmHash loaded.permIdx⟩ := hfind
    refine ⟨rfl, ?_, ?_, ?_, ?_, rfl, rfl⟩
    · intro other program hother
      simp only [Function.update_apply] at hother
      split_ifs at hother with heq
      · cases hother
        rw [heq]
        exact hprogram.insertPermut loaded.spec
      · exact hstored other program hother
    · intro other
      simp only [Function.update_apply]
      split_ifs with heq
      · rw [heq, hloaded]
        rfl
      · rfl
    · intro other
      simp only [Function.update_apply]
      split_ifs with heq
      · rw [heq, hloaded]
        rfl
      · rfl
    · simp [DataBase.fetchShaderAt, hcurrent]

theorem PipelineCache.AddsStages.trans {added added' : StageIndex → Prop} [DecidablePred added]
    [DecidablePred added'] {hash : StageIndex → ℕ} {fetchShader' : Option φ}
    {middle : PipelineCache ι ρ φ κ σ} (h : cache.AddsStages db added hash fetchShader middle)
    (h' : middle.AddsStages db added' hash fetchShader' after) :
    cache.AddsStages db (fun stage => added stage ∨ added' stage) hash fetchShader' after where
  stored := h'.stored
  infos stage := by
    rw [h'.infos, h.infos]
    by_cases hnew : added' stage <;> by_cases hold : added stage <;> simp [hnew, hold]
  modules stage := by
    rw [h'.modules, h.modules]
    by_cases hnew : added' stage <;> by_cases hold : added stage <;> simp [hnew, hold]
  fetchShader := h'.fetchShader
  graphicsPipelines := h'.graphicsPipelines.trans h.graphicsPipelines
  computePipelines := h'.computePipelines.trans h.computePipelines

/-- The stages among `stages` that the loop of a key loads. -/
def GraphicsPipelineKey.Loads (key : GraphicsPipelineKey κ) (stages : List StageIndex)
    (stage : StageIndex) : Prop :=
  stage ∈ stages ∧ key.stageHashes stage ≠ 0

instance (key : GraphicsPipelineKey κ) (stages : List StageIndex) :
    DecidablePred (key.Loads stages) :=
  fun _ => inferInstanceAs (Decidable (_ ∧ _))

/-- The fetch shader after a loop over `stages`: each loaded stage replaces it. -/
def GraphicsPipelineKey.lastFetchShader (db : DataBase ι ρ φ) (key : GraphicsPipelineKey κ)
    (stages : List StageIndex) (before : Option φ) : Option φ :=
  (stages.filter fun stage => key.stageHashes stage ≠ 0).getLast?.elim before
    fun last => db.fetchShaderAt (key.stageHashes last)

theorem PipelineCache.Stored.loadStages (hload : ∀ stage ∈ stages, key.stageHashes stage ≠ 0 →
      (db.loadable (key.stageHashes stage)).isSome) (hstored : cache.Stored db) :
    Outcome (· = .permutationMoved) (PipelineCache.loadStages same db key stages cache) fun r =>
      r.1 = true ∧ cache.AddsStages db (key.Loads stages) key.stageHashes
        (key.lastFetchShader db stages cache.fetchShader) r.2 := by
  induction stages generalizing cache with
  | nil =>
    exact ⟨rfl, hstored, fun stage => by simp [GraphicsPipelineKey.Loads],
      fun stage => by simp [GraphicsPipelineKey.Loads], rfl, rfl, rfl⟩
  | cons stage rest ih =>
    have hrest : ∀ other ∈ rest, key.stageHashes other ≠ 0 →
        (db.loadable (key.stageHashes other)).isSome :=
      fun other hother => hload other (.tail _ hother)
    simp only [PipelineCache.loadStages]
    by_cases hzero : key.stageHashes stage = 0
    · rw [if_pos hzero]
      refine (ih hrest hstored).mono fun r ⟨hr, hadds⟩ => ⟨hr, ?_⟩
      have hsame : ∀ other, key.Loads (stage :: rest) other ↔ key.Loads rest other := by
        intro other
        simp only [GraphicsPipelineKey.Loads, List.mem_cons]
        constructor
        · rintro ⟨rfl | hmem, hne⟩
          · exact absurd hzero hne
          · exact ⟨hmem, hne⟩
        · exact fun ⟨hmem, hne⟩ => ⟨.inr hmem, hne⟩
      exact ⟨hadds.stored, fun other => by simp only [hadds.infos, hsame],
        fun other => by simp only [hadds.modules, hsame],
        by simpa [GraphicsPipelineKey.lastFetchShader, hzero] using hadds.fetchShader,
        hadds.graphicsPipelines, hadds.computePipelines⟩
    · rw [if_neg hzero]
      have hstage : Outcome _ (cache.loadStage same db (key.stageHashes stage) stage) _ :=
        hstored.loadStage key.stageHashes (hload stage (.head _) hzero)
      cases hfirst : cache.loadStage same db (key.stageHashes stage) stage with
      | error e =>
        rw [hfirst] at hstage
        exact hstage
      | ok r =>
        obtain ⟨loaded, middle⟩ := r
        rw [hfirst] at hstage
        obtain ⟨rfl, hmiddle⟩ := hstage
        refine (ih hrest hmiddle.stored).mono fun r ⟨hr, hadds⟩ => ⟨hr, ?_⟩
        have hboth := hmiddle.trans hadds
        have hsame : ∀ other, key.Loads (stage :: rest) other ↔
            other = stage ∨ key.Loads rest other := by
          intro other
          simp only [GraphicsPipelineKey.Loads, List.mem_cons]
          constructor
          · rintro ⟨rfl | hmem, hne⟩
            · exact .inl rfl
            · exact .inr ⟨hmem, hne⟩
          · rintro (rfl | ⟨hmem, hne⟩)
            · exact ⟨.inl rfl, hzero⟩
            · exact ⟨.inr hmem, hne⟩
        refine ⟨hboth.stored, fun other => by simp only [hboth.infos, hsame],
          fun other => by simp only [hboth.modules, hsame], ?_,
          hboth.graphicsPipelines, hboth.computePipelines⟩
        rw [hboth.fetchShader, hmiddle.fetchShader, GraphicsPipelineKey.lastFetchShader,
          GraphicsPipelineKey.lastFetchShader, List.filter_cons_of_pos (by simpa using hzero),
          List.getLast?_cons]
        cases (rest.filter fun stage => key.stageHashes stage ≠ 0).getLast? <;> rfl

theorem PipelineCache.loadStages_none
    (hfirst : ∀ first ∈ (stages.filter fun stage => key.stageHashes stage ≠ 0).head?,
      db.loadable (key.stageHashes first) = none ∧ db.fetchShaderAt (key.stageHashes first) = none)
    (hne : (stages.filter fun stage => key.stageHashes stage ≠ 0) ≠ [])
    (hcache : cache.fetchShader = none) :
    PipelineCache.loadStages same db key stages cache = .ok (false, cache) := by
  induction stages with
  | nil => exact absurd rfl hne
  | cons stage rest ih =>
    simp only [PipelineCache.loadStages]
    by_cases hzero : key.stageHashes stage = 0
    · rw [if_pos hzero]
      rw [List.filter_cons_of_neg (by simpa using hzero)] at hfirst hne
      exact ih hfirst hne
    · rw [if_neg hzero]
      rw [List.filter_cons_of_pos (by simpa using hzero)] at hfirst
      obtain ⟨hload, hfetch⟩ := hfirst stage rfl
      rw [PipelineCache.loadStage_none hload hfetch hcache]

/-- What holds between two stored keys. -/
structure PipelineCache.Sound (db : DataBase ι ρ φ) (cache : PipelineCache ι ρ φ κ σ) : Prop where
  stored : cache.Stored db
  cleared : cache.Cleared
  faithful : cache.Faithful db

theorem PipelineCache.sound_empty : (empty : PipelineCache ι ρ φ κ σ).Sound db where
  stored := nofun
  cleared := ⟨fun _ => rfl, fun _ => rfl, rfl⟩
  faithful := ⟨nofun, nofun⟩

theorem PipelineCache.AddsStages.stageOf (hcleared : cache.Cleared)
    (hload : ∀ stage ∈ List.finRange 6, key.stageHashes stage ≠ 0 →
      (db.loadable (key.stageHashes stage)).isSome)
    (h : cache.AddsStages db (key.Loads (List.finRange 6)) key.stageHashes fetchShader after)
    (stage : StageIndex) :
    StageOf db (key.stageHashes stage) (after.infos stage) (after.modules stage) := by
  rw [h.infos, h.modules, StageOf]
  by_cases hzero : key.stageHashes stage = 0
  · rw [if_pos hzero, if_neg fun hloads => hloads.2 hzero, if_neg fun hloads => hloads.2 hzero]
    exact ⟨hcleared.1 stage, hcleared.2.1 stage⟩
  · have hloads : key.Loads (List.finRange 6) stage := ⟨List.mem_finRange stage, hzero⟩
    obtain ⟨loaded, hloaded⟩ :=
      Option.isSome_iff_exists.1 (hload stage (List.mem_finRange stage) hzero)
    rw [if_neg hzero, if_pos hloads, if_pos hloads, hloaded]
    exact ⟨loaded, rfl, rfl, rfl⟩

theorem GraphicsPipelineKey.fetchShaderOf_last
    (hlast : ∀ stage ∈ key.stages, db.fetchShaderAt (key.stageHashes stage) ≠ none →
      ∀ last ∈ key.stages.getLast?,
        db.fetchShaderAt (key.stageHashes last) = db.fetchShaderAt (key.stageHashes stage)) :
    FetchShaderOf db key (key.lastFetchShader db (List.finRange 6) none) := by
  change FetchShaderOf db key
    (key.stages.getLast?.elim none fun last => db.fetchShaderAt (key.stageHashes last))
  cases hfound : key.stages.getLast? with
  | none =>
    have hnil := List.getLast?_eq_none_iff.1 hfound
    refine ⟨fun stage hstage => ?_, fun _ => rfl⟩
    rw [hnil] at hstage
    cases hstage
  | some last =>
    exact ⟨fun stage hstage hfetch => hlast stage hstage hfetch last hfound,
      fun hnone => hnone last (List.mem_of_getLast? hfound)⟩

theorem PipelineCache.Sound.loadComputePipeline (h : cache.Sound db) {value : ℕ}
    (hfetch : db.fetchShaderAt value = none) :
    Outcome (· ≠ .nullInfo) (cache.loadComputePipeline same db value) fun r => r.2.Sound db := by
  unfold PipelineCache.loadComputePipeline
  cases hload : db.loadable value with
  | none =>
    rw [PipelineCache.loadStage_none hload hfetch h.cleared.2.2]
    exact h
  | some loaded =>
    have hsome : (db.loadable value).isSome := by rw [hload]; rfl
    have hstage : Outcome (· = .permutationMoved) (cache.loadStage same db value 0) fun r =>
        r.1 = true ∧
          cache.AddsStages db (· = 0) (fun _ => value) (db.fetchShaderAt value) r.2 :=
      h.stored.loadStage (fun _ => value) hsome
    refine (hstage.errors fun e he => by rw [he]; exact nofun).bind ?_
    rintro ⟨done, after⟩ ⟨rfl, hadds⟩
    simp only [not_true_eq_false, if_false] at hadds ⊢
    by_cases hnew : (after.computePipelines value).isSome
    · rw [if_pos hnew]
      exact nofun
    · have hinfo : after.infos 0 = some loaded.info.pgmHash := by simp [hadds.infos, hload]
      have hmodule : after.modules 0 =
          some ⟨db.shaderBinary loaded.info.pgmHash loaded.permIdx⟩ := by
        simp [hadds.modules, hload]
      rw [if_neg hnew, hinfo]
      refine ⟨hadds.stored, ⟨fun _ => rfl, fun _ => rfl, hadds.fetchShader.trans hfetch⟩, ?_, ?_⟩
      · rw [hadds.graphicsPipelines]
        exact h.faithful.graphics
      · intro other pipeline hother
        simp only [Function.update_apply] at hother
        split_ifs at hother with heq
        · cases hother
          exact ⟨loaded, by rw [heq, hload], rfl, hmodule⟩
        · rw [hadds.computePipelines] at hother
          exact h.faithful.compute other pipeline hother

theorem PipelineCache.Sound.loadGraphicsPipeline [DecidableEq κ] (h : cache.Sound db) {sdata : σ}
    (hload : ∀ stage ∈ key.stages, (db.loadable (key.stageHashes stage)).isSome)
    (hlast : ∀ stage ∈ key.stages, db.fetchShaderAt (key.stageHashes stage) ≠ none →
      ∀ last ∈ key.stages.getLast?,
        db.fetchShaderAt (key.stageHashes last) = db.fetchShaderAt (key.stageHashes stage)) :
    Outcome (· ≠ .nullInfo) (cache.loadGraphicsPipeline same db key sdata) fun r =>
      r.2.Sound db := by
  unfold PipelineCache.loadGraphicsPipeline
  have hall : ∀ stage ∈ List.finRange 6, key.stageHashes stage ≠ 0 →
      (db.loadable (key.stageHashes stage)).isSome :=
    fun stage hstage hne => hload stage (List.mem_filter.2 ⟨hstage, by simpa using hne⟩)
  have hstages : Outcome _ (PipelineCache.loadStages same db key (List.finRange 6) cache) _ :=
    h.stored.loadStages hall
  refine (hstages.errors fun e he => by rw [he]; exact nofun).bind ?_
  rintro ⟨done, after⟩ ⟨rfl, hadds⟩
  simp only [not_true_eq_false, if_false]
  by_cases hnew : (after.graphicsPipelines key).isSome
  · rw [if_pos hnew]
    exact nofun
  · rw [if_neg hnew]
    refine ⟨hadds.stored, ⟨fun _ => rfl, fun _ => rfl, rfl⟩, ?_, ?_⟩
    · intro other pipeline hother
      simp only [Function.update_apply] at hother
      split_ifs at hother with heq
      · cases hother
        rw [heq]
        refine ⟨hadds.stageOf h.cleared hall, ?_⟩
        have hfetch := GraphicsPipelineKey.fetchShaderOf_last hlast
        rw [← h.cleared.2.2, ← hadds.fetchShader] at hfetch
        exact hfetch
      · rw [hadds.graphicsPipelines] at hother
        exact h.faithful.graphics other pipeline hother
    · rw [hadds.computePipelines]
      exact h.faithful.compute

theorem PipelineCache.Sound.loadBlob [DecidableEq κ] (h : cache.Sound db)
    {blob : PipelineBlob κ σ} (hclean : db.Clean blob) :
    Outcome (· ≠ .nullInfo) (cache.loadBlob same db blob) fun r => r.2.Sound db := by
  cases blob with
  | compute version value =>
    by_cases hversion : version = pipelineKeyVersion
    · simp only [PipelineCache.loadBlob, hversion, ne_eq, not_true_eq_false, if_false]
      exact h.loadComputePipeline (hclean hversion)
    · simp only [PipelineCache.loadBlob, ne_eq, hversion, not_false_eq_true, if_true]
      exact h
  | graphics version key sdata =>
    by_cases hversion : version = pipelineKeyVersion
    · simp only [PipelineCache.loadBlob, hversion, ne_eq, not_true_eq_false, if_false]
      rcases hclean hversion with ⟨hload, hlast⟩ | ⟨hfirst, hne⟩
      · exact h.loadGraphicsPipeline hload hlast
      · rw [PipelineCache.loadGraphicsPipeline,
          PipelineCache.loadStages_none hfirst hne h.cleared.2.2]
        exact h
    · simp only [PipelineCache.loadBlob, ne_eq, hversion, not_false_eq_true, if_true]
      exact h

/-- Warming up from clean blobs, in any order: after each of them the shared members are empty
again, and every pipeline built so far uses what is stored for its own key. The only way not to get
there is an assertion of the loader, on a key stored twice or on a permutation stored under two
indices. -/
theorem PipelineCache.warmUp_faithful [DecidableEq κ]
    (same : StageSpecialization ρ φ → StageSpecialization ρ φ → Bool) (db : DataBase ι ρ φ)
    (blobs : List (PipelineBlob κ σ)) (hclean : ∀ blob ∈ blobs, db.Clean blob) :
    Outcome (· ≠ .nullInfo) ((empty : PipelineCache ι ρ φ κ σ).warmUp same db blobs) fun cache =>
      cache.Cleared ∧ cache.Faithful db := by
  have hrun : Outcome (· ≠ .nullInfo) ((empty : PipelineCache ι ρ φ κ σ).warmUp same db blobs)
      (PipelineCache.Sound db) := by
    refine Outcome.foldlM (fun cache blob hblob h => ?_) sound_empty
    have hload : Outcome _ (cache.loadBlob same db blob) _ := h.loadBlob (hclean blob hblob)
    cases hresult : cache.loadBlob same db blob with
    | error e =>
      rw [hresult] at hload
      exact hload
    | ok r =>
      rw [hresult] at hload
      exact hload
  exact hrun.mono fun cache h => ⟨h.cleared, h.faithful⟩

end Correctness

/-- Metadata with current versions and nothing but a program hash and a fetch shader. -/
def plainMeta (pgmHash : ℕ) (fetchShader : Option ℕ) : ShaderMeta Unit Unit ℕ where
  metaVersion := shaderMetaVersion
  binaryVersion := shaderBinaryVersion
  permHash := 0
  permIdx := 0
  spec := ⟨fetchShader, ()⟩
  info := ⟨pgmHash, ()⟩

/-- A store with a fragment shader under 1, a vertex shader with a fetch shader under 2 and a
geometry shader under 3. -/
def threeStages : DataBase Unit Unit ℕ where
  shaderMeta hash := if hash = 1 then some (plainMeta 11 none)
    else if hash = 2 then some (plainMeta 12 (some 5))
    else if hash = 3 then some (plainMeta 13 none) else none
  shaderBinary pgmHash _ := [pgmHash]

/-- The key of a pipeline with a fragment, a vertex and a geometry stage. -/
def plainKey (fragment vertex geometry : ℕ) : GraphicsPipelineKey Unit where
  stageHashes stage := if stage = 0 then fragment else if stage = 3 then vertex
    else if stage = 4 then geometry else 0
  state := ()

theorem warmUp_faithful_fragmentVertex :
    Outcome (· ≠ .nullInfo) ((PipelineCache.empty : PipelineCache Unit Unit ℕ Unit Unit).warmUp
      (fun _ _ => true) threeStages [.graphics 2 (plainKey 1 2 0) ()]) fun cache =>
      cache.Cleared ∧ cache.Faithful threeStages := by
  refine PipelineCache.warmUp_faithful _ _ _ fun blob hblob => ?_
  rw [List.mem_singleton] at hblob
  subst hblob
  intro _
  left
  decide

/-- A key whose vertex stage is not stored leaves its fragment stage to the next key, and a
geometry stage drops the fetch shader of the vertex stage. -/
theorem warmUp_leaks :
    (∃ cache pipeline, (PipelineCache.empty : PipelineCache Unit Unit ℕ Unit Unit).warmUp
        (fun _ _ => true) threeStages
        [.graphics 2 (plainKey 1 9 0) (), .graphics 2 (plainKey 0 2 0) ()] = .ok cache ∧
      cache.graphicsPipelines (plainKey 0 2 0) = some pipeline ∧
      (plainKey 0 2 0).stageHashes 0 = 0 ∧ pipeline.infos 0 = some 11) ∧
    (∃ cache, (PipelineCache.empty : PipelineCache Unit Unit ℕ Unit Unit).warmUp
        (fun _ _ => true) threeStages [.graphics 2 (plainKey 1 9 0) ()] = .ok cache ∧
      ¬ cache.Cleared) ∧
    (∃ cache pipeline, (PipelineCache.empty : PipelineCache Unit Unit ℕ Unit Unit).warmUp
        (fun _ _ => true) threeStages [.graphics 2 (plainKey 1 2 3) ()] = .ok cache ∧
      cache.graphicsPipelines (plainKey 1 2 3) = some pipeline ∧
      threeStages.fetchShaderAt 2 = some 5 ∧ pipeline.fetchShader = none) := by
  refine ⟨⟨_, _, rfl, rfl, rfl, rfl⟩, ⟨_, rfl, fun h => ?_⟩, _, _, rfl, rfl, rfl, rfl⟩
  exact absurd (h.1 0) nofun

end PS4Droid.VideoCore
