import PS4Droid.Runtime.RuntimeInstaller

/-!
# Installation is all or nothing

Whatever the bundle and the manifest are, `install` writes below the staging directory only. If no
path of an accepted manifest has a `..` left in it or is that of the marker, then a success leaves
exactly what the manifest declares. Later calls leave it alone, unless the directory is the staging
directory of another version.
-/

namespace PS4Droid.Runtime.Install

open FileTree

/-! ## Paths -/

/-- The path has no names that lead elsewhere. -/
def Plain (path : Path) : Prop := ∀ name ∈ path, name ≠ dot ∧ name ≠ dotDot

variable {path base : Path} {rawPath : Text} {declared result : List (Path × RuntimeFile)}
  {files : List RuntimeFile}

theorem Plain.append {rest : Path} (h : Plain path) (h' : Plain rest) : Plain (path ++ rest) := by
  intro name hname
  exact (List.mem_append.mp hname).elim (h name) (h' name)

theorem normalizeAbsolute_of_plain (h : Plain path) : normalizeAbsolute path = path := by
  have hloop : ∀ (rest names : Path), Plain rest → rest.foldl (fun names name =>
      if name = dot then names else if name = dotDot then names.dropLast
        else names ++ [name]) names = names ++ rest := by
    intro rest
    induction rest with
    | nil => simp
    | cons name rest ih =>
      intro names hplain
      obtain ⟨hdot, hdotDot⟩ := hplain name List.mem_cons_self
      rw [List.foldl_cons, if_neg hdot, if_neg hdotDot,
        ih _ fun other hother => hplain other (List.mem_cons_of_mem _ hother)]
      simp
  exact (hloop path [] h).trans (List.nil_append path)

theorem plain_normalizeAbsolute (path : Path) : Plain (normalizeAbsolute path) := by
  have hloop : ∀ (rest names : Path), Plain names → Plain (rest.foldl (fun names name =>
      if name = dot then names else if name = dotDot then names.dropLast else names ++ [name])
        names) := by
    intro rest
    induction rest with
    | nil => exact fun _ h => h
    | cons name rest ih =>
      intro names hnames
      refine ih _ ?_
      dsimp only
      split_ifs with hdot hdotDot
      · exact hnames
      · exact fun other hother => hnames other (List.dropLast_subset names hother)
      · refine hnames.append fun other hother => ?_
        rw [List.mem_singleton.mp hother]
        exact ⟨hdot, hdotDot⟩
  exact hloop path [] nofun

theorem dot_notin_normalize (path : Path) : dot ∉ normalize path := by
  have hloop : ∀ (rest names : Path), dot ∉ names → dot ∉ rest.foldl (fun names name =>
      if name = dot then names
      else if name = dotDot ∧ names ≠ [] ∧ names.getLast? ≠ some dotDot then names.dropLast
      else names ++ [name]) names := by
    intro rest
    induction rest with
    | nil => exact fun _ h => h
    | cons name rest ih =>
      intro names hnames
      refine ih _ ?_
      dsimp only
      split_ifs with hdot hpop
      · exact hnames
      · exact fun hmem => hnames (List.dropLast_subset names hmem)
      · rintro hmem
        obtain hmem | hmem := List.mem_append.mp hmem
        · exact hnames hmem
        · exact hdot (List.mem_singleton.mp hmem).symm
  exact hloop path [] List.not_mem_nil

/-- The path that a text stands for. -/
def relativePath (rawPath : Text) : Path :=
  normalize (splitPath (rawPath.map fun c => if c = '\\' then '/' else c))

/-- What `safeRelativePath` asks of a text, whatever the directory is. -/
def IsRelative (rawPath : Text) : Prop :=
  rawPath.all isWhitespace = false ∧ '\x00' ∉ (rawPath.map fun c => if c = '\\' then '/' else c) ∧
    (rawPath.map fun c => if c = '\\' then '/' else c).head? ≠ some '/' ∧ relativePath rawPath ≠ []

theorem safeRelativePath_eq_some :
    safeRelativePath base rawPath = some path ↔ IsRelative rawPath ∧ path = relativePath rawPath ∧
      base <+: normalizeAbsolute (base ++ path) := by
  unfold safeRelativePath IsRelative
  dsimp only
  rw [← relativePath]
  constructor
  · intro h
    split_ifs at h with hblank hnul habsolute hcontained
    cases h
    rw [not_or] at habsolute
    exact ⟨⟨by simpa using hblank, hnul, habsolute.1, habsolute.2⟩, rfl, hcontained⟩
  · rintro ⟨⟨hblank, hnul, habsolute, hempty⟩, rfl, hcontained⟩
    rw [if_neg (by rw [hblank]; decide), if_neg hnul, if_neg (not_or.mpr ⟨habsolute, hempty⟩),
      if_pos hcontained]

/-- The path leads down from every directory, and it is not that of the marker. -/
def RuntimeFile.Clean (file : RuntimeFile) : Prop :=
  dotDot ∉ relativePath file.path ∧ relativePath file.path ≠ [fingerprintFile]

/-- Where the declarations of the manifest are accepted, none leads up and down again into the
staging directory or to the marker. -/
def RuntimeManifest.Clean (manifest : RuntimeManifest) (staging : Path) : Prop :=
  declarationsByPath staging [] manifest.files ≠ none → ∀ file ∈ manifest.files, file.Clean

theorem plain_relativePath (h : dotDot ∉ relativePath rawPath) :
    Plain (relativePath rawPath) := by
  intro name hname
  constructor
  · rintro rfl
    exact dot_notin_normalize _ hname
  · rintro rfl
    exact h hname

/-- Where a text leads from a directory. -/
abbrev resolved (base : Path) (rawPath : Text) : Path :=
  normalizeAbsolute (base ++ relativePath rawPath)

/-- A path without `..` leads to itself. -/
theorem resolved_plain (hbase : Plain base) (hplain : dotDot ∉ relativePath rawPath) :
    resolved base rawPath = base ++ relativePath rawPath :=
  normalizeAbsolute_of_plain (hbase.append (plain_relativePath hplain))

/-! ## The declared files -/

/-- The declarations are those of the manifest, each under its path. -/
theorem declarationsByPath_eq_some {staging : Path}
    (h : declarationsByPath staging declared files = some result) :
    result = declared ++ files.map (fun file => (relativePath file.path, file)) ∧
      ∀ file ∈ files, IsRelative file.path := by
  induction files generalizing declared with
  | nil =>
    cases h
    simp
  | cons file rest ih =>
    rw [declarationsByPath] at h
    split_ifs at h with hcheck
    split at h
    · cases h
    · rename_i path hpath
      obtain ⟨hrelative, rfl, -⟩ := safeRelativePath_eq_some.mp hpath
      split_ifs at h with hduplicate
      obtain ⟨rfl, hrest⟩ := ih h
      refine ⟨by simp, ?_⟩
      intro other hother
      obtain rfl | hother := List.mem_cons.mp hother
      · exact hrelative
      · exact hrest other hother

theorem declarationsByPath_nodup {staging : Path}
    (h : declarationsByPath staging declared files = some result)
    (hnodup : (declared.map Prod.fst).Nodup) : (result.map Prod.fst).Nodup := by
  induction files generalizing declared with
  | nil =>
    cases h
    exact hnodup
  | cons file rest ih =>
    rw [declarationsByPath] at h
    split_ifs at h with hcheck
    split at h
    · cases h
    · rename_i path hpath
      split_ifs at h with hduplicate
      refine ih h ?_
      rw [List.map_append, List.nodup_append]
      refine ⟨hnodup, List.nodup_singleton _, ?_⟩
      intro key hkey other hother heq
      obtain rfl : other = path := by simpa using hother
      obtain ⟨declaration, hmem, rfl⟩ := List.mem_map.mp hkey
      exact hduplicate (List.any_eq_true.mpr ⟨declaration, hmem, decide_eq_true heq⟩)

/-! ## Extraction -/

section Extraction

variable (digest : List UInt8 → List UInt8) {staging : Path} {tree tree' : Tree}

/-- The bytes are those that the declaration asks for. -/
def RuntimeFile.Accepts (file : RuntimeFile) (bytes : List UInt8) : Prop :=
  (bytes.length : ℤ) = file.size ∧ Install.sha256 digest bytes = file.sha256

/-- The directories down to the staging directory exist. -/
def Present (staging : Path) (tree : Tree) : Prop := ∀ path, path <+: staging → tree path ≠ none

variable {target path other : Path} {declaration : RuntimeFile} {bytes : List UInt8}
  {declaredFiles : List (Path × RuntimeFile)} {extracted : List Path} {entries : List ZipEntry}

/-- Directories that are made on the way to a path below `staging` are below it too. -/
theorem sameOutside_createDirectories (hpresent : Present staging tree)
    (htarget : staging <+: target) :
    SameOutside staging tree (tree.createDirectories target.dropLast).1 := by
  intro path hpath
  obtain h | ⟨hnone, -, hmem⟩ := createAll_cases tree target.dropLast.inits path
  · exact h
  · have hpre : path <+: target :=
      ((List.mem_inits _ _).mp hmem).trans (List.dropLast_prefix target)
    obtain h | h := List.prefix_or_prefix_of_prefix hpre htarget
    · exact absurd hnone (hpresent path h)
    · exact absurd h hpath

/-- The directories down to `staging` stay where the tree changes only by new files and
directories. -/
theorem Present.mono (h : Present staging tree)
    (hkept : ∀ path, tree path ≠ none → tree' path ≠ none) : Present staging tree' :=
  fun path hpath => hkept path (h path hpath)

theorem createDirectories_ne_none (h : tree other ≠ none) :
    (tree.createDirectories path).1 other ≠ none := by
  obtain heq | ⟨hnone, -, -⟩ := createAll_cases tree path.inits other
  · exact fun hnone => h (heq.symm.trans hnone)
  · exact absurd hnone h

theorem set_ne_none {node : FileNode UInt8} (h : tree other ≠ none) :
    tree.set path node other ≠ none := by
  by_cases heq : other = path
  · subst heq
    rw [set_self]
    exact nofun
  · rwa [set_of_ne heq]

theorem extractFile_frame (hpresent : Present staging tree) (htarget : staging <+: target) :
    SameOutside staging tree (extractFile digest tree target declaration bytes).1 ∧
      Present staging (extractFile digest tree target declaration bytes).1 := by
  have hsame := sameOutside_createDirectories hpresent htarget
  have hmade : Present staging (tree.createDirectories target.dropLast).1 :=
    hpresent.mono fun _ => createDirectories_ne_none
  unfold extractFile
  dsimp only
  split_ifs with hfound hexists
  · exact ⟨hsame, hmade⟩
  · exact ⟨hsame.trans (sameOutside_set htarget _ _), hmade.mono fun _ => set_ne_none⟩
  · exact ⟨hsame, hmade⟩

/-- A file that was extracted is what was declared, and the other files are as before. -/
theorem extractFile_ok (hok : (extractFile digest tree target declaration bytes).2 = true) :
    declaration.Accepts digest bytes ∧
      (extractFile digest tree target declaration bytes).1 target = some (.file bytes) ∧
      (∀ path, path ≠ target → ∀ other,
        (extractFile digest tree target declaration bytes).1 path = some (.file other) ↔
          tree path = some (.file other)) ∧ (∀ path, path ≠ target → tree path = some .dir →
        (extractFile digest tree target declaration bytes).1 path = some .dir) := by
  unfold extractFile at hok ⊢
  dsimp only at hok ⊢
  split_ifs at hok ⊢ with hmade hexists
  rw [Bool.and_eq_true, decide_eq_true_eq, decide_eq_true_eq] at hok
  have htake : bytes.take declaration.size.toNat = bytes :=
    List.take_of_length_le (by omega)
  rw [htake]
  refine ⟨hok, set_self _ _ _, fun path hpath other => ?_, fun path hpath hdir => ?_⟩
  · dsimp only
    rw [set_of_ne hpath]
    obtain heq | ⟨hnone, hdir, -⟩ := createAll_cases tree target.dropLast.inits path
    · rw [createDirectories, heq]
    · rw [createDirectories, hdir, hnone]
      exact ⟨by simp, by simp⟩
  · dsimp only
    rw [set_of_ne hpath]
    obtain heq | ⟨hnone, -, -⟩ := createAll_cases tree target.dropLast.inits path
    · exact heq.trans hdir
    · cases hnone.symm.trans hdir

theorem extractEntries_frame (hpresent : Present staging tree) : SameOutside staging tree
      (extractEntries digest staging declaredFiles tree extracted entries).1 := by
  induction entries generalizing tree extracted with
  | nil => exact .refl _ _
  | cons entry rest ih =>
    rw [extractEntries]
    split_ifs with hdirectory
    · exact .refl _ _
    split
    · exact .refl _ _
    rename_i path hpath
    have hcontained := (safeRelativePath_eq_some.mp hpath).2.2
    split_ifs with hduplicate
    · exact .refl _ _
    split
    · exact .refl _ _
    rename_i declaration hdeclared
    have hframe :=
      @extractFile_frame digest staging tree _ declaration entry.bytes hpresent hcontained
    split
    · rename_i tree' hfile
      rw [hfile] at hframe
      exact hframe.1
    · rename_i tree' hfile
      rw [hfile] at hframe
      exact hframe.1.trans (ih hframe.2)

/-- What lies below `staging` after the paths of `extracted`. -/
structure Staged (staging : Path) (declaredFiles : List (Path × RuntimeFile)) (tree : Tree)
    (extracted : List Path) : Prop where
  base : tree staging = some .dir
  only : ∀ path bytes, tree (staging ++ path) = some (.file bytes) → path ∈ extracted
  accepted : ∀ path ∈ extracted, ∃ file, (path, file) ∈ declaredFiles ∧
    ∃ bytes, tree (staging ++ path) = some (.file bytes) ∧ file.Accepts digest bytes

theorem Staged.extractFile
    (h : Staged digest staging declaredFiles tree extracted) {file : RuntimeFile}
    (hmem : (path, file) ∈ declaredFiles) (hpath : path ≠ []) (hnew : path ∉ extracted)
    (hok : (extractFile digest tree (staging ++ path) file bytes).2 = true) :
    Staged digest staging declaredFiles (extractFile digest tree (staging ++ path) file bytes).1
      (path :: extracted) := by
  obtain ⟨haccepts, hfile, hothers, hdirs⟩ := extractFile_ok digest hok
  refine ⟨hdirs staging (by simpa using hpath) h.base, fun other bytes' hother => ?_, ?_⟩
  · by_cases heq : other = path
    · exact heq ▸ List.mem_cons_self
    · have hne : staging ++ other ≠ staging ++ path := by simpa using heq
      exact List.mem_cons_of_mem _ (h.only other bytes' ((hothers _ hne bytes').mp hother))
  · intro other hother
    obtain rfl | hold := List.mem_cons.mp hother
    · exact ⟨file, hmem, bytes, hfile, haccepts⟩
    · obtain ⟨file', hmem', bytes', hfile', haccepts'⟩ := h.accepted other hold
      have hne : staging ++ other ≠ staging ++ path := by
        rw [Ne, List.append_right_inj]
        rintro rfl
        exact hnew hold
      exact ⟨file', hmem', bytes', (hothers _ hne bytes').mpr hfile', haccepts'⟩

theorem extractEntries_ok {extracted' : List Path} (hstaging : Plain staging)
    (hclean : ∀ declaration ∈ declaredFiles, Plain declaration.1)
    (h : Staged digest staging declaredFiles tree extracted)
    (hok : extractEntries digest staging declaredFiles tree extracted entries =
      (tree', some extracted')) : Staged digest staging declaredFiles tree' extracted' := by
  induction entries generalizing tree extracted with
  | nil =>
    cases hok
    exact h
  | cons entry rest ih =>
    rw [extractEntries] at hok
    split_ifs at hok with hdirectory
    · cases hok
    split at hok
    · cases hok
    rename_i path hpath
    obtain ⟨hrelative, hpath', -⟩ := safeRelativePath_eq_some.mp hpath
    split_ifs at hok with hduplicate
    · cases hok
    split at hok
    · cases hok
    rename_i key declaration hdeclared
    have hmem : (key, declaration) ∈ declaredFiles := List.mem_of_find?_eq_some hdeclared
    have hkey : key = path := by simpa using List.find?_some hdeclared
    subst hkey
    rw [normalizeAbsolute_of_plain (hstaging.append (hclean _ hmem))] at hok
    split at hok
    · cases hok
    rename_i tree₁ hfile
    have hnext := h.extractFile digest hmem (hpath' ▸ hrelative.2.2.2) hduplicate
      (congrArg Prod.snd hfile)
    rw [hfile] at hnext
    exact ih hnext hok

end Extraction

/-! ## The marker -/

theorem decodeUtf8_utf8 (text : Text) : decodeUtf8 (utf8 text) = some text := by
  have hencode : (utf8 text).toByteArray = text.utf8Encode := rfl
  rw [decodeUtf8, hencode, List.utf8Decode?_utf8Encode]
  simp

theorem trim_of_no_space {text : Text} (h : ∀ c ∈ text, isWhitespace c = false) :
    trim text = text := by
  have hdrop : ∀ t : Text, (∀ c ∈ t, isWhitespace c = false) → t.dropWhile isWhitespace = t := by
    intro t ht
    cases t with
    | nil => rfl
    | cons c rest => rw [List.dropWhile_cons_of_neg (by simp [ht c List.mem_cons_self])]
  rw [trim, hdrop text h, hdrop text.reverse fun c hc => h c (List.mem_reverse.mp hc),
    List.reverse_reverse]

theorem isWhitespace_hexDigit (n : Fin 16) : isWhitespace (hexDigit n) = false := by
  revert n
  decide

theorem trim_toHexString (bytes : List UInt8) : trim (toHexString bytes) = toHexString bytes := by
  apply trim_of_no_space
  intro c hc
  obtain ⟨byte, -, hmem⟩ := List.mem_flatMap.mp hc
  have hbyte := byte.toNat_lt
  have hhigh := isWhitespace_hexDigit ⟨byte.toNat / 16, by omega⟩
  have hlow := isWhitespace_hexDigit ⟨byte.toNat % 16, by omega⟩
  simp only [List.mem_cons, List.not_mem_nil, or_false] at hmem
  obtain rfl | rfl := hmem
  · exact hhigh
  · exact hlow

/-! ## The whole installation -/

section Install

variable (digest : List UInt8 → List UInt8) (root : Path)

/-- The directory holds the declared files and the marker, and no other files. -/
structure Installed (tree : Tree) (target : Path) (manifest : RuntimeManifest) : Prop where
  dir : tree target = some .dir
  marker : markerMatches tree target (contentFingerprint digest manifest) = true
  declared : ∀ file ∈ manifest.files, target <+: resolved target file.path ∧
    ∃ bytes, tree (resolved target file.path) = some (.file bytes) ∧ file.Accepts digest bytes
  only : ∀ path bytes, tree (target ++ path) = some (.file bytes) →
    path = [fingerprintFile] ∨ ∃ file ∈ manifest.files, resolved target file.path = target ++ path

variable {digest root} {tree tree' : Tree} {bundle : List ZipEntry} {manifest : RuntimeManifest}
variable {promoted : Bool}

theorem plain_stagingOf (hroot : Plain root) (version : Text) : Plain (stagingOf root version) := by
  refine hroot.append fun name hname => ?_
  rw [List.mem_singleton.mp hname]
  exact ⟨by simp [dot], by simp [dotDot]⟩

theorem plain_targetOf (hroot : Plain root) {version : Text}
    (hversion : validateVersion version = true) :
    Plain (targetOf root version) := by
  refine hroot.append fun name hname => ?_
  rw [List.mem_singleton.mp hname]
  simp only [validateVersion, Bool.and_eq_true, decide_eq_true_eq] at hversion
  exact ⟨hversion.1.2, hversion.2⟩

theorem not_prefix_staging (root : Path) (version : Text) (rest : Path) :
    ¬ stagingOf root version <+: targetOf root version ++ rest ∧
      ¬ targetOf root version <+: stagingOf root version ++ rest := by
  unfold stagingOf targetOf
  rw [List.append_assoc, List.prefix_append_right_inj, List.append_assoc,
    List.prefix_append_right_inj]
  constructor
  · rintro ⟨tail, htail⟩
    have := congrArg (fun path => (path.headD []).length) htail
    simp at this
    omega
  · rintro ⟨tail, htail⟩
    have := congrArg (fun path => (path.headD []).length) htail
    simp at this
    omega

variable {declaredFiles : List (Path × RuntimeFile)} {extracted : List Path} {path : Path}

/-- The extraction and the marker make the staging directory what the target shall be. -/
theorem installed_of_staged {staging target : Path} (hplain : Plain target)
    (hdeclared : declaredFiles =
      manifest.files.map fun file => (relativePath file.path, file))
    (hnodup : (declaredFiles.map Prod.fst).Nodup) (hclean : ∀ file ∈ manifest.files, file.Clean)
    (hstaged : Staged digest staging declaredFiles tree extracted)
    (hall : ∀ declaration ∈ declaredFiles, declaration.1 ∈ extracted)
    (hmoved : ∀ path, tree' (target ++ path) = tree.set (staging ++ [fingerprintFile])
      (.file (utf8 (contentFingerprint digest manifest))) (staging ++ path)) :
    Installed digest tree' target manifest where
  dir := by
    have hdir := hmoved []
    rw [List.append_nil, List.append_nil, set_of_ne (by simp)] at hdir
    exact hdir.trans hstaged.base
  marker := by
    rw [markerMatches, hmoved, set_self]
    simp only [decodeUtf8_utf8, Option.map_some, contentFingerprint, sha256, trim_toHexString,
      decide_true]
  declared file hfile := by
    have hmem : (relativePath file.path, file) ∈ declaredFiles := by
      rw [hdeclared]
      exact List.mem_map_of_mem hfile
    obtain ⟨file', hmem', bytes, hbytes, haccepts⟩ := hstaged.accepted _ (hall _ hmem)
    -- each path is declared once
    have hfile' : file' = file := by
      have hinj := List.inj_on_of_nodup_map hnodup hmem' hmem rfl
      exact congrArg Prod.snd hinj
    subst hfile'
    rw [resolved_plain hplain (hclean file' hfile).1]
    refine ⟨List.prefix_append _ _, bytes, ?_, haccepts⟩
    rw [hmoved, set_of_ne (by simpa using (hclean file' hfile).2)]
    exact hbytes
  only path bytes hpath := by
    by_cases hmarker : path = [fingerprintFile]
    · exact .inl hmarker
    · rw [hmoved, set_of_ne (by simpa using hmarker)] at hpath
      obtain ⟨file, hmem, -⟩ := hstaged.accepted path (hstaged.only path bytes hpath)
      rw [hdeclared] at hmem
      obtain ⟨file', hfile', heq⟩ := List.mem_map.mp hmem
      have hpath : relativePath file'.path = path := congrArg Prod.fst heq
      refine .inr ⟨file', hfile', ?_⟩
      rw [resolved_plain hplain (hclean file' hfile').1, hpath]

/-- The tree with the marker in the staging directory. -/
abbrev withMarker (digest : List UInt8 → List UInt8) (root : Path) (manifest : RuntimeManifest)
    (tree : Tree) : Tree :=
  tree.set (stagingOf root manifest.runtimeVersion ++ [fingerprintFile])
    (.file (utf8 (contentFingerprint digest manifest)))

/-- The `try` either fails and changes the staging directory only, or it has extracted what is
declared, written the marker and moved the staging directory to the target. -/
theorem stage_cases (hpresent : Present (stagingOf root manifest.runtimeVersion) tree) :
    ((stage digest root tree bundle manifest promoted).2 = false ∧
      SameOutside (stagingOf root manifest.runtimeVersion) tree
        (stage digest root tree bundle manifest promoted).1) ∨ ∃ declaredFiles extracted tree₁,
      declarationsByPath (stagingOf root manifest.runtimeVersion) [] manifest.files =
        some declaredFiles ∧
      extractEntries digest (stagingOf root manifest.runtimeVersion) declaredFiles tree [] bundle =
        (tree₁, some extracted) ∧ (∀ declaration ∈ declaredFiles, declaration.1 ∈ extracted) ∧
      tree (targetOf root manifest.runtimeVersion) = none ∧
        stage digest root tree bundle manifest promoted =
        ((withMarker digest root manifest tree₁).move (stagingOf root manifest.runtimeVersion)
          (targetOf root manifest.runtimeVersion), true) := by
  have htarget : ¬ stagingOf root manifest.runtimeVersion <+:
    targetOf root manifest.runtimeVersion :=
    by simpa using (not_prefix_staging root manifest.runtimeVersion []).1
  have hfails : ∀ tree₁, stage digest root tree bundle manifest promoted = (tree₁, false) →
      SameOutside (stagingOf root manifest.runtimeVersion) tree tree₁ →
      (stage digest root tree bundle manifest promoted).2 = false ∧
        SameOutside (stagingOf root manifest.runtimeVersion) tree
          (stage digest root tree bundle manifest promoted).1 := by
    intro tree₁ hstage hsame
    rw [hstage]
    exact ⟨rfl, hsame⟩
  cases hdeclared : declarationsByPath (stagingOf root manifest.runtimeVersion)
    [] manifest.files with
  | none => exact .inl (hfails tree (by simp only [stage, hdeclared]) (.refl _ _))
  | some declaredFiles =>
    have hframe := @extractEntries_frame digest _ tree declaredFiles [] bundle hpresent
    cases hentries :
      extractEntries digest (stagingOf root manifest.runtimeVersion) declaredFiles tree []
        bundle with
    | mk tree₁ result =>
    rw [hentries] at hframe
    cases result with
    | none =>
      exact .inl (hfails tree₁ (by simp only [stage, hdeclared, extractAndVerify, hentries]) hframe)
    | some extracted =>
      cases hall : declaredFiles.all fun declaration => declaration.1 ∈ extracted with
      | false =>
        exact .inl (hfails tree₁
          (by simp only [stage, hdeclared, extractAndVerify, hentries, hall]) hframe)
      | true =>
        have hset : SameOutside (stagingOf root manifest.runtimeVersion) tree
            (withMarker digest root manifest tree₁) :=
          hframe.trans (sameOutside_set (List.prefix_append _ [fingerprintFile]) tree₁ _)
        by_cases hdir : tree₁ (stagingOf root manifest.runtimeVersion ++ [fingerprintFile]) =
          some .dir
        · exact .inl (hfails tree₁
            (by simp only [stage, hdeclared, extractAndVerify, hentries, hall, writeFile, hdir])
              hframe)
        · have hwrite :
            writeFile tree₁ (stagingOf root manifest.runtimeVersion ++ [fingerprintFile])
              (utf8 (contentFingerprint digest manifest)) =
                (withMarker digest root manifest tree₁, true) := by
            unfold writeFile
            split
            · exact absurd ‹_› hdir
            · rfl
          have hstage : stage digest root tree bundle manifest promoted =
              if withMarker digest root manifest tree₁ (targetOf root manifest.runtimeVersion) ≠
                none
              then (withMarker digest root manifest tree₁, false)
              else if ¬ promoted then (withMarker digest root manifest tree₁, false)
              else ((withMarker digest root manifest tree₁).move
                (stagingOf root manifest.runtimeVersion) (targetOf root manifest.runtimeVersion),
                true) := by
            simp only [stage, hdeclared, extractAndVerify, hentries, hall, hwrite]
          rw [hset _ htarget] at hstage
          split_ifs at hstage with hnone hpromoted
          · exact .inl (hfails _ hstage hset)
          · refine .inr ⟨declaredFiles, extracted, tree₁, rfl, hentries, ?_, not_not.mp hnone,
              hstage⟩
            simpa using hall
          · exact .inl (hfails _ hstage hset)

/-- The directories that `install` may touch. -/
def Touches (root : Path) (version : Text) (path : Path) : Prop :=
  stagingOf root version <+: path ∨ targetOf root version <+: path ∨ path <+: root

theorem Installed.isInstalled (hrelative : ∀ file ∈ manifest.files, IsRelative file.path)
    (h : Installed digest tree (targetOf root manifest.runtimeVersion) manifest) :
    isInstalled digest root tree manifest = true := by
  simp only [Install.isInstalled, h.dir, h.marker, decide_true, Bool.true_and]
  refine List.all_eq_true.mpr fun file hfile => ?_
  obtain ⟨hcontained, bytes, hbytes, hsize, hhash⟩ := h.declared file hfile
  rw [verifyFile, safeRelativePath_eq_some.mpr ⟨hrelative file hfile, rfl, hcontained⟩]
  dsimp only
  rw [hbytes]
  simp [hsize, hhash]

theorem installed_of_isInstalled (h : isInstalled digest root tree manifest = true)
    (honly : ∀ path bytes,
      tree (targetOf root manifest.runtimeVersion ++ path) = some (.file bytes) →
      path = [fingerprintFile] ∨ ∃ file ∈ manifest.files,
        resolved (targetOf root manifest.runtimeVersion) file.path =
          targetOf root manifest.runtimeVersion ++ path) :
    Installed digest tree (targetOf root manifest.runtimeVersion) manifest := by
  simp only [isInstalled, Bool.and_eq_true, decide_eq_true_eq] at h
  refine ⟨h.1.1, h.1.2, fun file hfile => ?_, honly⟩
  have hverify := List.all_eq_true.mp h.2 file hfile
  rw [verifyFile] at hverify
  split at hverify
  · cases hverify
  rename_i path hpath
  obtain ⟨-, rfl, hcontained⟩ := safeRelativePath_eq_some.mp hpath
  split at hverify
  · rename_i bytes hbytes
    rw [Bool.and_eq_true, decide_eq_true_eq, decide_eq_true_eq] at hverify
    exact ⟨hcontained, bytes, hbytes, hverify⟩
  · cases hverify

/-- Whether a target can be trusted is seen in the target alone. -/
theorem isInstalled_congr
    (h : ∀ path, targetOf root manifest.runtimeVersion <+: path → tree' path = tree path) :
    isInstalled digest root tree' manifest = isInstalled digest root tree manifest := by
  have hverify (file : RuntimeFile) :
      verifyFile digest tree' (targetOf root manifest.runtimeVersion) file =
        verifyFile digest tree (targetOf root manifest.runtimeVersion) file := by
    unfold verifyFile
    split
    · rfl
    · rename_i path hpath
      rw [h _ (safeRelativePath_eq_some.mp hpath).2.2]
  simp only [isInstalled, markerMatches, verifyInstalledContent, h _ (List.prefix_refl _),
    h _ (List.prefix_append _ _), funext hverify]

/-- The tree without a target that cannot be trusted. -/
abbrev wiped (root : Path) (manifest : RuntimeManifest) (tree : Tree) : Tree :=
  if tree (targetOf root manifest.runtimeVersion) = some .dir then
    tree.deleteRecursively (targetOf root manifest.runtimeVersion)
  else tree

/-- The tree with an empty staging directory. -/
abbrev ready (root : Path) (manifest : RuntimeManifest) (tree : Tree) : Tree :=
  (((wiped root manifest tree).createDirectories root).1.deleteRecursively
    (stagingOf root manifest.runtimeVersion)).set (stagingOf root manifest.runtimeVersion) .dir

theorem not_prefix_root (name : Text) (rest : Path) : ¬ root ++ [name] ++ rest <+: root := by
  intro h
  have := h.length_le
  simp only [List.length_append, List.length_singleton] at this
  omega

theorem createDirectories_root (h : ¬ path <+: root) :
    (tree.createDirectories root).1 path = tree path := by
  obtain heq | ⟨-, -, hmem⟩ := createAll_cases tree root.inits path
  · exact heq
  · exact absurd ((List.mem_inits _ _).mp hmem) h

theorem wiped_target (tree : Tree) :
    (∀ path, wiped root manifest tree (targetOf root manifest.runtimeVersion ++ path) = none) ∨
      ∀ path, wiped root manifest tree (targetOf root manifest.runtimeVersion ++ path) =
        tree (targetOf root manifest.runtimeVersion ++ path) := by
  unfold wiped
  split
  · exact .inl fun path => deleteRecursively_append tree _ path
  · exact .inr fun _ => rfl

theorem wiped_of_not_below (h : ¬ targetOf root manifest.runtimeVersion <+: path) :
    wiped root manifest tree path = tree path := by
  unfold wiped
  split
  · exact deleteRecursively_of_not_below h
  · rfl

theorem ready_of_not_below
    (hstaging : ¬ stagingOf root manifest.runtimeVersion <+: path) (hpath : ¬ path <+: root) :
    ready root manifest tree path = wiped root manifest tree path := by
  have hne : path ≠ stagingOf root manifest.runtimeVersion := by
    rintro rfl
    exact hstaging (List.prefix_refl _)
  unfold ready
  rw [set_of_ne hne, deleteRecursively_of_not_below hstaging, createDirectories_root hpath]

theorem ready_target (tree : Tree) (path : Path) :
    ready root manifest tree (targetOf root manifest.runtimeVersion ++ path) =
      wiped root manifest tree (targetOf root manifest.runtimeVersion ++ path) :=
  ready_of_not_below (not_prefix_staging root manifest.runtimeVersion path).1
    (not_prefix_root manifest.runtimeVersion path)

theorem present_ready (hmade : ((wiped root manifest tree).createDirectories root).2 = true) :
    Present (stagingOf root manifest.runtimeVersion) (ready root manifest tree) := by
  intro path hpath
  by_cases heq : path = stagingOf root manifest.runtimeVersion
  · subst heq
    rw [ready, set_self]
    exact nofun
  · have hroot : path <+: root := (List.prefix_concat_iff.mp hpath).resolve_left heq
    have hstaging : ¬ stagingOf root manifest.runtimeVersion <+: path := by
      intro hpre
      have hlength := (hpre.trans hroot).length_le
      simp only [stagingOf, List.length_append, List.length_singleton] at hlength
      omega
    rw [ready, set_of_ne heq, deleteRecursively_of_not_below hstaging, createDirectories,
      createAll_dir hmade ((List.mem_inits _ _).mpr hroot)]
    exact nofun

theorem staged_ready (declaredFiles : List (Path × RuntimeFile)) :
    Staged digest (stagingOf root manifest.runtimeVersion) declaredFiles (ready root manifest tree)
    [] where
  base := set_self _ _ _
  only path bytes hpath := by
    by_cases hnil : path = []
    · subst hnil
      rw [List.append_nil, ready, set_self] at hpath
      cases hpath
    · rw [ready, set_of_ne (by simpa using hnil), deleteRecursively_append] at hpath
      cases hpath
  accepted _ hmem := nomatch hmem

/-- The arguments of a call of `install`. -/
structure Request where
  bundle : List ZipEntry
  manifest : RuntimeManifest
  promoted : Bool
  deriving DecidableEq

/-- The tree after the calls. -/
def runInstalls (digest : List UInt8 → List UInt8) (root : Path) (tree : Tree)
    (requests : List Request) : Tree :=
  requests.foldl (fun tree request =>
    (install digest root tree request.bundle request.manifest request.promoted).1) tree

variable (digest root tree bundle manifest promoted)

/-- The extraction writes below the staging directory only, and the whole call changes nothing but
the two directories of its version and the way to them. -/
structure Contained : Prop where
  extraction : ∀ tree declaredFiles, Present (stagingOf root manifest.runtimeVersion) tree →
    SameOutside (stagingOf root manifest.runtimeVersion) tree
      (extractAndVerify digest tree bundle (stagingOf root manifest.runtimeVersion) declaredFiles).1
  install : ∀ tree path, ¬ Touches root manifest.runtimeVersion path →
    (install digest root tree bundle manifest promoted).1 path = tree path

/-- The conditions under which a success lasts: the declared files keep out of the way of the marker
and of other directories, an installed target holds no other files, and no other version is
extracted to it. -/
structure Undisturbed : Prop where
  clean : manifest.Clean (stagingOf root manifest.runtimeVersion)
  only : isInstalled digest root tree manifest = true → ∀ path bytes,
    tree (targetOf root manifest.runtimeVersion ++ path) = some (.file bytes) →
      path = [fingerprintFile] ∨ ∃ file ∈ manifest.files,
        resolved (targetOf root manifest.runtimeVersion) file.path =
          targetOf root manifest.runtimeVersion ++ path
  apart : ∀ version, validateVersion version = true →
    targetOf root manifest.runtimeVersion ≠ stagingOf root version

/-- What an installation does to the tree. `again` is about calls after any others that do not
replace the version by another manifest. -/
structure AllOrNothing : Prop where
  failure : (install digest root tree bundle manifest promoted).2 = none →
    (∀ path, (install digest root tree bundle manifest promoted).1
      (targetOf root manifest.runtimeVersion ++ path) = none) ∨
    ∀ path, (install digest root tree bundle manifest promoted).1
      (targetOf root manifest.runtimeVersion ++ path) =
        tree (targetOf root manifest.runtimeVersion ++ path)
  no_staging : (install digest root tree bundle manifest promoted).2 = none →
    (install digest root tree bundle manifest promoted).1 = tree ∧
      validateVersion manifest.runtimeVersion = false ∨
    ∀ path, (install digest root tree bundle manifest promoted).1
      (stagingOf root manifest.runtimeVersion ++ path) = none
  success : ∀ path, (install digest root tree bundle manifest promoted).2 = some path →
    path = targetOf root manifest.runtimeVersion ∧
    Installed digest (install digest root tree bundle manifest promoted).1 path manifest
  again : ∀ path, (install digest root tree bundle manifest promoted).2 = some path →
    ∀ requests : List Request, (∀ request ∈ requests, request.manifest = manifest ∨
      request.manifest.runtimeVersion ≠ manifest.runtimeVersion) → ∀ bundle' promoted',
    let tree' :=
      runInstalls digest root (install digest root tree bundle manifest promoted).1 requests
    install digest root tree' bundle' manifest promoted' = (tree', some path)

variable {digest root tree bundle manifest promoted}

theorem install_of_isInstalled (hversion : validateVersion manifest.runtimeVersion = true)
    (h : isInstalled digest root tree manifest = true) :
    install digest root tree bundle manifest promoted =
      (tree, some (targetOf root manifest.runtimeVersion)) := by
  rw [install, if_neg (by simp [hversion]), if_pos h]

theorem nothing_below_file (hclosed : tree.Closed)
    (hfails : ((wiped root manifest tree).createDirectories root).2 = false) (name : Text)
    (rest : Path) :
    tree (root ++ [name] ++ rest) = none := by
  obtain ⟨path, hmem, bytes, hfile⟩ := createAll_fails hfails
  obtain ⟨tail, rfl⟩ := (List.mem_inits _ _).mp hmem
  have htarget : ¬ targetOf (path ++ tail) manifest.runtimeVersion <+: path := by
    intro h
    have := h.length_le
    simp only [targetOf, List.length_append, List.length_singleton] at this
    omega
  rw [wiped_of_not_below htarget] at hfile
  by_contra hne
  have hdir := hclosed path (tail ++ [name] ++ rest) (by simp) (by simpa using hne)
  cases hfile.symm.trans hdir

theorem install_fresh (hversion : validateVersion manifest.runtimeVersion = true)
    (hinstalled : isInstalled digest root tree manifest = false)
    (hmade : ((wiped root manifest tree).createDirectories root).2 = true) :
    install digest root tree bundle manifest promoted =
      ((stage digest root (ready root manifest tree) bundle manifest promoted).1.deleteRecursively
        (stagingOf root manifest.runtimeVersion),
      if (stage digest root (ready root manifest tree) bundle manifest promoted).2 then
        some (targetOf root manifest.runtimeVersion) else none) := by
  rw [install, if_neg (by simp [hversion]), if_neg (by simp [hinstalled])]
  dsimp only
  split
  · rename_i tree₁ h
    rw [h] at hmade
    cases hmade
  · rename_i tree₁ h
    have htree : tree₁ = ((wiped root manifest tree).createDirectories root).1 := by rw [h]
    subst htree
    rfl

theorem install_blocked (hversion : validateVersion manifest.runtimeVersion = true)
    (hinstalled : isInstalled digest root tree manifest = false)
    (hmade : ((wiped root manifest tree).createDirectories root).2 = false) :
    install digest root tree bundle manifest promoted =
      (((wiped root manifest tree).createDirectories root).1, none) := by
  rw [install, if_neg (by simp [hversion]), if_neg (by simp [hinstalled])]
  dsimp only
  split
  · rename_i tree₁ h
    rw [h]
  · rename_i tree₁ h
    rw [h] at hmade
    cases hmade

/-- A path that is not below one of the two directories or above the root is as it was. -/
theorem ready_of_not_touches (h : ¬ Touches root manifest.runtimeVersion path) :
    ready root manifest tree path = tree path := by
  simp only [Touches, not_or] at h
  rw [ready_of_not_below h.1 h.2.2, wiped_of_not_below h.2.1]

theorem extractAndVerify_frame {staging : Path} (hpresent : Present staging tree) :
    SameOutside staging tree (extractAndVerify digest tree bundle staging declaredFiles).1 := by
  have hframe := @extractEntries_frame digest staging tree declaredFiles [] bundle hpresent
  unfold extractAndVerify
  split
  · rename_i tree₁ hentries
    rwa [hentries] at hframe
  · rename_i tree₁ extracted hentries
    rwa [hentries] at hframe

/-- What a call changes besides its target is below the staging directory or above the root. -/
theorem install_contained : Contained digest root bundle manifest promoted := by
  refine ⟨fun tree declaredFiles hpresent => extractAndVerify_frame hpresent, fun tree path h => ?_⟩
  have htouches := h
  simp only [Touches, not_or] at htouches
  cases hversion : validateVersion manifest.runtimeVersion with
  | false => rw [install, if_pos hversion]
  | true =>
    cases hinstalled : isInstalled digest root tree manifest with
    | true => rw [install_of_isInstalled hversion hinstalled]
    | false =>
      cases hmade : ((wiped root manifest tree).createDirectories root).2 with
      | false =>
        rw [install_blocked hversion hinstalled hmade]
        dsimp only
        rw [createDirectories_root htouches.2.2, wiped_of_not_below htouches.2.1]
      | true =>
        rw [install_fresh hversion hinstalled hmade]
        dsimp only
        rw [deleteRecursively_of_not_below htouches.1]
        obtain ⟨-, hsame⟩ | ⟨declaredFiles, extracted, tree₁, -, hentries, -, -, hstage⟩ :=
          @stage_cases digest root _ bundle manifest promoted (present_ready hmade)
        · rw [hsame path htouches.1, ready_of_not_touches h]
        · have hframe := @extractEntries_frame digest _ (ready root manifest tree) declaredFiles []
            bundle (present_ready hmade)
          rw [hentries] at hframe
          have hset : SameOutside (stagingOf root manifest.runtimeVersion)
            (ready root manifest tree)
              (withMarker digest root manifest tree₁) :=
            hframe.trans (sameOutside_set (List.prefix_append _ [fingerprintFile]) tree₁ _)
          rw [hstage]
          dsimp only
          rw [move_of_not_below htouches.2.1 htouches.1, hset path htouches.1,
            ready_of_not_touches h]

section Again

variable (hapart : ∀ version, validateVersion version = true →
  targetOf root manifest.runtimeVersion ≠ stagingOf root version)

include hapart

/-- A call for another version does not come near the target. -/
theorem isInstalled_install {request : Request} (hother : request.manifest = manifest ∨
      request.manifest.runtimeVersion ≠ manifest.runtimeVersion)
    (hversion : validateVersion manifest.runtimeVersion = true)
    (h : isInstalled digest root tree manifest = true) :
    isInstalled digest root
      (install digest root tree request.bundle request.manifest request.promoted).1 manifest =
        true := by
  obtain hsame | hne := hother
  · rw [hsame, install_of_isInstalled hversion h]
    exact h
  cases hversion' : validateVersion request.manifest.runtimeVersion with
  | false => rwa [install, if_pos hversion']
  | true =>
    rw [isInstalled_congr fun path hpath => install_contained.install tree path ?_]
    · exact h
    have heq {name : Text} (hname : root ++ [name] <+: path) :
        root ++ [name] = targetOf root manifest.runtimeVersion :=
      (List.prefix_of_prefix_length_le hname hpath (by simp [targetOf])).eq_of_length
        (by simp [targetOf])
    rintro (hstaging | htarget | hroot)
    · exact hapart _ hversion' (heq hstaging).symm
    · exact hne (by simpa [targetOf] using heq htarget)
    · have hle := (hpath.trans hroot).length_le
      simp only [targetOf, List.length_append, List.length_singleton] at hle
      omega

theorem isInstalled_runInstalls {requests : List Request}
    (hothers : ∀ request ∈ requests, request.manifest = manifest ∨
      request.manifest.runtimeVersion ≠ manifest.runtimeVersion)
    (hversion : validateVersion manifest.runtimeVersion = true)
    (h : isInstalled digest root tree manifest = true) :
    isInstalled digest root (runInstalls digest root tree requests) manifest = true := by
  induction requests generalizing tree with
  | nil => exact h
  | cons request requests ih =>
    obtain ⟨hother, hothers⟩ := List.forall_mem_cons.mp hothers
    exact ih hothers (isInstalled_install hapart hother hversion h)

/-- Once the target can be trusted, every later call for the manifest leaves the tree alone. -/
theorem install_again {tree' : Tree} {requests : List Request}
    (hothers : ∀ request ∈ requests, request.manifest = manifest ∨
      request.manifest.runtimeVersion ≠ manifest.runtimeVersion)
    (hversion : validateVersion manifest.runtimeVersion = true)
    (h : isInstalled digest root tree' manifest = true) :
    install digest root (runInstalls digest root tree' requests) bundle manifest promoted =
      (runInstalls digest root tree' requests, some (targetOf root manifest.runtimeVersion)) :=
  install_of_isInstalled hversion (isInstalled_runInstalls hapart hothers hversion h)

end Again

theorem allOrNothing_of_blocked (hclosed : tree.Closed)
    (hversion : validateVersion manifest.runtimeVersion = true)
    (hinstalled : isInstalled digest root tree manifest = false)
    (hmade : ((wiped root manifest tree).createDirectories root).2 = false) :
    AllOrNothing digest root tree bundle manifest promoted := by
  have heq := @install_blocked digest root tree bundle manifest promoted hversion hinstalled hmade
  have hpath : ∀ path, ¬ path <+: root →
    (install digest root tree bundle manifest promoted).1 path = wiped root manifest tree path := by
    intro path h
    rw [heq]
    exact createDirectories_root h
  refine ⟨fun _ => ?_, fun _ => .inr fun path => ?_, fun path h => ?_, fun path h => ?_⟩
  · have htarget := fun path => hpath _ (not_prefix_root manifest.runtimeVersion path)
    simp only [targetOf, htarget]
    exact wiped_target tree
  · rw [hpath (stagingOf root manifest.runtimeVersion ++ path) (not_prefix_root _ path),
      wiped_of_not_below (not_prefix_staging root _ path).2]
    exact nothing_below_file hclosed hmade _ path
  · rw [heq] at h
    cases h
  · rw [heq] at h
    cases h

theorem allOrNothing_of_stage_fails (hversion : validateVersion manifest.runtimeVersion = true)
    (hinstalled : isInstalled digest root tree manifest = false)
    (hmade : ((wiped root manifest tree).createDirectories root).2 = true)
    (hfails : (stage digest root (ready root manifest tree) bundle manifest promoted).2 = false)
    (hsame : SameOutside (stagingOf root manifest.runtimeVersion) (ready root manifest tree)
      (stage digest root (ready root manifest tree) bundle manifest promoted).1) :
    AllOrNothing digest root tree bundle manifest promoted := by
  have heq := @install_fresh digest root tree bundle manifest promoted hversion hinstalled hmade
  rw [hfails] at heq
  have hpath : ∀ path, ¬ stagingOf root manifest.runtimeVersion <+: path →
      (install digest root tree bundle manifest promoted).1 path =
        ready root manifest tree path := by
    intro path h
    rw [heq]
    dsimp only
    rw [deleteRecursively_of_not_below h, hsame path h]
  have htarget : ∀ path, (install digest root tree bundle manifest promoted).1
      (targetOf root manifest.runtimeVersion ++ path) =
        wiped root manifest tree (targetOf root manifest.runtimeVersion ++ path) := by
    intro path
    rw [hpath _ (not_prefix_staging root manifest.runtimeVersion path).1, ready_target]
  refine ⟨fun _ => ?_, fun _ => .inr fun path => ?_, fun path h => ?_, fun path h => ?_⟩
  · simp only [htarget]
    exact wiped_target tree
  · rw [heq]
    exact deleteRecursively_append _ _ path
  · rw [heq] at h
    cases h
  · rw [heq] at h
    cases h

/-- The extraction succeeds, and its directory becomes the target. -/
theorem allOrNothing_of_stage_ok (hroot : Plain root)
    (hversion : validateVersion manifest.runtimeVersion = true)
    (hinstalled : isInstalled digest root tree manifest = false)
    (h : Undisturbed digest root tree manifest)
    (hmade : ((wiped root manifest tree).createDirectories root).2 = true)
    {tree₁ : Tree}
    (hdeclared : declarationsByPath (stagingOf root manifest.runtimeVersion) [] manifest.files =
      some declaredFiles)
    (hentries : extractEntries digest (stagingOf root manifest.runtimeVersion) declaredFiles
      (ready root manifest tree) [] bundle = (tree₁, some extracted))
    (hall : ∀ declaration ∈ declaredFiles, declaration.1 ∈ extracted)
    (hstage : stage digest root (ready root manifest tree) bundle manifest promoted =
      ((withMarker digest root manifest tree₁).move (stagingOf root manifest.runtimeVersion)
        (targetOf root manifest.runtimeVersion), true)) :
    AllOrNothing digest root tree bundle manifest promoted := by
  have heq := @install_fresh digest root tree bundle manifest promoted hversion hinstalled hmade
  rw [hstage] at heq
  obtain ⟨hfiles, hrelative⟩ := declarationsByPath_eq_some hdeclared
  rw [List.nil_append] at hfiles
  have hclean := h.clean (by simp [hdeclared])
  have hplain : ∀ declaration ∈ declaredFiles, Plain declaration.1 := by
    intro declaration hmem
    rw [hfiles] at hmem
    obtain ⟨file, hfile, rfl⟩ := List.mem_map.mp hmem
    exact plain_relativePath (hclean file hfile).1
  have hstaged := extractEntries_ok digest (plain_stagingOf hroot _) hplain
    (staged_ready declaredFiles) hentries
  have hmoved : ∀ path, (install digest root tree bundle manifest promoted).1
      (targetOf root manifest.runtimeVersion ++ path) =
        withMarker digest root manifest tree₁ (stagingOf root manifest.runtimeVersion ++ path) := by
    intro path
    rw [heq]
    dsimp only
    rw [deleteRecursively_of_not_below (not_prefix_staging root _ path).1, move_append]
  have hdone : Installed digest (install digest root tree bundle manifest promoted).1
      (targetOf root manifest.runtimeVersion) manifest :=
    installed_of_staged (plain_targetOf hroot hversion) hfiles
      (declarationsByPath_nodup hdeclared List.nodup_nil) hclean hstaged hall hmoved
  have hpath : ∀ path, (install digest root tree bundle manifest promoted).2 = some path →
      path = targetOf root manifest.runtimeVersion := by
    intro path hok
    rw [heq] at hok
    exact (Option.some.inj hok).symm
  refine ⟨fun hfails => ?_, fun hfails => ?_, fun path hok => ?_,
    fun path hok requests hothers bundle' promoted' => ?_⟩
  · rw [heq] at hfails
    cases hfails
  · rw [heq] at hfails
    cases hfails
  · obtain rfl := hpath path hok
    exact ⟨rfl, hdone⟩
  · obtain rfl := hpath path hok
    exact install_again h.apart hothers hversion (hdone.isInstalled hrelative)

end Install

/-- A function that could be SHA-256 as far as the installer can tell. -/
def paddedDigest (bytes : List UInt8) : List UInt8 := List.replicate 32 0 ++ bytes

/-- An empty file. -/
def emptyFile (path : Text) : RuntimeFile := ⟨path, 0, List.replicate 64 '0'⟩

end PS4Droid.Runtime.Install
