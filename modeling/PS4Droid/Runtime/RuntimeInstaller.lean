import Mathlib.Data.List.Lex
import Mathlib.Data.List.Sort
import PS4Droid.Foundations.FileTree

/-!
# The runtime installer

`RuntimeInstaller.kt` and `RuntimeManifest.kt` over a file tree. A bundle is the list of entries
that the ZIP decoder gives, and SHA-256 is a function `digest` on bytes. Texts are lists of
characters. An exception is a failure without its message, and leaves behind what was written before
it.

What the file system refuses for reasons of its own (no space, no permission) is left out, except
that `promote` may fail. The executable bits of the files are left out too.
-/

namespace PS4Droid.Runtime.Install

abbrev Text := List Char

abbrev Path := List Text

abbrev Tree := FileTree Text UInt8

structure RuntimeFile where
  path : Text
  size : ℤ
  sha256 : Text
  deriving DecidableEq

structure RuntimeManifest where
  runtimeVersion : Text
  files : List RuntimeFile
  deriving DecidableEq

structure ZipEntry where
  name : Text
  bytes : List UInt8
  deriving DecidableEq

namespace ZipEntry

def isDirectory (entry : ZipEntry) : Bool := entry.name.getLast? = some '/'

end ZipEntry

/-- `Char.isWhitespace` of Kotlin. -/
def isWhitespace (c : Char) : Bool :=
  let n := c.toNat
  (9 ≤ n && n ≤ 13) || (28 ≤ n && n ≤ 32) || n = 0xa0 || n = 0x1680 || (0x2000 ≤ n && n ≤ 0x200a) ||
    n = 0x2028 || n = 0x2029 || n = 0x202f || n = 0x205f || n = 0x3000

def trim (text : Text) : Text :=
  ((text.dropWhile isWhitespace).reverse.dropWhile isWhitespace).reverse

def utf8 (text : Text) : List UInt8 := text.flatMap String.utf8EncodeChar

/-- The text of a file, if its bytes are well formed. The replacement characters of the decoder are
no part of any fingerprint. -/
def decodeUtf8 (bytes : List UInt8) : Option Text :=
  bytes.toByteArray.utf8Decode?.map Array.toList

def hexDigit (n : ℕ) : Char := if n < 10 then Char.ofNat (48 + n) else Char.ofNat (87 + n)

def toHexString (bytes : List UInt8) : Text :=
  bytes.flatMap fun byte => [hexDigit (byte.toNat / 16), hexDigit (byte.toNat % 16)]

def dot : Text := ['.']

def dotDot : Text := ['.', '.']

/-- The names of a path; empty ones are dropped. -/
def splitPath : Text → Path
  | [] => []
  | c :: rest =>
    match splitPath rest with
    | [] => if c = '/' then [] else [[c]]
    | name :: names =>
      if c = '/' then name :: names
      else if rest.head? = some '/' then [c] :: name :: names
      else (c :: name) :: names

/-- `Path.normalize` of a relative path. -/
def normalize (path : Path) : Path :=
  path.foldl (fun names name =>
    if name = dot then names
    else if name = dotDot ∧ names ≠ [] ∧ names.getLast? ≠ some dotDot then names.dropLast
    else names ++ [name]) []

/-- `Path.normalize` of an absolute path. -/
def normalizeAbsolute (path : Path) : Path :=
  path.foldl (fun names name =>
    if name = dot then names
    else if name = dotDot then names.dropLast
    else names ++ [name]) []

def safeRelativePath (staging : Path) (rawPath : Text) : Option Path :=
  if rawPath.all isWhitespace then none
  else
    let text := rawPath.map fun c => if c = '\\' then '/' else c
    let relative := normalize (splitPath text)
    if '\x00' ∈ text then none
    else if text.head? = some '/' ∨ relative = [] then none
    else if staging <+: normalizeAbsolute (staging ++ relative) then some relative
    else none

def validateVersion (version : Text) : Bool :=
  version ≠ [] && (version.all fun c => c.isAlphanum || c = '.' || c = '_' || c = '-') &&
    version ≠ dot && version ≠ dotDot

def hashPattern (text : Text) : Bool :=
  text.length = 64 && text.all fun c => c.isDigit || ('a' ≤ c && c ≤ 'f')

/-- `declarationsByPath`, after the files that `declared` holds. -/
def declarationsByPath (staging : Path) (declared : List (Path × RuntimeFile)) :
    List RuntimeFile → Option (List (Path × RuntimeFile))
  | [] => some declared
  | file :: rest =>
    if file.size < 0 ∨ hashPattern file.sha256 = false then none
    else
      match safeRelativePath staging file.path with
      | none => none
      | some path =>
        if declared.any fun declaration => declaration.1 = path then none
        else declarationsByPath staging (declared ++ [(path, file)]) rest

def fingerprintFile : Text :=
  ['.', 'r', 'u', 'n', 't', 'i', 'm', 'e', '-', 'f', 'i', 'n', 'g', 'e', 'r', 'p', 'r', 'i', 'n',
    't']

section Digest

variable (digest : List UInt8 → List UInt8)

def sha256 (bytes : List UInt8) : Text := toHexString (digest bytes)

/-- The code units that Kotlin compares strings by. -/
def utf16 (text : Text) : List ℕ :=
  text.flatMap fun c =>
    let n := c.toNat
    if n < 0x10000 then [n] else [0xd800 + (n - 0x10000) / 0x400, 0xdc00 + (n - 0x10000) % 0x400]

/-- `sortedBy` keeps the order of files with the same path. -/
def sortedByPath (files : List RuntimeFile) : List RuntimeFile :=
  files.mergeSort fun a b => decide (utf16 a.path ≤ utf16 b.path)

def contentFingerprint (manifest : RuntimeManifest) : Text :=
  sha256 digest ((sortedByPath manifest.files).flatMap fun file =>
    utf8 file.path ++ [0] ++ utf8 (toString file.size).toList ++ [0] ++ utf8 file.sha256 ++ [0])

/-- `extractFile`; `target` is where the path leads to in the file system. -/
def extractFile (tree : Tree) (target : Path) (declaration : RuntimeFile) (bytes : List UInt8) :
    Tree × Bool :=
  let (tree, made) := tree.createDirectories target.dropLast
  if ¬ made then (tree, false)
  else if tree target ≠ none then (tree, false)
  else
    -- a file that is too long is written in part
    let tree := tree.set target (.file (bytes.take declaration.size.toNat))
    (tree, (bytes.length : ℤ) = declaration.size && sha256 digest bytes = declaration.sha256)

/-- The loop of `extractAndVerify`, after the paths that `extracted` holds. -/
def extractEntries (staging : Path) (declaredFiles : List (Path × RuntimeFile)) (tree : Tree)
    (extracted : List Path) : List ZipEntry → Tree × Option (List Path)
  | [] => (tree, some extracted)
  | entry :: rest =>
    if entry.isDirectory then (tree, none)
    else
      match safeRelativePath staging entry.name with
      | none => (tree, none)
      | some path =>
        if path ∈ extracted then (tree, none)
        else
          match declaredFiles.find? fun declaration => declaration.1 = path with
          | none => (tree, none)
          | some (_, declaration) =>
            match extractFile digest tree (normalizeAbsolute (staging ++ path)) declaration
                entry.bytes with
            | (tree, false) => (tree, none)
            | (tree, true) =>
              extractEntries staging declaredFiles tree (path :: extracted) rest

def extractAndVerify (tree : Tree) (bundle : List ZipEntry) (staging : Path)
    (declaredFiles : List (Path × RuntimeFile)) : Tree × Bool :=
  match extractEntries digest staging declaredFiles tree [] bundle with
  | (tree, none) => (tree, false)
  | (tree, some extracted) =>
    (tree, declaredFiles.all fun declaration => declaration.1 ∈ extracted)

def verifyFile (tree : Tree) (target : Path) (file : RuntimeFile) : Bool :=
  match safeRelativePath target file.path with
  | none => false
  | some path =>
    match tree (normalizeAbsolute (target ++ path)) with
    | some (.file bytes) => (bytes.length : ℤ) = file.size && sha256 digest bytes = file.sha256
    | _ => false

def verifyInstalledContent (tree : Tree) (target : Path) (files : List RuntimeFile) : Bool :=
  files.all (verifyFile digest tree target)

/-- The marker in an installed directory says that it holds these files. -/
def markerMatches (tree : Tree) (target : Path) (fingerprint : Text) : Bool :=
  match tree (target ++ [fingerprintFile]) with
  | some (.file bytes) => (decodeUtf8 bytes).map trim = some fingerprint
  | _ => false

/-- `Files.write`. -/
def writeFile (tree : Tree) (path : Path) (bytes : List UInt8) : Tree × Bool :=
  match tree path with
  | some .dir => (tree, false)
  | _ => (tree.set path (.file bytes), true)

variable (root : Path)

def stagingOf (version : Text) : Path :=
  root ++ [['.', 's', 't', 'a', 'g', 'i', 'n', 'g', '-'] ++ version]

def targetOf (version : Text) : Path := root ++ [version]

/-- The body of the `try` in `installOrThrow`. -/
def stage (tree : Tree) (bundle : List ZipEntry) (manifest : RuntimeManifest) (promoted : Bool) :
    Tree × Bool :=
  let staging := stagingOf root manifest.runtimeVersion
  let target := targetOf root manifest.runtimeVersion
  match declarationsByPath staging [] manifest.files with
  | none => (tree, false)
  | some declaredFiles =>
    match extractAndVerify digest tree bundle staging declaredFiles with
    | (tree, false) => (tree, false)
    | (tree, true) =>
      match writeFile tree (staging ++ [fingerprintFile])
        (utf8 (contentFingerprint digest manifest)) with
      | (tree, false) => (tree, false)
      | (tree, true) =>
        if tree target ≠ none then (tree, false)
        else if ¬ promoted then (tree, false)
        else (tree.move staging target, true)

/-- The target is a directory that can be trusted as it is. -/
def isInstalled (tree : Tree) (manifest : RuntimeManifest) : Bool :=
  let target := targetOf root manifest.runtimeVersion
  tree target = some .dir && markerMatches tree target (contentFingerprint digest manifest) &&
    verifyInstalledContent digest tree target manifest.files

/-- `install`; `promoted` says whether `promote` succeeds. The answer is the installed path. -/
def install (tree : Tree) (bundle : List ZipEntry) (manifest : RuntimeManifest) (promoted : Bool) :
    Tree × Option Path :=
  if validateVersion manifest.runtimeVersion = false then (tree, none)
  else
    let staging := stagingOf root manifest.runtimeVersion
    let target := targetOf root manifest.runtimeVersion
    if isInstalled digest root tree manifest then (tree, some target)
    else
      let tree := if tree target = some .dir then tree.deleteRecursively target else tree
      match tree.createDirectories root with
      | (tree, false) => (tree, none)
      | (tree, true) =>
        let tree := (tree.deleteRecursively staging).set staging .dir
        let (tree, installed) := stage digest root tree bundle manifest promoted
        (tree.deleteRecursively staging, if installed then some target else none)

end Digest

end PS4Droid.Runtime.Install
