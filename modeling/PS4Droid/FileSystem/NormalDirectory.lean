import Mathlib.Algebra.BigOperators.Group.List.Basic
import PS4Droid.Foundations.BoundedBuffers

/-!
# Directories

`NormalDirectory` of `core/file_sys`: the buffer with the entries of a directory, built anew for
each position it is read at, and `getdents`. The listing is what `IterateDirectory` calls back with.
A result is none if a function reads or writes behind the buffer.
-/

namespace PS4Droid.FileSystem

open ByteStrings BoundedBuffers

/-- One call of `IterateDirectory`: the file name of the path, which has no zero in it, and is it a
file? -/
structure DirectoryEntry where
  leaf : List UInt8
  entIsFile : Bool
  noZero : 0 ∉ leaf

/-- The name is an array of 256 bytes. -/
structure NormalDirectoryDirent where
  dFileno : UInt32
  dReclen : ℕ
  dType : UInt8
  dNamlen : UInt8
  dName : List UInt8

def NormalDirectoryDirent.bytes (dirent : NormalDirectoryDirent) : List UInt8 :=
  leBytes 4 dirent.dFileno.toNat ++ leBytes 2 dirent.dReclen ++ [dirent.dType, dirent.dNamlen] ++
    dirent.dName

def direntMetaSize : ℕ := 8

def alignUp (value size : ℕ) : ℕ := if value % size = 0 then value else value - value % size + size

def alignDown (value size : ℕ) : ℕ := value - value % size

/-- `strncpy` into zeros. -/
def strncpy (size : ℕ) (source : List UInt8) (n : ℕ) : List UInt8 :=
  let copied := (source.takeWhile (· ≠ 0)).take n
  copied ++ List.replicate (size - copied.length) 0

def DirectoryEntry.dirent (entry : DirectoryEntry) (dFileno : UInt32) : NormalDirectoryDirent :=
  let dNamlen := UInt8.ofNat entry.leaf.length
  { dFileno
    dReclen := alignUp (direntMetaSize + dNamlen.toNat + 1) 4
    dType := UInt8.ofNat ((if entry.entIsFile then 0o100000 else 0o040000) / 2 ^ 12)
    dNamlen
    dName := strncpy 256 entry.leaf (dNamlen.toNat + 1) }

/-! ### The buffer -/

/-- The variables of `RebuildDirents`. -/
structure Layout where
  nextCeiling : ℕ := 0
  direntOffset : ℕ := 0
  lastReclenOffset : ℕ := 4
  direntCacheBin : List UInt8 := []
  filenoPool : UInt32

/-- A record length in the buffer is increased. Nothing is added before the first record. -/
def addReclen (buffer : List UInt8) (offset n : ℕ) : Option (List UInt8) :=
  if n = 0 then some buffer
  else (slice buffer offset 2).bind fun reclen => store buffer offset (leBytes 2 (leNat reclen + n))

def resize (buffer : List UInt8) (n : ℕ) : List UInt8 :=
  buffer.take n ++ List.replicate (n - buffer.length) 0

def fill (buffer : List UInt8) (start stop : ℕ) : List UInt8 :=
  buffer.take start ++ List.replicate (stop - start) 0 ++ buffer.drop stop

/-- The record before is aligned to the ceiling, and the next one starts there. -/
def Layout.nextBlock (layout : Layout) : Option Layout :=
  (addReclen layout.direntCacheBin layout.lastReclenOffset
    (layout.nextCeiling - layout.direntOffset)).map fun buffer =>
    { layout with
      direntOffset := layout.nextCeiling
      nextCeiling := layout.nextCeiling + 512
      direntCacheBin := fill (resize buffer (layout.nextCeiling + 512)) layout.nextCeiling
        (layout.nextCeiling + 512) }

/-- The callback. -/
def Layout.addEntry (layout : Layout) (entry : DirectoryEntry) : Option Layout :=
  let dirent := entry.dirent (layout.filenoPool + 1)
  let layout := { layout with filenoPool := layout.filenoPool + 1 }
  (if layout.nextCeiling < dirent.dReclen + layout.direntOffset then layout.nextBlock
    else some layout).bind fun layout =>
    (store layout.direntCacheBin layout.direntOffset (dirent.bytes.take dirent.dReclen)).map
      fun buffer =>
      { layout with
        lastReclenOffset := layout.direntOffset + 4
        direntOffset := layout.direntOffset + dirent.dReclen
        direntCacheBin := buffer }

def Layout.addEntries (layout : Layout) : List DirectoryEntry → Option Layout
  | [] => some layout
  | entry :: listing => (layout.addEntry entry).bind fun layout => layout.addEntries listing

structure NormalDirectory where
  fileOffset : ℕ := 0
  previousFileOffset : ℤ := -1
  directorySize : ℕ := 0
  direntCacheBin : List UInt8 := []

/-- `filenoPool` is a static of all directories; the last inode number given out. -/
def NormalDirectory.rebuildDirents (listing : List DirectoryEntry) (filenoPool : UInt32)
    (directory : NormalDirectory) :
    Option (NormalDirectory × UInt32) :=
  if directory.previousFileOffset = directory.fileOffset then some (directory, filenoPool)
  else
    (Layout.addEntries { filenoPool } listing).bind fun layout =>
      (addReclen layout.direntCacheBin layout.lastReclenOffset
        (layout.nextCeiling - layout.direntOffset)).map fun buffer =>
        ({ directory with
          previousFileOffset := directory.fileOffset
          directorySize := layout.nextCeiling
          direntCacheBin := buffer }, layout.filenoPool)

/-- The constructor. -/
def NormalDirectory.create (listing : List DirectoryEntry) (filenoPool : UInt32) :
    Option (NormalDirectory × UInt32) :=
  NormalDirectory.rebuildDirents listing filenoPool {}

/-! ### Reading -/

/-- The loop of `getdents`: where it is in the buffer, what is to be skipped, and what has been
written. -/
def readDirents (buffer : List UInt8) (alignedCount : ℤ) :
    ℕ → ℕ → ℕ → List UInt8 → Option (List UInt8)
  | 0, _, _, _ => none
  | fuel + 1, direntBufferOffset, workingOffset, written =>
    if direntBufferOffset < buffer.length then
      match slice buffer (direntBufferOffset + 4) 2, buffer[direntBufferOffset + 7]? with
      | some reclen, some dNamlen =>
        let dReclen := leNat reclen
        if dNamlen = 0 then some written
        else if dReclen ≤ workingOffset then
          readDirents buffer alignedCount fuel (direntBufferOffset + dReclen)
            (workingOffset - dReclen) written
        else if alignedCount < written.length + dReclen then some written
        else
          (slice buffer (direntBufferOffset + workingOffset) (dReclen - workingOffset)).bind
            fun bytes =>
            readDirents buffer alignedCount fuel (direntBufferOffset + dReclen) 0 (written ++ bytes)
      | _, _ => none
    else some written

/-- What a call writes through its pointers, and how many bytes it returns: those of `buf`. -/
structure GetdentsResult where
  directory : NormalDirectory
  buf : List UInt8
  basep : ℕ

/-- The byte count is an `u64`, and rounded down to blocks an `s64`. -/
def NormalDirectory.getdents (listing : List DirectoryEntry) (filenoPool : UInt32) (nbytes : UInt64)
    (directory : NormalDirectory) : Option GetdentsResult :=
  (directory.rebuildDirents listing filenoPool).bind fun (directory, _) =>
    if directory.directorySize ≤ directory.fileOffset then
      some ⟨directory, [], directory.fileOffset⟩
    else
      let alignedCount := (BitVec.ofNat 64 (alignDown nbytes.toNat 512)).toInt
      (readDirents directory.direntCacheBin alignedCount
        (directory.direntCacheBin.length + 1) 0 directory.fileOffset []).map
        fun written =>
          ⟨{ directory with fileOffset := directory.fileOffset + written.length }, written,
            directory.fileOffset⟩

/-- Calls behind each other. Other directories may take inode numbers between them, so each call has
a pool. -/
def NormalDirectory.reads (listing : List DirectoryEntry) :
    NormalDirectory → List (UInt64 × UInt32) → Option (List (List UInt8))
  | _, [] => some []
  | directory, (nbytes, filenoPool) :: calls =>
    (directory.getdents listing filenoPool nbytes).bind fun result =>
      (NormalDirectory.reads listing result.directory calls).map (result.buf :: ·)

/-! ### Records -/

/-- An entry as it stands in the buffer, with zeros up to its length. -/
structure Dirent where
  fileno : UInt32
  entry : DirectoryEntry
  reclen : ℕ

namespace Dirent

def bytes (d : Dirent) : List UInt8 :=
  leBytes 4 d.fileno.toNat ++ leBytes 2 d.reclen ++
    [UInt8.ofNat (if d.entry.entIsFile then 8 else 4), UInt8.ofNat d.entry.leaf.length] ++
      d.entry.leaf ++
    List.replicate (d.reclen - (8 + d.entry.leaf.length)) 0

/-- What the record has besides its inode number. -/
def shape (d : Dirent) : DirectoryEntry × ℕ := (d.entry, d.reclen)

/-- The name and a zero behind it are in the record, which is not longer than a block. -/
structure Holds (d : Dirent) : Prop where
  name : 8 + d.entry.leaf.length + 1 ≤ d.reclen
  block : d.reclen ≤ 512

end Dirent

def bytesOf (records : List Dirent) : List UInt8 := records.flatMap Dirent.bytes

/-- What a directory buffer is. -/
structure Records (listing : List DirectoryEntry) (directory : NormalDirectory)
    (records : List Dirent) : Prop where
  bytes : directory.direntCacheBin = bytesOf records
  entries : records.map Dirent.entry = listing
  holds : ∀ d ∈ records, d.Holds
  size : directory.directorySize = (records.map Dirent.reclen).sum
  aligned : 512 ∣ directory.directorySize
  within : ∀ before d after, records = before ++ d :: after →
    (bytesOf before).length % 512 + d.reclen ≤ 512

/-- Calls with buffers of the given sizes return the records from here on, each call at least one
and no part of one; behind the last one they return nothing. -/
def Enumerated : List (DirectoryEntry × ℕ) → List UInt64 → List (List UInt8) → Prop
  | _, [], returned => returned = []
  | _, _ :: _, [] => False
  | shapes, nbytes :: calls, buf :: returned =>
    if shapes = [] then buf = [] ∧ Enumerated [] calls returned
    else ∃ first more, shapes = first.map Dirent.shape ++ more ∧ first ≠ [] ∧ buf = bytesOf first ∧
      buf.length ≤ nbytes.toNat ∧ Enumerated more calls returned

end PS4Droid.FileSystem
