import Mathlib.Data.UInt

/-!
# Extraction of a file from a package

`extract_file` of `pkg_extractor.cpp`. The decrypted PFS image is given by its bytes; the window
that the loop reads and decrypts for a block is a part of it. `int` arithmetic wraps.
-/

namespace PS4Droid.Pkg

abbrev Bytes := List UInt8

/-- The conversion to `int`. -/
def toInt32 (value : ℤ) : ℤ := value.bmod (2 ^ 32)

def blockSize : ℕ := 0x10000

def pfscBufSize : ℕ := 0x11000

def pfsFile : ℕ := 2

/-- The fields of `Inode` that the extraction reads. -/
structure Inode where
  size : ℤ
  blocks : ℕ
  loc : ℕ
  size_mem : -2 ^ 63 ≤ size ∧ size < 2 ^ 63
  blocks_lt : blocks < 2 ^ 32
  loc_lt : loc < 2 ^ 32

/-- `pfs_fs_table` without the name. -/
structure PfsFsTable where
  inode : ℕ
  type : ℕ

/-- `ExtractState`. The sector map has the length that `build_fs_table` gives it. -/
structure ExtractState (Path : Type) where
  iNodeBuf : List Inode
  sectorMap : List ℕ
  pfscOffset : ℕ
  extractPaths : ℕ → Option Path
  image : ℕ → UInt8
  sectorMap_length : 2 ≤ sectorMap.length ∧ sectorMap.length ≤ 2000001
  sectorMap_lt : ∀ offset ∈ sectorMap, offset < 2 ^ 64

/-- What comes from outside: the zlib stream that `DecompressPFSC` inflates, the file system, the
allocator, the cancel flag at each block and, where a write of the file fails, the bytes of the file
that come before. -/
structure Environment (Path : Type) where
  inflate : Bytes → Option Bytes
  inflate_length : ∀ compressed decompressed, inflate compressed = some decompressed →
    decompressed.length ≤ blockSize
  safeUnder : Path → Bool
  opens : Path → Bool
  cancelled : ℕ → Bool
  reads : ℕ → Bool
  resizes : ℕ → Bool
  writeFails : Option ℕ

inductive Error where
  | badInode
  | pathEscapes
  | cannotOpen
  | cancelled
  | sectorMap
  | readFailed
  | allocation
  | decompressFailed
  deriving DecidableEq

def Error.text : Error → String
  | badInode => "Bad inode"
  | pathEscapes => "Path escapes extract root"
  | cannotOpen => "Cannot open output file"
  | cancelled => "CANCELLED"
  | sectorMap => "sector map OOB"
  | readFailed => "PFS read failed"
  | allocation => "std::bad_alloc"
  | decompressFailed => "PFSC decompress failed"

/-- The objects that are read. -/
inductive Region where
  | sectorMap
  | window
  | decompressedData
  deriving DecidableEq

/-- How a call ends: with the bytes of the file, without a file, with an error, or with a read
outside an object. -/
inductive Result where
  | written (bytes : Bytes)
  | skipped
  | failed (error : Error)
  | outOfBounds (region : Region)
  deriving DecidableEq

/-- What one block puts into the output buffer. -/
inductive Load where
  | loaded (output : Bytes)
  | failed (error : Error)
  | outOfBounds (region : Region)

section Blocks

variable {Path : Type} (st : ExtractState Path) (env : Environment Path) (node : Inode)

/-- An element of `sectorMap`, with the index that the code computes. -/
def ExtractState.sector (index : ℤ) : Option ℕ :=
  if 0 ≤ index then st.sectorMap[index.toNat]? else none

/-- `previousData`: the distance of a block from the start of its window. -/
def previousData (position : ℕ) : ℤ :=
  let sectorOffsetMask := toInt32 ((position &&& 0xFFFFF000 : ℕ) : ℤ)
  toInt32 (position - sectorOffsetMask)

/-- The decrypted window. -/
def window (start : ℤ) : Bytes := (List.range pfscBufSize).map fun i => st.image (start.toNat + i)

/-- What the compressed bytes put into the output buffer. -/
def decompress (compressedData : Bytes) (sectorSize : ℕ) : Load :=
  if sectorSize = blockSize then .loaded compressedData
  else if sectorSize < blockSize then
    match env.inflate compressedData with
    | none => .failed .decompressFailed
    | some decompressed => .loaded decompressed
  else .loaded []

/-- The sector between two offsets, as the block `j`. -/
def loadSector (j sectorOffset sectorEnd : ℕ) : Load :=
  let sectorSize := (sectorEnd + 2 ^ 64 - sectorOffset) % 2 ^ 64
  let position := (st.pfscOffset + sectorOffset) % 2 ^ 64
  if ¬ env.reads j then .failed .readFailed
  else
    let pfsDecrypted := window st (position - previousData position)
    if ¬ env.resizes sectorSize then .failed .allocation
    else if (pfscBufSize : ℤ) < previousData position + sectorSize then .outOfBounds .window
    else
      let compressedData := (pfsDecrypted.drop (previousData position).toNat).take sectorSize
      decompress env compressedData sectorSize

/-- The block `j` of a file. -/
def load (j : ℕ) : Load :=
  let sectorLoc := toInt32 node.loc
  if env.cancelled j then .failed .cancelled
  else if toInt32 (sectorLoc + j + 1) ≥ st.sectorMap.length then .failed .sectorMap
  else
    match st.sector (sectorLoc + j), st.sector (sectorLoc + j + 1) with
    | some sectorOffset, some sectorEnd => loadSector st env j sectorOffset sectorEnd
    | _, _ => .outOfBounds .sectorMap

/-- The variables of the loop. -/
structure Loop where
  decompressedData : Bytes
  sizeDecompressed : ℤ
  written : Bytes

def Loop.initial : Loop where
  decompressedData := List.replicate blockSize 0
  sizeDecompressed := 0
  written := []

/-- The number of bytes that the last block gives. -/
def writeSize (sizeDecompressed : ℤ) : ℕ :=
  ((blockSize - toInt32 (sizeDecompressed - toInt32 node.size)) % 2 ^ 32).toNat

/-- The file behind the writes to `out`. A failed write sets the bad bit of the stream, with which
the later ones do nothing, and nothing looks at it. -/
def filed (written : Bytes) : Bytes :=
  match env.writeFails with
  | none => written
  | some room => written.take room

/-- The loop from the block `j` on. -/
def extractBlocks (nblocks : ℤ) : ℕ → ℕ → Loop → Result
  | 0, _, loop => .written (filed env loop.written)
  | remaining + 1, j, loop =>
    match load st env node j with
    | .failed error => .failed error
    | .outOfBounds region => .outOfBounds region
    | .loaded output =>
      let decompressedData := output ++ loop.decompressedData.drop output.length
      let sizeDecompressed := toInt32 (loop.sizeDecompressed + blockSize)
      if j < nblocks - 1 then
        extractBlocks nblocks remaining (j + 1)
          ⟨decompressedData, sizeDecompressed, loop.written ++ decompressedData⟩
      else
        let size := writeSize node sizeDecompressed
        if blockSize < size then .outOfBounds .decompressedData
        else
          extractBlocks nblocks remaining (j + 1)
            ⟨decompressedData, sizeDecompressed, loop.written ++ decompressedData.take size⟩

end Blocks

def extractFile {Path : Type} (st : ExtractState Path) (env : Environment Path)
    (table : PfsFsTable) :
    Result :=
  if table.type ≠ pfsFile then .skipped
  else
    match st.iNodeBuf[table.inode]? with
    | none => .failed .badInode
    | some node =>
      match st.extractPaths table.inode with
      | none => .skipped
      | some path =>
        if ¬ env.safeUnder path then .failed .pathEscapes
        else if ¬ env.opens path then .failed .cannotOpen
        else
          let nblocks := toInt32 node.blocks
          extractBlocks st env node nblocks nblocks.toNat 0 .initial

end PS4Droid.Pkg
