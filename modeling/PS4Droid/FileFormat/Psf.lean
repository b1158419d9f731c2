import PS4Droid.Foundations.ByteStrings
import PS4Droid.Foundations.LinkedMap

/-!
# Parameter files

`core/file_format/psf.h` and `psf.cpp`: entries with a key and a value of one of three formats, and
the bytes of `param.sfo`. Sizes that the format stores are cut off at their width; assertions and
accesses outside the buffer are failures.
-/

namespace PS4Droid.FileFormat

open ByteStrings

def chars (text : String) : List UInt8 := text.toList.map fun c => UInt8.ofNat c.toNat

def psfMagic : ℕ := 0x00505346

def psfVersion11 : ℕ := 0x00000101

def psfVersion10 : ℕ := 0x00000100

/-- The five fields, of four bytes each; the first has its high byte first. -/
structure PSFHeader where
  magic : ℕ
  version : ℕ
  keyTableOffset : ℕ
  dataTableOffset : ℕ
  indexTableEntries : ℕ

structure PSFRawEntry where
  keyOffset : ℕ
  paramFmt : ℕ
  paramLen : ℕ
  paramMaxLen : ℕ
  dataOffset : ℕ

def PSFHeader.bytes (header : PSFHeader) : List UInt8 :=
  (leBytes 4 header.magic).reverse ++ leBytes 4 header.version ++ leBytes 4 header.keyTableOffset ++
    leBytes 4 header.dataTableOffset ++ leBytes 4 header.indexTableEntries

def PSFHeader.ofBytes (bytes : List UInt8) : PSFHeader where
  magic := leNat (bytes.take 4).reverse
  version := leNat ((bytes.drop 4).take 4)
  keyTableOffset := leNat ((bytes.drop 8).take 4)
  dataTableOffset := leNat ((bytes.drop 12).take 4)
  indexTableEntries := leNat ((bytes.drop 16).take 4)

/-- `param_fmt` is handled by its raw bytes. -/
def PSFRawEntry.bytes (raw : PSFRawEntry) : List UInt8 :=
  leBytes 2 raw.keyOffset ++ leBytes 2 raw.paramFmt ++ leBytes 4 raw.paramLen ++
    leBytes 4 raw.paramMaxLen ++ leBytes 4 raw.dataOffset

def PSFRawEntry.ofBytes (bytes : List UInt8) : PSFRawEntry where
  keyOffset := leNat (bytes.take 2)
  paramFmt := leNat ((bytes.drop 2).take 2)
  paramLen := leNat ((bytes.drop 4).take 4)
  paramMaxLen := leNat ((bytes.drop 8).take 4)
  dataOffset := leNat ((bytes.drop 12).take 4)

inductive PSFEntryFmt where
  | binary
  | text
  | integer
  deriving DecidableEq

def PSFEntryFmt.raw : PSFEntryFmt → ℕ
  | binary => 0x0004
  | text => 0x0204
  | integer => 0x0404

def PSFEntryFmt.ofRaw (raw : ℕ) : Option PSFEntryFmt :=
  if raw = 0x0004 then some binary else if raw = 0x0204 then some text
    else if raw = 0x0404 then some integer else none

inductive Fault where
  | assertion
  | unreachable
  | outOfRange
  deriving DecidableEq

structure Entry where
  key : List UInt8
  paramFmt : PSFEntryFmt
  maxLen : ℕ

/-- A value on its way into one of the maps. -/
inductive Value where
  | binary (value : List UInt8)
  | text (value : List UInt8)
  | integer (value : BitVec 32)

def Value.fmt : Value → PSFEntryFmt
  | binary _ => .binary
  | text _ => .text
  | integer _ => .integer

structure PSF where
  entryList : List Entry := []
  mapBinaries : ℕ → Option (List UInt8) := fun _ => none
  mapStrings : ℕ → Option (List UInt8) := fun _ => none
  mapIntegers : ℕ → Option (BitVec 32) := fun _ => none

def psfKnownMaxSizes : List (List UInt8 × ℕ) :=
  [(chars "ACCOUNT_ID", 8), (chars "CATEGORY", 4), (chars "DETAIL", 1024), (chars "FORMAT", 4),
    (chars "MAINTITLE", 128),
    (chars "PARAMS", 1024), (chars "SAVEDATA_BLOCKS", 8), (chars "SAVEDATA_DIRECTORY", 32),
      (chars "SUBTITLE", 128),
    (chars "TITLE_ID", 12)]

/-- `get_max_size`; the default is a `u32`. -/
def getMaxSize (key : List UInt8) (defaultValue : ℕ) : ℕ :=
  (LinkedMap.get psfKnownMaxSizes key).getD (defaultValue % 2 ^ 32)

def Value.maxLen (key : List UInt8) : Value → ℕ
  | binary value => getMaxSize key value.length
  | text value => getMaxSize key (value.length + 1)
  | integer _ => 4

namespace PSF

/-! ### Entries -/

def findEntry (p : PSF) (key : List UInt8) : ℕ := p.entryList.findIdx fun entry => entry.key = key

/-- `map.at(index) = value`. -/
def assign (p : PSF) (index : ℕ) : Value → Except Fault PSF
  | .binary value =>
    if (p.mapBinaries index).isSome then
      .ok { p with mapBinaries := fun i => if i = index then some value else p.mapBinaries i }
    else .error .outOfRange
  | .text value =>
    if (p.mapStrings index).isSome then
      .ok { p with mapStrings := fun i => if i = index then some value else p.mapStrings i }
    else .error .outOfRange
  | .integer value =>
    if (p.mapIntegers index).isSome then
      .ok { p with mapIntegers := fun i => if i = index then some value else p.mapIntegers i }
    else .error .outOfRange

/-- `map.emplace(index, value)`, which keeps a value that is there. -/
def emplace (p : PSF) (index : ℕ) : Value → PSF
  | .binary value =>
    { p with
      mapBinaries := fun i =>
        if i = index then some ((p.mapBinaries i).getD value) else p.mapBinaries i }
  | .text value =>
    { p with
      mapStrings := fun i =>
        if i = index then some ((p.mapStrings i).getD value) else p.mapStrings i }
  | .integer value =>
    { p with
      mapIntegers := fun i =>
        if i = index then some ((p.mapIntegers i).getD value) else p.mapIntegers i }

/-- A new entry at the end. -/
def append (p : PSF) (key : List UInt8) (value : Value) (maxLen : ℕ) : PSF :=
  emplace { p with entryList := p.entryList ++ [⟨key, value.fmt, maxLen⟩] } p.entryList.length value

/-- What `AddBinary`, `AddString` and `AddInteger` have in common. -/
def add (p : PSF) (key : List UInt8) (value : Value) (update : Bool) : Except Fault PSF :=
  match p.entryList[p.findEntry key]? with
  | some entry =>
    if ¬update then .ok p
    else if entry.paramFmt ≠ value.fmt then .error .assertion
    else
      assign { p with entryList := p.entryList.modify (p.findEntry key) fun entry =>
        { entry with maxLen := value.maxLen key } } (p.findEntry key) value
  | none => .ok (p.append key value (value.maxLen key))

def addBinary (p : PSF) (key value : List UInt8) (update : Bool) : Except Fault PSF :=
  p.add key (.binary value) update

/-- The overload for eight bytes. -/
def addBinary64 (p : PSF) (key : List UInt8) (value : UInt64) (update : Bool) : Except Fault PSF :=
  p.addBinary key (leBytes 8 value.toNat) update

def addString (p : PSF) (key value : List UInt8) (update : Bool) : Except Fault PSF :=
  p.add key (.text value) update

def addInteger (p : PSF) (key : List UInt8) (value : BitVec 32) (update : Bool) :
    Except Fault PSF :=
  p.add key (.integer value) update

/-! ### Lookups -/

/-- What `GetBinary`, `GetString` and `GetInteger` have in common. -/
def lookup {α : Type} (p : PSF) (key : List UInt8) (fmt : PSFEntryFmt) (map : ℕ → Option α) :
    Except Fault (Option α) :=
  match p.entryList[p.findEntry key]? with
  | none => .ok none
  | some entry =>
    if entry.paramFmt ≠ fmt then .error .assertion
    else (map (p.findEntry key)).elim (.error .outOfRange) fun value => .ok (some value)

def getBinary (p : PSF) (key : List UInt8) : Except Fault (Option (List UInt8)) :=
  p.lookup key .binary p.mapBinaries

def getString (p : PSF) (key : List UInt8) : Except Fault (Option (List UInt8)) :=
  p.lookup key .text p.mapStrings

def getInteger (p : PSF) (key : List UInt8) : Except Fault (Option (BitVec 32)) :=
  p.lookup key .integer p.mapIntegers

/-! ### Encoding -/

/-- The first loop: the raw entries so far and the bytes behind the key table's start. -/
def writeKeys : List Entry → List UInt8 → List PSFRawEntry × List UInt8
  | [], bytes => ([], bytes)
  | entry :: rest, bytes =>
    let raw : PSFRawEntry := ⟨bytes.length % 2 ^ 16, entry.paramFmt.raw, 0, entry.maxLen, 0⟩
    let (raws, bytes) := writeKeys rest (bytes ++ entry.key ++ [0])
    (raw :: raws, bytes)

/-- The bytes of the value of an entry, with the terminator of a text. -/
def payload (p : PSF) (entry : Entry) (index : ℕ) : Except Fault (List UInt8) :=
  match entry.paramFmt with
  | .binary => (p.mapBinaries index).elim (.error .outOfRange) .ok
  | .text => (p.mapStrings index).elim (.error .outOfRange) fun value => .ok (value ++ [0])
  | .integer => (p.mapIntegers index).elim (.error .outOfRange) fun value =>
      .ok (leBytes 4 value.toNat)

/-- The conversion of a `u32` to `s32`. -/
def toS32 (n : ℕ) : ℤ := if n < 2 ^ 31 then n else n - 2 ^ 32

/-- The zeros up to a position that is a multiple of four. -/
def alignment (size : ℕ) : List UInt8 := if size % 4 ≠ 0 then List.replicate (4 - size % 4) 0
    else []

/-- The second loop, from the key table at `keyTableOffset` on: the raw entries and the bytes. -/
def writeData (p : PSF) (keyTableOffset dataTableOffset : ℕ) :
    ℕ → List (PSFRawEntry × Entry) → List UInt8 → Except Fault (List PSFRawEntry × List UInt8)
  | _, [], bytes => .ok ([], bytes)
  | index, (raw, entry) :: rest, bytes =>
    let bytes := bytes ++ alignment (keyTableOffset + bytes.length)
    let dataOffset := (keyTableOffset + bytes.length - dataTableOffset) % 2 ^ 32
    match p.payload entry index with
    | .error fault => .error fault
    | .ok value =>
      let paramLen := value.length % 2 ^ 32
      let additionalPadding := toS32 raw.paramMaxLen - toS32 paramLen
      if additionalPadding < 0 then .error .assertion
      else
        match writeData p keyTableOffset dataTableOffset (index + 1) rest
            (bytes ++ value ++ List.replicate additionalPadding.toNat 0) with
        | .error fault => .error fault
        | .ok (raws, bytes) => .ok
            ({ raw with dataOffset := dataOffset, paramLen := paramLen } :: raws, bytes)

def keyTableOffset (p : PSF) : ℕ := 20 + 16 * p.entryList.length

def encode (p : PSF) : Except Fault (List UInt8) :=
  let (raws, keys) := writeKeys p.entryList []
  let dataTableOffset := p.keyTableOffset + keys.length
  match p.writeData p.keyTableOffset dataTableOffset 0 (raws.zip p.entryList) keys with
  | .error fault => .error fault
  | .ok (raws, bytes) =>
    let header : PSFHeader :=
      ⟨psfMagic, psfVersion11, p.keyTableOffset % 2 ^ 32, dataTableOffset % 2 ^ 32,
      p.entryList.length % 2 ^ 32⟩
    .ok (header.bytes ++ raws.flatMap PSFRawEntry.bytes ++ bytes)

/-! ### Opening -/

def readRaw (buffer : List UInt8) (index : ℕ) : Option PSFRawEntry :=
  (slice buffer (20 + 16 * index) 16).map PSFRawEntry.ofBytes

/-- The value of an entry at its position. -/
def readValue (buffer : List UInt8) (raw : PSFRawEntry) (fmt : PSFEntryFmt) (position : ℕ) :
    Except Fault Value :=
  match fmt with
  | .binary => (slice buffer position raw.paramLen).elim (.error .outOfRange) fun value =>
      .ok (.binary value)
  | .text => (cString buffer position).elim (.error .outOfRange) fun value => .ok (.text value)
  | .integer =>
    if raw.paramLen ≠ 4 then .error .assertion
    else (slice buffer position 4).elim (.error .outOfRange) fun value =>
      .ok (.integer (BitVec.ofNat 32 (leNat value)))

/-- The entries from an index on. -/
def readEntries (buffer : List UInt8) (header : PSFHeader) : ℕ → ℕ → PSF → Except Fault PSF
  | _, 0, p => .ok p
  | index, count + 1, p =>
    match readRaw buffer index with
    | none => .error .outOfRange
    | some raw =>
      match cString buffer (header.keyTableOffset + raw.keyOffset) with
      | none => .error .outOfRange
      | some key =>
        match PSFEntryFmt.ofRaw raw.paramFmt with
        | none => .error .unreachable
        | some fmt =>
          match readValue buffer raw fmt (header.dataTableOffset + raw.dataOffset) with
          | .error fault => .error fault
          | .ok value =>
              readEntries buffer header (index + 1) count (p.append key value raw.paramMaxLen)

/-- `PSF::Open`: the result and the object after it. -/
def openBuffer (buffer : List UInt8) : Except Fault (Bool × PSF) :=
  match (slice buffer 0 20).map PSFHeader.ofBytes with
  | none => .error .outOfRange
  | some header =>
    if header.magic ≠ psfMagic then .ok (false, {})
    else if header.version ≠ psfVersion11 ∧ header.version ≠ psfVersion10 then .ok (false, {})
    else
      match readEntries buffer header 0 header.indexTableEntries {} with
      | .error fault => .error fault
      | .ok p => .ok (true, p)

end PSF

end PS4Droid.FileFormat
