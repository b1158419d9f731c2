import PS4Droid.Foundations.BoundedBuffers

/-!
# Serialization

The archive of `common/serdes.h` with its writer and reader. Values of trivially copyable types are
written as their bytes in memory. A call has no result if an assertion fails, or memory behind the
container is touched.

What a writer does is said by the bytes that it adds behind the offset, and a reader of these bytes
gives the value back wherever they stand.
-/

namespace PS4Droid.Common.Serialization

open ByteStrings BoundedBuffers

/-! ### Trivially copyable types -/

class TriviallyCopyable (α : Type) where
  size : ℕ
  toBytes : α → List UInt8
  ofBytes : List UInt8 → α
  length_toBytes : ∀ a, (toBytes a).length = size
  ofBytes_toBytes : ∀ a, ofBytes (toBytes a) = a

open TriviallyCopyable

/-- An object of so many bytes whose fields nothing here looks at. -/
structure Object (size : ℕ) where
  bytes : List UInt8
  length : bytes.length = size

instance (n : ℕ) : TriviallyCopyable (Object n) where
  size := n
  toBytes object := object.bytes
  ofBytes bytes :=
    if h : bytes.length = n then ⟨bytes, h⟩ else ⟨List.replicate n 0, List.length_replicate⟩
  length_toBytes object := object.length
  ofBytes_toBytes object := dif_pos object.length

instance : TriviallyCopyable UInt8 where
  size := 1
  toBytes b := [b]
  ofBytes bytes := bytes.headD 0
  length_toBytes _ := rfl
  ofBytes_toBytes _ := rfl

instance : TriviallyCopyable UInt32 where
  size := 4
  toBytes n := leBytes 4 n.toNat
  ofBytes bytes := UInt32.ofNat (leNat bytes)
  length_toBytes n := length_leBytes 4 _
  ofBytes_toBytes n := by rw [leNat_leBytes_of_lt n.toNat_lt, UInt32.ofNat_toNat]

instance : TriviallyCopyable UInt64 where
  size := 8
  toBytes n := leBytes 8 n.toNat
  ofBytes bytes := UInt64.ofNat (leNat bytes)
  length_toBytes n := length_leBytes 8 _
  ofBytes_toBytes n := by rw [leNat_leBytes_of_lt n.toNat_lt, UInt64.ofNat_toNat]

/-- Fields behind each other, without padding. -/
instance {α β : Type} [TriviallyCopyable α] [TriviallyCopyable β] : TriviallyCopyable (α × β) where
  size := size α + size β
  toBytes fields := toBytes fields.1 ++ toBytes fields.2
  ofBytes bytes := (ofBytes (bytes.take (size α)), ofBytes (bytes.drop (size α)))
  length_toBytes fields := by rw [List.length_append, length_toBytes, length_toBytes]
  ofBytes_toBytes fields := by
    rw [List.take_left' (length_toBytes _), List.drop_left' (length_toBytes _), ofBytes_toBytes,
      ofBytes_toBytes]

/-- A structure with the fields that a copyable type has. -/
@[reducible]
def TriviallyCopyable.ofFields {α β : Type} [TriviallyCopyable β] (fields : α → β) (make : β → α)
    (h : ∀ a, make (fields a) = a) : TriviallyCopyable α where
  size := size β
  toBytes a := toBytes (fields a)
  ofBytes bytes := make (ofBytes bytes)
  length_toBytes _ := length_toBytes _
  ofBytes_toBytes a := by rw [ofBytes_toBytes, h]

/-! ### The archive -/

/-- The offset is an `u32`. -/
structure Archive where
  offset : ℕ := 0
  container : List UInt8 := []

namespace Archive

def grow (ar : Archive) (size : ℕ) : Archive :=
  { ar with container := ar.container ++ List.replicate size 0 }

def advance (ar : Archive) (size : ℕ) : Option Archive :=
  if ar.offset + size ≤ ar.container.length then
    some { ar with offset := (ar.offset + size) % 2 ^ 32 } else none

end Archive

/-- What works on an archive. -/
abbrev Serde (α : Type) := StateT Archive Option α

/-- `Archive::Grow`. -/
def grow (size : ℕ) : Serde Unit := fun ar => some ((), ar.grow size)

/-- `Writer::Write` of bytes in memory. -/
def writeBytes (bytes : List UInt8) : Serde Unit := fun ar =>
  let ar := if ar.container.length ≤ ar.offset + bytes.length then ar.grow bytes.length else ar
  (store ar.container ar.offset bytes).bind fun container =>
    ({ ar with container }.advance bytes.length).map fun ar => ((), ar)

def write {α : Type} [TriviallyCopyable α] (value : α) : Serde Unit := writeBytes (toBytes value)

def writeAll {α : Type} [TriviallyCopyable α] : List α → Serde Unit
  | [] => pure ()
  | elem :: v => do
    write elem
    writeAll v

def writeContainer {α : Type} [TriviallyCopyable α] (v : List α) : Serde Unit := do
  write (UInt64.ofNat v.length)
  writeAll v

def writeString (s : List UInt8) : Serde Unit := do
  write (UInt64.ofNat s.length)
  writeBytes s

/-- `Reader::Read` of bytes in memory. -/
def readBytes (size : ℕ) : Serde (List UInt8) := fun ar =>
  (slice ar.container ar.offset size).bind fun bytes => (ar.advance size).map fun ar => (bytes, ar)

def read (α : Type) [TriviallyCopyable α] : Serde α := do
  let bytes ← readBytes (size α)
  pure (ofBytes bytes)

def readAll {α : Type} [TriviallyCopyable α] : ℕ → List α → Serde (List α)
  | 0, v => pure v
  | n + 1, v => do
    let elem ← read α
    readAll n (v ++ [elem])

/-- Elements are added to the container; their index is an `int`, which must not overflow. -/
def readContainer {α : Type} [TriviallyCopyable α] (v : List α) : Serde (List α) := do
  let numElements ← read UInt64
  if numElements.toNat < 2 ^ 31 then readAll numElements.toNat v else fun _ => none

def readString : Serde (List UInt8) := do
  let length ← read UInt64
  readBytes length.toNat

/-! ### What is written and what is read -/

/-- Behind the offset the archive has the bytes, and the offset is behind them. -/
structure Appended (ar ar' : Archive) (bytes : List UInt8) : Prop where
  offset : ar'.offset = ar.offset + bytes.length
  inside : ar'.offset ≤ ar'.container.length
  written : ar'.container.take ar'.offset = ar.container.take ar.offset ++ bytes

/-- A writer adds these bytes to every archive that stays below 4 GiB. -/
def Writes (writer : Serde Unit) (bytes : List UInt8) : Prop :=
  ∀ ar : Archive, ar.offset ≤ ar.container.length → ar.offset + bytes.length < 2 ^ 32 →
    ∃ ar', writer ar = some ((), ar') ∧ Appended ar ar' bytes

/-- A reader at these bytes either has no result, or gets a value and consumes them. -/
def Runs {α : Type} (reader : Serde α) (bytes : List UInt8) (result : Option α) : Prop :=
  ∀ before behind : List UInt8, before.length + bytes.length < 2 ^ 32 →
    reader ⟨before.length, before ++ bytes ++ behind⟩ =
      result.map fun a => (a, ⟨before.length + bytes.length, before ++ bytes ++ behind⟩)

/-- A reader gets the value from these bytes. -/
abbrev Reads {α : Type} (reader : Serde α) (bytes : List UInt8) (a : α) : Prop :=
  Runs reader bytes (some a)

variable {α β : Type} {writer writer' : Serde Unit} {reader : Serde α} {rest : α → Serde β}
  {bytes bytes' : List UInt8}
  {a : α} {result : Option α} {result' : Option β}

theorem Writes.seq (h : Writes writer bytes) (h' : Writes writer' bytes') :
    Writes (do writer; writer') (bytes ++ bytes') := by
  intro ar hinside hsize
  rw [List.length_append] at hsize
  obtain ⟨ar', hrun, hoffset, hinside', hwritten⟩ := h ar hinside (by omega)
  obtain ⟨ar'', hrun', hoffset', hinside'', hwritten'⟩ := h' ar' hinside' (by omega)
  refine ⟨ar'', ?_, ?_, hinside'', ?_⟩
  · change (writer ar).bind (fun p => writer' p.2) = _
    rw [hrun, Option.bind_some, hrun']
  · rw [hoffset', hoffset, List.length_append, Nat.add_assoc]
  · rw [hwritten', hwritten, List.append_assoc]

theorem Writes.pure : Writes (pure ()) [] := by
  intro ar hinside _
  refine ⟨ar, rfl, rfl, hinside, ?_⟩
  rw [List.append_nil]

theorem Writes.grow (size : ℕ) : Writes (grow size) [] := by
  intro ar hinside _
  refine ⟨ar.grow size, rfl, rfl, ?_, ?_⟩
  · rw [Archive.grow, List.length_append]
    exact Nat.le_add_right_of_le hinside
  · rw [Archive.grow, List.take_append_of_le_length hinside, List.append_nil]

theorem Writes.writeBytes (bytes : List UInt8) : Writes (writeBytes bytes) bytes := by
  intro ar hinside hsize
  obtain ⟨container, hstore, hlength, htake⟩ : ∃ container,
      store (if ar.container.length ≤ ar.offset + bytes.length then ar.grow bytes.length
        else ar).container ar.offset bytes =
        some container ∧ ar.offset + bytes.length ≤ container.length ∧
      container.take (ar.offset + bytes.length) = ar.container.take ar.offset ++ bytes := by
    have hroom : ar.offset + bytes.length ≤
        (if ar.container.length ≤ ar.offset + bytes.length then ar.grow bytes.length
          else ar).container.length := by
      split_ifs with hfull
      · rw [Archive.grow, List.length_append, List.length_replicate]
        exact Nat.add_le_add_right hinside _
      · omega
    have hsame : (if ar.container.length ≤ ar.offset + bytes.length then ar.grow bytes.length
      else ar).container.take
        ar.offset = ar.container.take ar.offset := by
      split_ifs with hfull
      · rw [Archive.grow, List.take_append_of_le_length hinside]
      · rfl
    generalize (if ar.container.length ≤ ar.offset + bytes.length then ar.grow bytes.length
      else ar).container = container at hroom hsame
    have hfront : (container.take ar.offset ++ bytes).length = ar.offset + bytes.length := by
      rw [List.length_append, List.length_take_of_le (by omega)]
    refine ⟨_, if_pos hroom, ?_, ?_⟩
    · rw [List.length_append, hfront]
      exact Nat.le_add_right _ _
    · rw [List.take_left' hfront, hsame]
  have hoffset : (if ar.container.length ≤ ar.offset + bytes.length then ar.grow bytes.length
    else ar).offset = ar.offset := by
    split_ifs <;> rfl
  refine ⟨⟨ar.offset + bytes.length, container⟩, ?_, rfl, hlength, htake⟩
  rw [Serialization.writeBytes]
  simp only [hoffset, hstore, Option.bind_some, Archive.advance, if_pos hlength,
    Nat.mod_eq_of_lt hsize, Option.map_some]

theorem Writes.write [TriviallyCopyable α] (value : α) : Writes (write value) (toBytes value) :=
  .writeBytes _

theorem Reads.bind (h : Reads reader bytes a) (h' : Runs (rest a) bytes' result') :
    Runs (reader >>= rest) (bytes ++ bytes') result' := by
  intro before behind hsize
  rw [List.length_append] at hsize
  have hshape : before ++ (bytes ++ bytes') ++ behind = before ++ bytes ++ (bytes' ++ behind) := by
    simp only [List.append_assoc]
  have hshape' : before ++ bytes ++ (bytes' ++ behind) = (before ++ bytes) ++ bytes' ++ behind := by
    simp only [List.append_assoc]
  have hrun := h before (bytes' ++ behind) (by omega)
  have hrun' := h' (before ++ bytes) behind (by rw [List.length_append]; omega)
  rw [List.length_append, ← hshape'] at hrun'
  change (reader _).bind (fun p => rest p.1 p.2) = _
  rw [hshape, hrun, Option.map_some, Option.bind_some, hrun', List.length_append, Nat.add_assoc]

theorem Reads.pure (a : α) : Reads (pure a) [] a := fun _ _ _ => rfl

theorem Runs.map (h : Runs reader bytes result) (f : α → β) :
    Runs (do let a ← reader; Pure.pure (f a)) bytes (result.map f) := by
  intro before behind hsize
  change (reader _).bind (fun p => (Pure.pure (f p.1) : Serde β) p.2) = _
  rw [h before behind hsize]
  cases result <;> rfl

theorem Reads.readBytes (bytes : List UInt8) : Reads (readBytes bytes.length) bytes bytes := by
  intro before behind hsize
  have hinside : before.length + bytes.length ≤ (before ++ bytes ++ behind).length := by
    rw [List.length_append, List.length_append]
    exact Nat.le_add_right _ _
  rw [Serialization.readBytes]
  simp only [slice_append, Option.bind_some, Archive.advance, if_pos hinside,
    Nat.mod_eq_of_lt hsize, Option.map_some]

theorem Reads.read [TriviallyCopyable α] (value : α) : Reads (read α) (toBytes value) value := by
  have hbytes := Reads.readBytes (toBytes value)
  rw [length_toBytes] at hbytes
  have hmap := hbytes.map (ofBytes : List UInt8 → α)
  rwa [Option.map_some, ofBytes_toBytes] at hmap

/-! ### Containers -/

/-- The size and the elements. -/
def containerBytes [TriviallyCopyable α] (v : List α) : List UInt8 :=
  toBytes (UInt64.ofNat v.length) ++ v.flatMap toBytes

theorem length_containerBytes [TriviallyCopyable α] (v : List α) :
    (containerBytes v).length = 8 + v.length * size α := by
  rw [containerBytes, List.length_append, length_toBytes, show size UInt64 = 8 from rfl,
    Nat.add_left_cancel_iff]
  induction v with
  | nil => rw [List.flatMap_nil, List.length_nil, List.length_nil, Nat.zero_mul]
  | cons elem v ih => rw [List.flatMap_cons, List.length_append, length_toBytes, ih,
      List.length_cons, Nat.add_one_mul, Nat.add_comm]

def stringBytes (s : List UInt8) : List UInt8 := toBytes (UInt64.ofNat s.length) ++ s

theorem Writes.writeAll [TriviallyCopyable α] (v : List α) :
    Writes (writeAll v) (v.flatMap toBytes) := by
  induction v with
  | nil => exact Writes.pure
  | cons elem v ih =>
    rw [List.flatMap_cons]
    exact (Writes.write elem).seq ih

theorem Writes.writeContainer [TriviallyCopyable α] (v : List α) :
    Writes (writeContainer v) (containerBytes v) :=
  (Writes.write (UInt64.ofNat v.length)).seq (Writes.writeAll v)

theorem Writes.writeString (s : List UInt8) : Writes (writeString s) (stringBytes s) :=
  (Writes.write (UInt64.ofNat s.length)).seq (.writeBytes s)

theorem Reads.readAll [TriviallyCopyable α] (front v : List α) :
    Reads (readAll v.length front) (v.flatMap toBytes) (front ++ v) := by
  induction v generalizing front with
  | nil =>
    rw [List.append_nil]
    exact Reads.pure front
  | cons elem v ih =>
    rw [List.flatMap_cons, List.append_cons]
    exact (Reads.read elem).bind (ih (front ++ [elem]))

variable {v : List α}

theorem toNat_length (h : v.length < 2 ^ 31) : (UInt64.ofNat v.length).toNat = v.length := by
  rw [UInt64.toNat_ofNat']
  exact Nat.mod_eq_of_lt (by omega)

theorem Reads.readContainer [TriviallyCopyable α] (h : v.length < 2 ^ 31) :
    Reads (readContainer []) (containerBytes v) v := by
  refine (Reads.read (UInt64.ofNat v.length)).bind ?_
  simp only [toNat_length h, if_pos h]
  exact Reads.readAll [] v

theorem Runs.readContainer_long [TriviallyCopyable α] (h : 2 ^ 31 ≤ v.length)
    (hlength : v.length < 2 ^ 64) :
    Runs (readContainer ([] : List α)) (containerBytes v) none := by
  have hcount : (UInt64.ofNat v.length).toNat = v.length := by
    rw [UInt64.toNat_ofNat']
    exact Nat.mod_eq_of_lt hlength
  refine (Reads.read (UInt64.ofNat v.length)).bind ?_
  simp only [hcount, if_neg (Nat.not_lt.mpr h)]
  exact fun _ _ _ => rfl

theorem Reads.readString {s : List UInt8} (h : s.length < 2 ^ 31) :
    Reads readString (stringBytes s) s := by
  refine (Reads.read (UInt64.ofNat s.length)).bind ?_
  rw [toNat_length h]
  exact Reads.readBytes s

/-! ### The offset -/

/-- The offset stays an `u32`. -/
def Wraps {α : Type} (serde : Serde α) : Prop :=
  ∀ ar a ar', serde ar = some (a, ar') → ar.offset < 2 ^ 32 → ar'.offset < 2 ^ 32

theorem Wraps.seq (h : Wraps writer) (h' : Wraps writer') : Wraps (do writer; writer') := by
  intro ar a ar'' hrun hoffset
  obtain ⟨⟨b, ar'⟩, hfirst, hsecond⟩ := Option.bind_eq_some_iff.mp hrun
  exact h' ar' a ar'' hsecond (h ar b ar' hfirst hoffset)

theorem Wraps.pure : Wraps (pure () : Serde Unit) := by
  intro ar a ar' hrun hoffset
  cases hrun
  exact hoffset

theorem Wraps.grow (size : ℕ) : Wraps (grow size) := by
  intro ar a ar' hrun hoffset
  cases hrun
  exact hoffset

theorem Wraps.writeBytes (bytes : List UInt8) : Wraps (writeBytes bytes) := by
  intro ar a ar' hrun _
  obtain ⟨container, -, hadvance⟩ := Option.bind_eq_some_iff.mp hrun
  obtain ⟨ar'', hoffset, hresult⟩ := Option.map_eq_some_iff.mp hadvance
  cases hresult
  rw [Archive.advance, Option.ite_none_right_eq_some] at hoffset
  cases hoffset.2
  exact Nat.mod_lt _ (Nat.two_pow_pos 32)

theorem Wraps.writeAll [TriviallyCopyable α] (v : List α) : Wraps (writeAll v) := by
  induction v with
  | nil => exact .pure
  | cons elem v ih => exact (Wraps.writeBytes _).seq ih

theorem Wraps.writeContainer [TriviallyCopyable α] (v : List α) : Wraps (writeContainer v) :=
  (Wraps.writeBytes _).seq (.writeAll v)

theorem Reads.of_appended {ar ar' : Archive} (h : Reads reader bytes a)
    (happended : Appended ar ar' bytes)
    (hinside : ar.offset ≤ ar.container.length) (hsize : ar.offset + bytes.length < 2 ^ 32) :
    reader { ar' with offset := ar.offset } = some (a, ar') := by
  have hfront : (ar.container.take ar.offset).length = ar.offset := List.length_take_of_le hinside
  have hshape : ar'.container = ar.container.take ar.offset ++ bytes ++
    ar'.container.drop ar'.offset := by
    rw [← happended.written, List.take_append_drop]
  have hrun :=
    h (ar.container.take ar.offset) (ar'.container.drop ar'.offset) (by rw [hfront]; exact hsize)
  rw [← hshape, hfront, ← happended.offset] at hrun
  exact hrun

end PS4Droid.Common.Serialization
