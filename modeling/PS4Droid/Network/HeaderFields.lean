import PS4Droid.Foundations.PathSegments
import PS4Droid.Network.HttpStatusLine
import PS4Droid.Network.UriParser

/-!
# Fields of a response header

`sceHttpParseResponseHeader`. The memory is the list of its bytes from the header on, as far as it
is mapped; a result is none if the function reads behind it. A field value is given by its offset in
the header.
-/

namespace PS4Droid.Network.Http

open ByteStrings PathSegments

def notFound : ℤ := 0x80432025 - 2 ^ 32

/-- The result and what is written through the pointers: the value (none for a null pointer) and its
length. -/
structure HeaderOutcome where
  result : ℤ
  fieldValue : Option (Option ℕ) := none
  valueLen : Option ℕ := none
  deriving DecidableEq

def isAsciiSpace (c : UInt8) : Bool := (9 ≤ c ∧ c ≤ 13) ∨ c = 32

/-! ### The search for a field -/

/-- The bytes are compared up to the first difference. -/
def caseInsensitiveEq : List UInt8 → List UInt8 → Option Bool
  | [], _ => some true
  | _ :: _, [] => none
  | a :: field, b :: bytes => if tolower a ≠ tolower b then some false
      else caseInsensitiveEq field bytes

/-- Is the field name with its colon here, in front of the header's end? -/
def startsField (field : List UInt8) (left : ℕ) (bytes : List UInt8) : Option Bool :=
  if field.length < left then
    match caseInsensitiveEq field bytes with
    | none => none
    | some false => some false
    | some true => bytes[field.length]?.map fun c => decide (c = 58)
  else some false

/-- The loop over the `left` bytes of the header from `cur` on, and where the value starts. -/
def findField (field : List UInt8) : ℕ → List UInt8 → Bool → ℕ → Option (Option ℕ)
  | 0, _, _, _ => some none
  | _ + 1, [], _, _ => none
  | left + 1, first :: rest, atLineStart, cur =>
    match if atLineStart ∧ ¬isAsciiSpace first then startsField field (left + 1) (first :: rest)
      else some false with
    | none => none
    | some true => some (some (cur + field.length + 1))
    | some false => findField field left rest (first = newline) (cur + 1)

/-! ### The value -/

/-- White space is skipped, up to and with the first newline. -/
def skipSpaces : ℕ → List UInt8 → ℕ → Option ℕ
  | 0, _, valueOffset => some valueOffset
  | _ + 1, [], _ => none
  | left + 1, c :: rest, valueOffset =>
    if ¬isAsciiSpace c then some valueOffset
    else if c = newline then some (valueOffset + 1)
    else skipSpaces left rest (valueOffset + 1)

/-- The walk to the next newline. -/
def walkLine : ℕ → List UInt8 → ℕ → Option ℕ
  | 0, _, scan => some scan
  | _ + 1, [], _ => none
  | left + 1, c :: rest, scan => if c = newline then some scan else walkLine left rest (scan + 1)

/-- Is there a carriage return in front of the newline at `scan`? -/
def sawCR (header : List UInt8) (valueStart scan : ℕ) : Option Bool :=
  if valueStart < scan then header[scan - 1]?.map fun c => decide (c = carriageReturn)
    else some false

/-- Does a continuation line start at `afterLF`? -/
def continues (header : List UInt8) (headerLen afterLF : ℕ) : Option Bool :=
  if afterLF < headerLen then header[afterLF]?.map fun c => decide (c = 32 ∨ c = 9) else some false

/-- Where the line of a value ends and where the value does, from a position in it on. -/
def scanValue (header : List UInt8) (headerLen valueStart : ℕ) : ℕ → ℕ → Option (ℕ × ℕ)
  | 0, _ => none
  | fuel + 1, scan =>
    if scan < headerLen then
      match walkLine (headerLen - scan) (header.drop scan) scan with
      | none => none
      | some scan =>
        if headerLen ≤ scan then some (headerLen, headerLen)
        else
          match sawCR header valueStart scan, continues header headerLen (scan + 1) with
          | some _, some true => scanValue header headerLen valueStart fuel (scan + 1)
          | some sawCR, some false => some (scan + 1, if sawCR then scan - 1 else scan)
          | _, _ => none
    else some (valueStart, valueStart)

/-- The outputs: nothing for an empty value. -/
def foundValue (valueStart lineEnd lengthEnd : ℕ) : HeaderOutcome :=
  let finalLen := if valueStart < lengthEnd then lengthEnd - valueStart else 0
  if finalLen = 0 then { result := 0, fieldValue := some none, valueLen := some 0 }
  else {
    result := (BitVec.ofNat 32 lineEnd).toInt
    fieldValue := some (some valueStart)
    valueLen := some finalLen }

def parseField (header : List UInt8) (headerLen : ℕ) (field : List UInt8) : Option HeaderOutcome :=
  match findField field headerLen header true 0 with
  | none => none
  | some none => some { result := notFound }
  | some (some valueOffset) =>
    match skipSpaces (headerLen - valueOffset) (header.drop valueOffset) valueOffset with
    | none => none
    | some valueStart =>
      if valueStart < headerLen then
        (scanValue header headerLen valueStart (headerLen + 1) valueStart).map fun (lineEnd,
          lengthEnd) =>
          foundValue valueStart lineEnd lengthEnd
      else some (foundValue valueStart headerLen headerLen)

/-- `outputs` says that neither output pointer is null. -/
def sceHttpParseResponseHeader (header : Option (List UInt8)) (headerLen : ℕ)
    (fieldStr : Option (List UInt8)) (outputs : Bool) : Option HeaderOutcome :=
  match header with
  | none => some { result := invalidResponse }
  | some header =>
    match fieldStr with
    | none => some { result := invalidValue }
    | some fieldStr => if ¬outputs then some { result := invalidValue }
        else parseField header headerLen (fieldStr.take 0xfff)

/-! ### Header blocks -/

/-- A field with its continuation lines; the text is what stands between the colon and the line's
end. -/
structure HeaderLine where
  name : List UInt8
  text : List UInt8
  ending : List UInt8

/-- Every newline is followed by a space or a tab. -/
def Folded : List UInt8 → Prop
  | [] => True
  | c :: rest => (c = newline → rest.head? = some 32 ∨ rest.head? = some 9) ∧ Folded rest

namespace HeaderLine

def bytes (line : HeaderLine) : List UInt8 := line.name ++ 58 :: (line.text ++ line.ending)

/-- The text without its leading white space. -/
def value (line : HeaderLine) : List UInt8 := line.text.dropWhile isAsciiSpace

def Named (field : List UInt8) (line : HeaderLine) : Prop :=
  line.name.map tolower = field.map tolower

instance (field : List UInt8) : DecidablePred (Named field) :=
  fun line => inferInstanceAs (Decidable (line.name.map tolower = field.map tolower))

/-- A line that ends with a line feed, with or without a carriage return in front, or with the
block. -/
structure WellFormed (line : HeaderLine) : Prop where
  noColon : 58 ∉ line.name
  noNewline : newline ∉ line.name
  noSpace : ∀ c, line.name.head? = some c → isAsciiSpace c = false
  folded : Folded line.text
  nonBlank : ∃ spaces c rest, line.text = spaces ++ c :: rest ∧
    (∀ s ∈ spaces, isAsciiSpace s = true) ∧ newline ∉ spaces ∧ isAsciiSpace c = false
  ending : line.ending = [] ∨ line.ending = [carriageReturn, newline] ∨
    (line.ending = [newline] ∧ line.text.getLast? ≠ some carriageReturn)

end HeaderLine

/-- Lines of which only the last one may end without a line feed. -/
inductive Block : List HeaderLine → Prop
  | nil : Block []
  | cons {line : HeaderLine} {lines : List HeaderLine} (wellFormed : line.WellFormed)
      (terminated : line.ending = [] → lines = [])
      (rest : Block lines) : Block (line :: lines)

def bytesOf (lines : List HeaderLine) : List UInt8 := lines.flatMap HeaderLine.bytes

/-- What a lookup writes lies in the header, and so does the count. -/
structure HeaderOutcome.Inside (outcome : HeaderOutcome) (headerLen : ℕ) : Prop where
  count : outcome.result = notFound ∨ (0 ≤ outcome.result ∧ outcome.result ≤ headerLen)
  slice : ∀ valueStart valueLen, outcome.fieldValue = some (some valueStart) →
    outcome.valueLen = some valueLen →
    valueStart + valueLen ≤ headerLen ∧ valueStart + valueLen ≤ outcome.result

/-- The values that calls find if each one starts where the count of the one before ends. -/
inductive Enumerates (field : List UInt8) : List UInt8 → List (List UInt8) → Prop
  | notFound {header : List UInt8}
      (call : sceHttpParseResponseHeader (some header) header.length (some field) true =
        some { result := notFound }) :
      Enumerates field header []
  | found {header : List UInt8} {valueStart valueLen count : ℕ} {values : List (List UInt8)}
      (call : sceHttpParseResponseHeader (some header) header.length (some field) true =
        some { result := count, fieldValue := some (some valueStart), valueLen := some valueLen })
      (positive : 0 < count) (inside : count ≤ header.length)
        (rest : Enumerates field (header.drop count) values) :
      Enumerates field header ((header.drop valueStart).take valueLen :: values)

/-!
### Lines and lookups

A line is passed with the flag of a line start behind it, or found; the walk over its value ends
where the next line starts. So calls behind each other find the lines of a block that have the name.
-/

variable {field bytes more rest spaces : List UInt8} {c : UInt8} {left cur : ℕ}

/-! ### Names -/

theorem tolower_eq_colon (c : UInt8) : tolower c = 58 ↔ c = 58 := by
  unfold tolower
  split_ifs with h
  · simp only [UInt8.le_iff_toNat_le, UInt8.reduceToNat] at h
    rw [← UInt8.toNat_inj, ← UInt8.toNat_inj, UInt8.toNat_add]
    change (c.toNat + 32) % 256 = 58 ↔ c.toNat = 58
    omega
  · rfl

theorem caseInsensitiveEq_eq (h : field.length ≤ bytes.length) : caseInsensitiveEq field bytes =
    some (decide (field.map tolower = (bytes.take field.length).map tolower)) := by
  induction field generalizing bytes with
  | nil => rfl
  | cons a field ih =>
    rcases bytes with _ | ⟨b, bytes⟩
    · cases h
    · rw [caseInsensitiveEq, ih (Nat.le_of_succ_le_succ h), List.length_cons, List.take_succ_cons]
      by_cases heq : tolower a = tolower b
      · simp only [List.map_cons, List.cons.injEq, heq, ne_eq, not_true_eq_false, if_false,
          true_and]
      · simp only [List.map_cons, List.cons.injEq, heq, ne_eq, not_false_eq_true, if_true,
          false_and, decide_false]

theorem startsField_eq (h : left ≤ bytes.length) : startsField field left bytes = some (decide
    (field.length < left ∧ field.map tolower = (bytes.take field.length).map tolower ∧
      bytes[field.length]? = some 58)) := by
  rw [startsField]
  split_ifs with hlt
  · have hin : field.length < bytes.length := by omega
    rw [caseInsensitiveEq_eq (Nat.le_of_lt hin), List.getElem?_eq_getElem hin]
    by_cases heq : field.map tolower = (bytes.take field.length).map tolower
    · simp only [heq, decide_true, Option.map_some, hlt, true_and, Option.some.injEq]
    · simp only [heq, decide_false, hlt, false_and, and_false]
  · simp only [hlt, false_and, decide_false]

theorem prefix_iff_named {name : List UInt8} (hname : 58 ∉ name) (hfield : 58 ∉ field)
    (more : List UInt8) :
    (field.map tolower = ((name ++ 58 :: more).take field.length).map tolower ∧
      (name ++ 58 :: more)[field.length]? = some 58) ↔ name.map tolower = field.map tolower := by
  constructor
  · rintro ⟨heq, hcolon⟩
    obtain hlt | hle := Nat.lt_or_ge field.length name.length
    · rw [List.getElem?_append_left hlt] at hcolon
      exact absurd (List.mem_of_getElem? hcolon) hname
    · obtain hlt | hge := Nat.lt_or_ge name.length field.length
      · -- the colon of the line would stand in the field name
        have hat := congrArg (·[name.length]?) heq
        simp only [List.getElem?_map, List.getElem?_take_of_lt hlt,
          List.getElem?_append_right (Nat.le_refl _),
          Nat.sub_self, List.getElem?_cons_zero, Option.map_some, List.getElem?_eq_getElem hlt,
            Option.some.injEq] at hat
        have hmem := (tolower_eq_colon _).mp (hat.trans ((tolower_eq_colon 58).mpr rfl))
        exact absurd (hmem ▸ List.getElem_mem hlt) hfield
      · rw [heq, List.take_left' (Nat.le_antisymm hle hge)]
  · intro heq
    have hlength : name.length = field.length := by
      rw [← List.length_map tolower, heq, List.length_map]
    refine ⟨by rw [List.take_left' hlength, heq], ?_⟩
    rw [List.getElem?_append_right (Nat.le_of_eq hlength), hlength, Nat.sub_self,
      List.getElem?_cons_zero]

/-! ### The search -/

theorem findField_cons (field : List UInt8) (left : ℕ) (c : UInt8) (rest : List UInt8) (cur : ℕ) :
    findField field (left + 1) (c :: rest) false cur = findField field left rest (c = newline)
    (cur + 1) := by
  rw [findField, if_neg (fun h => Bool.false_ne_true h.1)]

theorem findField_inside (h : newline ∉ bytes) (field rest : List UInt8) (left cur : ℕ) :
    findField field (left + bytes.length) (bytes ++ rest) false cur =
      findField field left rest false (cur + bytes.length) := by
  induction bytes generalizing cur with
  | nil => rfl
  | cons c bytes ih =>
    rw [List.mem_cons, not_or] at h
    rw [List.length_cons, ← Nat.add_assoc, List.cons_append, findField_cons,
      decide_eq_false (Ne.symm h.1), ih h.2, Nat.add_assoc, Nat.add_comm 1]

theorem findField_space (h : c = 32 ∨ c = 9) (field rest : List UInt8) (left cur : ℕ) :
    findField field (left + 1) (c :: rest) true cur = findField field left rest false
      (cur + 1) := by
  have hspace : isAsciiSpace c = true ∧ c ≠ newline := by
    rcases h with rfl | rfl <;> decide
  rw [findField, if_neg (fun hstart => hstart.2 hspace.1)]
  simp only [hspace.2, decide_false]

theorem findField_folded (h : Folded bytes) (field rest : List UInt8) (left cur : ℕ) :
    findField field (left + bytes.length) (bytes ++ rest) false cur =
      findField field left rest false (cur + bytes.length) ∧
      ∀ c, bytes.head? = some c → c = 32 ∨ c = 9 →
        findField field (left + bytes.length) (bytes ++ rest) true cur =
          findField field left rest false (cur + bytes.length) := by
  induction bytes generalizing cur with
  | nil => exact ⟨rfl, nofun⟩
  | cons c bytes ih =>
    obtain ⟨hfold, hbytes⟩ := h
    have hsum : cur + 1 + bytes.length = cur + (bytes.length + 1) := by omega
    refine ⟨?_, fun d hd hspace => ?_⟩
    · rw [List.length_cons, ← Nat.add_assoc, List.cons_append, findField_cons, ← hsum]
      by_cases hc : c = newline
      · rw [decide_eq_true hc]
        obtain hhead | hhead := hfold hc
        · exact (ih hbytes (cur + 1)).2 _ hhead (.inl rfl)
        · exact (ih hbytes (cur + 1)).2 _ hhead (.inr rfl)
      · rw [decide_eq_false hc]
        exact (ih hbytes (cur + 1)).1
    · obtain rfl := Option.some.inj hd
      rw [List.length_cons, ← Nat.add_assoc, List.cons_append, findField_space hspace, ← hsum]
      exact (ih hbytes (cur + 1)).1

section Lines

variable {line : HeaderLine} {lines skipped : List HeaderLine}

theorem findField_line (hwell : line.WellFormed) (hfield : 58 ∉ field) (rest : List UInt8)
    (cur : ℕ) :
    findField field (line.bytes ++ rest).length (line.bytes ++ rest) true cur =
      if line.Named field then some (some (cur + field.length + 1))
      else findField field (line.bytes ++ rest).length (line.bytes ++ rest) false cur := by
  have hshape : line.bytes ++ rest = line.name ++ 58 :: (line.text ++ line.ending ++ rest) := by
    rw [HeaderLine.bytes, List.append_assoc, List.cons_append]
  have hstarts : startsField field (line.bytes ++ rest).length (line.bytes ++ rest) =
      some (decide (line.Named field)) := by
    rw [startsField_eq (Nat.le_refl _), hshape]
    refine congrArg some (decide_eq_decide.mpr ?_)
    rw [prefix_iff_named hwell.noColon hfield, HeaderLine.Named, and_iff_right_iff_imp]
    intro hnamed
    have hlength : line.name.length = field.length := by
      rw [← List.length_map tolower, hnamed, List.length_map]
    rw [← hlength, List.length_append]
    exact Nat.lt_add_of_pos_right (Nat.succ_pos _)
  obtain ⟨first, tail, hcons, hspace⟩ : ∃ first tail, line.bytes ++ rest = first :: tail ∧
    isAsciiSpace first = false := by
    rw [hshape]
    cases hname : line.name with
    | nil => exact ⟨58, _, rfl, by decide⟩
    | cons c name => exact ⟨c, _, rfl, hwell.noSpace c (hname ▸ rfl)⟩
  have hnonspace : ¬isAsciiSpace first = true := Bool.eq_false_iff.mp hspace
  rw [hcons, List.length_cons] at hstarts ⊢
  rw [findField, if_pos ⟨rfl, hnonspace⟩, hstarts, findField_cons]
  split_ifs with hnamed
  · rw [decide_eq_true hnamed]
  · rw [decide_eq_false hnamed]

/-- A line that is not found is passed, with its continuation lines. -/
theorem findField_pass (hwell : line.WellFormed) (hrest : line.ending = [] → rest = []) (cur : ℕ) :
    findField field (line.bytes ++ rest).length (line.bytes ++ rest) false cur =
      findField field rest.length rest true (cur + line.bytes.length) := by
  have hname : newline ∉ line.name ++ [58] := by
    rw [List.mem_append, not_or]
    exact ⟨hwell.noNewline, by decide⟩
  have hshape : line.bytes ++ rest = (line.name ++ [58]) ++
    (line.text ++ (line.ending ++ rest)) := by
    simp only [HeaderLine.bytes, List.append_assoc, List.cons_append, List.nil_append]
  have hlength : (line.bytes ++ rest).length =
      (line.ending ++ rest).length + line.text.length + (line.name ++ [58]).length := by
    simp only [hshape, List.length_append]
    omega
  have hbytes : cur + line.bytes.length = cur + (line.name ++ [58]).length + line.text.length +
    line.ending.length := by
    simp only [HeaderLine.bytes, List.length_append, List.length_cons, List.length_nil]
    omega
  rw [hlength, hshape, findField_inside hname, (findField_folded hwell.folded field _ _ _).1,
    hbytes]
  obtain hend | hend | ⟨hend, -⟩ := hwell.ending
  · rw [hrest hend, hend]
    rfl
  · rw [hend]
    change findField field (rest.length + 2) (carriageReturn :: newline :: rest) false _ = _
    rw [findField_cons, decide_eq_false (by decide), findField_cons, decide_eq_true rfl]
    rfl
  · rw [hend]
    change findField field (rest.length + 1) (newline :: rest) false _ = _
    rw [findField_cons, decide_eq_true rfl]
    rfl

@[simp]
theorem bytesOf_cons (line : HeaderLine) (lines : List HeaderLine) :
    bytesOf (line :: lines) = line.bytes ++ bytesOf lines :=
  List.flatMap_cons

theorem bytesOf_append (lines more : List HeaderLine) :
    bytesOf (lines ++ more) = bytesOf lines ++ bytesOf more :=
  List.flatMap_append

theorem findField_skipped (hblock : Block (skipped ++ lines)) (hfield : 58 ∉ field)
    (hskipped : ∀ line ∈ skipped, ¬line.Named field) (cur : ℕ) :
    findField field (bytesOf (skipped ++ lines)).length (bytesOf (skipped ++ lines)) true cur =
      findField field (bytesOf lines).length (bytesOf lines) true
        (cur + (bytesOf skipped).length) := by
  induction skipped generalizing cur with
  | nil => rfl
  | cons line skipped ih =>
    obtain ⟨hwell, hterminated, hrest⟩ : line.WellFormed ∧
      (line.ending = [] → skipped ++ lines = []) ∧ Block (skipped ++ lines) := by
      cases hblock with
      | cons hwell hterminated hrest => exact ⟨hwell, hterminated, hrest⟩
    rw [List.cons_append, bytesOf_cons, findField_line hwell hfield,
      if_neg (hskipped line List.mem_cons_self),
      findField_pass hwell (fun hend => by rw [hterminated hend]; rfl),
      ih hrest (fun other hother => hskipped other (List.mem_cons_of_mem _ hother)), bytesOf_cons,
        List.length_append,
      Nat.add_assoc]

theorem findField_named (hblock : Block (skipped ++ line :: lines)) (hfield : 58 ∉ field)
    (hskipped : ∀ line ∈ skipped, ¬line.Named field) (hnamed : line.Named field)
    (hwell : line.WellFormed) :
    findField field (bytesOf (skipped ++ line :: lines)).length
      (bytesOf (skipped ++ line :: lines)) true 0 =
      some (some (bytesOf skipped ++ line.name ++ [58]).length) := by
  have hlength : field.length = line.name.length := by
    rw [← List.length_map tolower, ← hnamed, List.length_map]
  rw [findField_skipped hblock hfield hskipped, bytesOf_cons, findField_line hwell hfield,
    if_pos hnamed, hlength]
  simp only [List.length_append, List.length_singleton, Nat.zero_add]

end Lines

/-! ### The value -/

section Value

variable {header before seg text ending : List UInt8} {valueStart headerLen fuel : ℕ}

theorem skipSpaces_eq (hspaces : ∀ s ∈ spaces, isAsciiSpace s = true) (hnewline : newline ∉ spaces)
    (hc : isAsciiSpace c = false) (hleft : spaces.length < left) (more : List UInt8) (offset : ℕ) :
    skipSpaces left (spaces ++ c :: more) offset = some (offset + spaces.length) := by
  induction spaces generalizing left offset with
  | nil =>
    obtain ⟨left, rfl⟩ := Nat.exists_eq_succ_of_ne_zero (Nat.ne_zero_of_lt hleft)
    rw [List.nil_append, skipSpaces, if_pos (Bool.eq_false_iff.mp hc)]
    rfl
  | cons s spaces ih =>
    obtain ⟨left, rfl⟩ := Nat.exists_eq_succ_of_ne_zero (Nat.ne_zero_of_lt hleft)
    rw [List.mem_cons, not_or] at hnewline
    rw [List.cons_append, skipSpaces, if_neg (not_not_intro (hspaces s List.mem_cons_self)),
      if_neg (Ne.symm hnewline.1),
      ih (fun t ht => hspaces t (List.mem_cons_of_mem _ ht)) hnewline.2
        (Nat.lt_of_succ_lt_succ hleft), List.length_cons,
      Nat.add_assoc, Nat.add_comm 1]

theorem walkLine_newline (h : newline ∉ seg) (hleft : seg.length < left) (more : List UInt8)
    (scan : ℕ) :
    walkLine left (seg ++ newline :: more) scan = some (scan + seg.length) := by
  induction seg generalizing left scan with
  | nil =>
    obtain ⟨left, rfl⟩ := Nat.exists_eq_succ_of_ne_zero (Nat.ne_zero_of_lt hleft)
    rw [List.nil_append, walkLine, if_pos rfl]
    rfl
  | cons c seg ih =>
    obtain ⟨left, rfl⟩ := Nat.exists_eq_succ_of_ne_zero (Nat.ne_zero_of_lt hleft)
    rw [List.mem_cons, not_or] at h
    rw [List.cons_append, walkLine, if_neg (Ne.symm h.1), ih h.2 (Nat.lt_of_succ_lt_succ hleft),
      List.length_cons, Nat.add_assoc, Nat.add_comm 1]

theorem walkLine_end (h : newline ∉ seg) (scan : ℕ) :
    walkLine seg.length seg scan = some (scan + seg.length) := by
  induction seg generalizing scan with
  | nil => rfl
  | cons c seg ih =>
    rw [List.mem_cons, not_or] at h
    rw [List.length_cons, walkLine, if_neg (Ne.symm h.1), ih h.2, Nat.add_assoc, Nat.add_comm 1]

theorem folded_split (h : Folded (seg ++ newline :: more)) :
    (more.head? = some 32 ∨ more.head? = some 9) ∧ Folded more := by
  induction seg with
  | nil => exact ⟨h.1 rfl, h.2⟩
  | cons c seg ih => exact ih h.2

theorem sawCR_eq (hlt : valueStart < before.length) (more : List UInt8) :
    sawCR (before ++ more) valueStart before.length =
      some (decide (before.getLast? = some carriageReturn)) := by
  have hpos : 0 < before.length := Nat.zero_lt_of_lt hlt
  rw [sawCR, if_pos hlt, List.getElem?_append_left (by omega), ← List.getLast?_eq_getElem?,
    List.getLast?_eq_some_getLast (List.length_pos_iff.mp hpos), Option.map_some]
  simp only [Option.some.injEq]

theorem continues_eq (before more : List UInt8) :
    continues (before ++ more) (before ++ more).length before.length =
    some (decide (more.head? = some 32 ∨ more.head? = some 9)) := by
  rw [continues, List.length_append]
  cases more with
  | nil => rw [if_neg (by simp)]; rfl
  | cons c more =>
    rw [if_pos (by simp), List.getElem?_append_right (Nat.le_refl _), Nat.sub_self]
    simp only [List.getElem?_cons_zero, Option.map_some, List.head?_cons, Option.some.injEq]

theorem sawCR_isSome (hle : before.length ≤ header.length) (valueStart : ℕ) :
    ∃ saw, sawCR header valueStart before.length = some saw := by
  rw [sawCR]
  split_ifs with hlt
  · have hin : before.length - 1 < header.length := by omega
    exact ⟨_, by rw [List.getElem?_eq_getElem hin, Option.map_some]⟩
  · exact ⟨_, rfl⟩

/-- At a newline the scan goes on in a continuation line, or ends. -/
theorem scanValue_newline (hseg : newline ∉ seg)
    (hheader : header = before ++ seg ++ newline :: more) :
    scanValue header header.length valueStart (fuel + 1) before.length =
      if more.head? = some 32 ∨ more.head? = some 9 then
        scanValue header header.length valueStart fuel (before ++ seg ++ [newline]).length
      else (sawCR header valueStart (before ++ seg).length).map fun sawCR =>
        ((before ++ seg).length + 1, if sawCR then (before ++ seg).length - 1
          else (before ++ seg).length) := by
  have hlength : header.length = (before ++ seg).length + 1 + more.length := by
    rw [hheader, List.length_append, List.length_cons]
    omega
  have hwalk : walkLine (header.length - before.length) (header.drop before.length) before.length =
      some (before ++ seg).length := by
    rw [hheader, List.append_assoc, List.drop_left, walkLine_newline hseg, List.length_append]
    simp only [List.length_append, List.length_cons]
    omega
  have hcontinues : continues header header.length ((before ++ seg).length + 1) =
      some (decide (more.head? = some 32 ∨ more.head? = some 9)) := by
    have hshape : header = (before ++ seg ++ [newline]) ++ more := by
      rw [hheader, List.append_assoc _ [newline], List.singleton_append]
    have happly := continues_eq (before ++ seg ++ [newline]) more
    rwa [← hshape, List.length_append, List.length_singleton] at happly
  obtain ⟨saw, hsaw⟩ := @sawCR_isSome header (before ++ seg) (by omega) valueStart
  have hbefore : before.length ≤ (before ++ seg).length := (List.prefix_append before seg).length_le
  have hinside : before.length < header.length := by omega
  have hscan : ¬header.length ≤ (before ++ seg).length := by omega
  rw [scanValue, if_pos hinside, hwalk]
  simp only [if_neg hscan]
  rw [hsaw, hcontinues]
  split_ifs with hfold
  · simp only [decide_eq_true hfold, List.length_append, List.length_singleton]
  · simp only [decide_eq_false hfold, Option.map_some]

theorem scanValue_end (hseg : newline ∉ seg) (hne : seg ≠ []) (hheader : header = before ++ seg) :
    scanValue header header.length valueStart (fuel + 1) before.length = some (header.length,
      header.length) := by
  have hpos : 0 < seg.length := List.length_pos_iff.mpr hne
  have hlength : header.length = before.length + seg.length := by rw [hheader, List.length_append]
  have hinside : before.length < header.length := by omega
  have hwalk : walkLine (header.length - before.length) (header.drop before.length) before.length =
    some header.length := by
    rw [hlength, Nat.add_sub_cancel_left, hheader, List.drop_left]
    exact walkLine_end hseg _
  rw [scanValue, if_pos hinside, hwalk]
  simp only [Nat.le_refl, if_true]

/-- How a line may end behind its text: with the block, or in front of something that is no
continuation line. -/
structure Ends (text ending rest : List UInt8) : Prop where
  shape : ending = [] ∨ ending = [carriageReturn, newline] ∨
    (ending = [newline] ∧ text.getLast? ≠ some carriageReturn)
  nonempty : text ≠ []
  unterminated : ending = [] → rest = []
  next : ¬(rest.head? = some 32 ∨ rest.head? = some 9)

theorem Ends.tail (h : Ends (seg ++ newline :: text) ending rest) (hne : text ≠ []) :
    Ends text ending rest := by
  refine ⟨?_, hne, h.unterminated, h.next⟩
  have hlast : (seg ++ newline :: text).getLast? = text.getLast? := by
    rw [List.append_cons, List.getLast?_append_of_ne_nil _ hne]
  rw [← hlast]
  exact h.shape

theorem scanValue_leaf (hseg : newline ∉ seg) (hends : Ends seg ending rest)
    (hheader : header = before ++ seg ++ (ending ++ rest))
    (hvalue : valueStart < (before ++ seg).length) :
    scanValue header header.length valueStart (fuel + 1) before.length =
      some ((before ++ seg ++ ending).length, (before ++ seg).length) := by
  obtain hend | hend | ⟨hend, hcr⟩ := hends.shape
  · rw [hend, hends.unterminated hend, List.append_nil, List.append_nil] at hheader
    rw [scanValue_end hseg hends.nonempty hheader, hend, List.append_nil, hheader]
  · subst hend
    have hseg' : newline ∉ seg ++ [carriageReturn] := by
      rw [List.mem_append, not_or]
      exact ⟨hseg, by decide⟩
    have hshape : header = before ++ (seg ++ [carriageReturn]) ++ newline :: rest := by
      simp only [hheader, List.append_assoc, List.cons_append, List.nil_append]
    have hlonger : valueStart < (before ++ (seg ++ [carriageReturn])).length := by
      simp only [List.length_append] at hvalue ⊢
      omega
    have hsaw : sawCR header valueStart (before ++ (seg ++ [carriageReturn])).length =
      some true := by
      rw [hshape, sawCR_eq hlonger, ← List.append_assoc, List.getLast?_concat, decide_eq_true rfl]
    rw [scanValue_newline hseg' hshape, if_neg hends.next, hsaw]
    simp only [Option.map_some, if_true, List.length_append, List.length_cons, List.length_nil,
      Option.some.injEq, Prod.mk.injEq]
    exact ⟨by omega, Nat.add_sub_cancel _ 1⟩
  · subst hend
    have hshape : header = before ++ seg ++ newline :: rest := hheader
    have hlast : (before ++ seg).getLast? ≠ some carriageReturn := by
      rwa [List.getLast?_append_of_ne_nil _ hends.nonempty]
    have hsaw : sawCR header valueStart (before ++ seg).length = some false := by
      rw [hshape, sawCR_eq hvalue, decide_eq_false hlast]
    rw [scanValue_newline hseg hshape, if_neg hends.next, hsaw]
    simp only [Option.map_some, Bool.false_eq_true, if_false, List.length_append,
      List.length_singleton]

theorem scanValue_eq (hfolded : Folded text) (hends : Ends text ending rest) :
    ∀ {before fuel}, header = before ++ text ++ (ending ++ rest) →
      valueStart < (before ++ text).length →
      text.length < fuel → scanValue header header.length valueStart fuel before.length =
        some ((before ++ text ++ ending).length, (before ++ text).length) := by
  induction text using segment_induction newline with
  | leaf text hseg =>
    intro before fuel hheader hvalue hfuel
    obtain ⟨fuel, rfl⟩ := Nat.exists_eq_succ_of_ne_zero (Nat.ne_zero_of_lt hfuel)
    exact scanValue_leaf hseg hends hheader hvalue
  | segment seg more hseg ih =>
    intro before fuel hheader hvalue hfuel
    obtain ⟨fuel, rfl⟩ := Nat.exists_eq_succ_of_ne_zero (Nat.ne_zero_of_lt hfuel)
    obtain ⟨hspace, hmore⟩ := folded_split hfolded
    have hne : more ≠ [] := by
      rintro rfl
      simp only [List.head?_nil, reduceCtorEq, or_self] at hspace
    have hcat : before ++ (seg ++ newline :: more) = before ++ seg ++ [newline] ++ more := by
      simp only [List.append_assoc, List.cons_append, List.nil_append]
    have hspace' : (more ++ (ending ++ rest)).head? = some 32 ∨
      (more ++ (ending ++ rest)).head? = some 9 := by
      rwa [List.head?_append_of_ne_nil _ hne]
    have hshape : header = before ++ seg ++ newline :: (more ++ (ending ++ rest)) := by
      simp only [hheader, List.append_assoc, List.cons_append]
    rw [hcat] at hheader hvalue ⊢
    rw [List.length_append, List.length_cons] at hfuel
    rw [scanValue_newline hseg hshape, if_pos hspace',
      ih hmore (hends.tail hne) hheader hvalue (by omega)]

end Value

end PS4Droid.Network.Http
