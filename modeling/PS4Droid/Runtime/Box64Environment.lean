import Mathlib.Data.List.DropRight
import Mathlib.Data.UInt

/-!
# The environment of Box64 as text

`Box64EnvironmentCodec`: a map of variables as lines `NAME=value`. A Kotlin string is the list of
its UTF-16 code units, and a map the list of its entries with different names. What the decoder
trims away is all that can be lost.
-/

namespace PS4Droid.Runtime.Box64

/-- A string of Kotlin. -/
abbrev Units := List UInt16

def lineFeed : UInt16 := 10

def carriageReturn : UInt16 := 13

/-- The character `#`. -/
def hash : UInt16 := 35

/-- The character `=`. -/
def equals : UInt16 := 61

/-- The text of ASCII characters. -/
def ascii (text : String) : Units := text.toList.map fun c => UInt16.ofNat c.toNat

/-- `Char.isWhitespace`. -/
def isWhitespace (c : UInt16) : Bool :=
  9 ≤ c ∧ c ≤ 13 ∨ 28 ≤ c ∧ c ≤ 32 ∨ c = 0xa0 ∨ c = 0x1680 ∨ 0x2000 ≤ c ∧ c ≤ 0x200a ∨ c = 0x2028 ∨
    c = 0x2029 ∨ c = 0x202f ∨ c = 0x205f ∨ c = 0x3000

/-- `CharSequence.trim`. -/
def trim (text : Units) : Units := (text.dropWhile isWhitespace).rdropWhile isWhitespace

/-- `BOX64_`. -/
def namePrefix : Units := [66, 79, 88, 54, 52, 95]

/-- A character of the class `[A-Z0-9_]`. -/
def isNameUnit (c : UInt16) : Bool := 65 ≤ c ∧ c ≤ 90 ∨ 48 ≤ c ∧ c ≤ 57 ∨ c = 95

/-- `namePattern.matches`. -/
def matchesName (name : Units) : Bool :=
  namePrefix <+: name ∧ name.drop 6 ≠ [] ∧ (name.drop 6).all isNameUnit

def launchOwned : List Units :=
  [ascii "BOX64_PATH", ascii "BOX64_LD_LIBRARY_PATH", ascii "BOX64_EMULATED_LIBS",
    ascii "BOX64_LOAD_ADDR", ascii "BOX64_PROFILE"]

/-- The messages of the exceptions. -/
inductive Failure where
  | badEntry (line : ℕ)
  | badName (name : Units)
  | owned (name : Units)
  | badValue (name : Units)
  | duplicate (name : Units)
  deriving DecidableEq

def Failure.message : Failure → Units
  | badEntry line => ascii s!"Invalid Box64 entry on line {line}"
  | badName name => ascii "Invalid Box64 variable " ++ name
  | owned name => name ++ ascii " is launch-owned by BachataS4"
  | badValue name => ascii "Invalid value for " ++ name
  | duplicate name => ascii "Duplicate Box64 entry " ++ name

def validate (name value : Units) : Except Failure Unit :=
  if ¬matchesName name then .error (.badName name)
  else if name ∈ launchOwned then .error (.owned name)
  else if ¬(0 ∉ value ∧ lineFeed ∉ value ∧ carriageReturn ∉ value) then .error (.badValue name)
  else .ok ()

/-- A map from names to values. -/
structure Environment where
  entries : List (Units × Units) := []
  nodup : (entries.map Prod.fst).Nodup := by exact List.nodup_nil

/-- The maps are equal: they have the same entries, in whatever order. -/
def Environment.Same (values values' : Environment) : Prop := values.entries.Perm values'.entries

/-- `values.put`, for a name that is not there yet. -/
def Environment.put (values : Environment) (name value : Units)
    (hnew : name ∉ values.entries.map Prod.fst) :
    Environment where
  entries := values.entries ++ [(name, value)]
  nodup := by
    rw [List.map_append]
    refine List.nodup_append.mpr ⟨values.nodup, List.nodup_singleton _,
      fun other hother last hlast heq => ?_⟩
    rw [heq, List.mem_singleton.mp hlast] at hother
    exact hnew hother

/-- `lineSequence`: the lines end with a line feed, a carriage return, or both in this order. -/
def lineSequence : Units → List Units
  | [] => [[]]
  | c :: rest =>
    if c = carriageReturn ∧ rest.head? = some lineFeed then lineSequence rest
    else if c = lineFeed ∨ c = carriageReturn then [] :: lineSequence rest
    else (lineSequence rest).modifyHead (c :: ·)

/-- The loop over the lines; `index` counts them from zero. -/
def decodeLines (index : ℕ) (values : Environment) : List Units → Except Failure Environment
  | [] => .ok values
  | rawLine :: rest =>
    let line := trim rawLine
    if line.all isWhitespace ∨ line.head? = some hash then decodeLines (index + 1) values rest
    else
      let separator := line.idxOf equals
      if ¬(separator < line.length ∧ 0 < separator) then .error (.badEntry (index + 1))
      else
        let name := trim (line.take separator)
        let value := line.drop (separator + 1)
        match validate name value with
        | .error failure => .error failure
        | .ok () =>
          if hname : name ∈ values.entries.map Prod.fst then .error (.duplicate name)
          else decodeLines (index + 1) (values.put name value hname) rest

def decode (text : Units) : Except Failure Environment := decodeLines 0 {} (lineSequence text)

/-- The lines of the entries, one after the other. -/
def encodeEntries : List (Units × Units) → Except Failure Units
  | [] => .ok []
  | (name, value) :: rest =>
    match validate name value with
    | .error failure => .error failure
    | .ok () => (encodeEntries rest).map fun text => name ++ equals :: value ++ lineFeed :: text

/-- `toSortedMap`. -/
def Environment.sorted (values : Environment) : List (Units × Units) :=
  values.entries.mergeSort fun a b => decide (a.1 ≤ b.1)

def encode (values : Environment) : Except Failure Units := encodeEntries values.sorted

/-! ### Lines -/

section Lines

variable {name value line : Units}

/-- What the decoder keeps of a value. -/
def kept (value : Units) : Units := value.rdropWhile isWhitespace

theorem lineSequence_line (h : lineFeed ∉ line ∧ carriageReturn ∉ line) (rest : Units) :
    lineSequence (line ++ lineFeed :: rest) = line :: lineSequence rest := by
  induction line with
  | nil => simp [lineSequence, lineFeed, carriageReturn]
  | cons c line ih =>
    have hc : c ≠ lineFeed ∧ c ≠ carriageReturn :=
      ⟨fun heq => h.1 (heq ▸ List.mem_cons_self), fun heq => h.2 (heq ▸ List.mem_cons_self)⟩
    have hrest := ih ⟨fun hmem => h.1 (List.mem_cons_of_mem _ hmem),
      fun hmem => h.2 (List.mem_cons_of_mem _ hmem)⟩
    rw [List.cons_append, lineSequence, if_neg fun hcr => hc.2 hcr.1, if_neg (not_or.mpr hc), hrest]
    rfl

theorem dropWhile_stop {p : UInt16 → Bool} {c : UInt16} (hc : p c = false) (before after : Units) :
    (before ++ c :: after).dropWhile p = before.dropWhile p ++ c :: after := by
  induction before with
  | nil => exact List.dropWhile_cons_of_neg (by rw [hc]; decide)
  | cons d before ih =>
    by_cases hd : p d = true
    · rw [List.cons_append, List.dropWhile_cons_of_pos hd, List.dropWhile_cons_of_pos hd, ih]
    · rw [List.cons_append, List.dropWhile_cons_of_neg hd, List.dropWhile_cons_of_neg hd,
        List.cons_append]

theorem nameUnit_plain {c : UInt16} (h : isNameUnit c = true) :
    isWhitespace c = false ∧ c ≠ equals ∧ c ≠ hash := by
  unfold isNameUnit at h
  unfold isWhitespace equals hash
  simp only [decide_eq_true_eq, decide_eq_false_iff_not, ne_eq, UInt16.le_iff_toNat_le,
    ← UInt16.toNat_inj, UInt16.reduceToNat] at h ⊢
  omega

/-- The characters of a name are no white space, no `=` and no `#`. -/
theorem name_unit (h : matchesName name = true) : ∀ c ∈ name, isWhitespace c = false ∧ c ≠ equals ∧
    c ≠ hash := by
  obtain ⟨⟨rest, rfl⟩, -, hrest⟩ := of_decide_eq_true h
  have hdrop : (namePrefix ++ rest).drop 6 = rest := List.drop_left' rfl
  rw [hdrop] at hrest
  have hprefix : ∀ c ∈ namePrefix, isWhitespace c = false ∧ c ≠ equals ∧ c ≠ hash :=
    List.forall_iff_forall_mem.mp (by decide)
  intro c hc
  rcases List.mem_append.mp hc with hc | hc
  · exact hprefix c hc
  · exact nameUnit_plain (List.all_eq_true.mp hrest c hc)

theorem name_ne_nil (h : matchesName name = true) : name ≠ [] := by
  rintro rfl
  cases h

theorem dropWhile_name (h : matchesName name = true) (rest : Units) :
    (name ++ rest).dropWhile isWhitespace = name ++ rest := by
  obtain ⟨c, others, rfl⟩ := List.exists_cons_of_ne_nil (name_ne_nil h)
  have hc := (name_unit h c List.mem_cons_self).1
  rw [List.cons_append, List.dropWhile_cons_of_neg (by rw [hc]; decide)]

theorem trim_line (h : matchesName name = true) (value : Units) :
    trim (name ++ equals :: value) = name ++ equals :: kept value := by
  have hstop : isWhitespace equals = false := by decide
  rw [trim, dropWhile_name h, List.rdropWhile, List.reverse_append, List.reverse_cons,
    List.append_assoc,
    List.singleton_append, dropWhile_stop hstop, List.reverse_append, List.reverse_cons,
      List.reverse_reverse,
    List.append_assoc, List.singleton_append]
  rfl

theorem trim_name (h : matchesName name = true) : trim name = name := by
  have hstart := dropWhile_name h []
  rw [List.append_nil] at hstart
  rw [trim, hstart, List.rdropWhile_eq_self_iff]
  intro hne
  rw [(name_unit h _ (List.getLast_mem hne)).1]
  decide

theorem kept_subset (value : Units) : kept value ⊆ value := (List.rdropWhile_prefix _ _).subset

/-- Nothing is lost of a value that does not end with white space. -/
theorem kept_eq_self : kept value = value ↔ ∀ c ∈ value.getLast?, isWhitespace c = false := by
  rw [kept, List.rdropWhile_eq_self_iff]
  constructor
  · intro h c hc
    obtain ⟨hne, hlast⟩ := List.mem_getLast?_eq_getLast hc
    rw [hlast]
    exact Bool.eq_false_iff.mpr (h hne)
  · intro h hne
    rw [h _ (List.getLast?_eq_some_getLast hne)]
    decide

theorem trim_last (text : Units) : ∀ c ∈ (trim text).getLast?, isWhitespace c = false :=
  kept_eq_self.mp (List.rdropWhile_idempotent _ _)

end Lines

/-! ### Entries -/

section Entries

variable {name value : Units}

theorem validate_eq_ok : validate name value = .ok () ↔ matchesName name = true ∧
    name ∉ launchOwned ∧ 0 ∉ value ∧ lineFeed ∉ value ∧ carriageReturn ∉ value := by
  unfold validate
  constructor
  · intro h
    split_ifs at h with hname howned hvalue
    exact ⟨hname, howned, hvalue⟩
  · rintro ⟨hname, howned, hvalue⟩
    rw [if_neg (not_not.mpr hname), if_neg howned, if_neg (not_not.mpr hvalue)]

theorem validate_kept (h : validate name value = .ok ()) : validate name (kept value) = .ok () := by
  obtain ⟨hname, howned, hzero, hfeed, hreturn⟩ := validate_eq_ok.mp h
  have hsub := kept_subset value
  exact validate_eq_ok.mpr ⟨hname, howned, fun hmem => hzero (hsub hmem),
    fun hmem => hfeed (hsub hmem), fun hmem => hreturn (hsub hmem)⟩

theorem line_not_skipped (h : matchesName name = true) (rest : Units) :
    ¬((name ++ rest).all isWhitespace = true ∨ (name ++ rest).head? = some hash) := by
  obtain ⟨c, others, rfl⟩ := List.exists_cons_of_ne_nil (name_ne_nil h)
  obtain ⟨hspace, -, hhash⟩ := name_unit h c List.mem_cons_self
  rintro (hall | hhead)
  · have hc := List.all_eq_true.mp hall c (List.mem_append_left _ List.mem_cons_self)
    rw [hspace] at hc
    cases hc
  · exact hhash (Option.some.inj hhead)

theorem cut_name (h : matchesName name = true) (rest : Units) :
    (name ++ equals :: rest).idxOf equals = name.length ∧
      (name ++ equals :: rest).take name.length = name ∧
      (name ++ equals :: rest).drop (name.length + 1) = rest := by
  have hnotin : equals ∉ name := fun hmem => (name_unit h _ hmem).2.1 rfl
  refine ⟨?_, List.take_left, ?_⟩
  · rw [List.idxOf_append_of_notMem hnotin, List.idxOf_cons_self, Nat.add_zero]
  · rw [← List.drop_drop, List.drop_left, List.drop_one, List.tail_cons]

/-- The decoder takes a line of the encoder, without the white space at its end. -/
theorem decodeLines_entry {index : ℕ} {values : Environment} (h : validate name value = .ok ())
    (hnew : name ∉ values.entries.map Prod.fst) (rest : List Units) :
    decodeLines index values ((name ++ equals :: value) :: rest) =
      decodeLines (index + 1) (values.put name (kept value) hnew) rest := by
  have hname := (validate_eq_ok.mp h).1
  obtain ⟨hindex, htake, hdrop⟩ := cut_name hname (kept value)
  have hpos := List.length_pos_iff.mpr (name_ne_nil hname)
  have hcut : ¬¬(name.length < (name ++ equals :: kept value).length ∧ 0 < name.length) := by
    rw [List.length_append, List.length_cons]
    omega
  rw [decodeLines]
  simp only [trim_line hname, if_neg (line_not_skipped hname _), hindex, if_neg hcut, htake, hdrop,
    trim_name hname, validate_kept h, dif_neg hnew]

theorem entry_on_line (h : validate name value = .ok ()) :
    lineFeed ∉ name ++ equals :: value ∧ carriageReturn ∉ name ++ equals :: value := by
  obtain ⟨hname, -, -, hfeed, hreturn⟩ := validate_eq_ok.mp h
  simp only [List.mem_append, List.mem_cons, not_or]
  refine ⟨⟨fun hmem => ?_, by decide, hfeed⟩, fun hmem => ?_, by decide, hreturn⟩
  · cases (name_unit hname _ hmem).1
  · cases (name_unit hname _ hmem).1

theorem decodeLines_blank (index : ℕ) (values : Environment) :
    decodeLines index values [[]] = .ok values := by
  rw [decodeLines, if_pos (.inl rfl), decodeLines]

/-- The decoder gets back the entries of the lines, without the white space at the end of the
values. -/
theorem decodeLines_encoded {entries : List (Units × Units)} {text : Units} {values : Environment}
    {index : ℕ}
    (h : encodeEntries entries = .ok text)
    (hnodup : (values.entries.map Prod.fst ++ entries.map Prod.fst).Nodup) :
    ∃ values', decodeLines index values (lineSequence text) = .ok values' ∧
      values'.entries = values.entries ++ entries.map fun entry => (entry.1, kept entry.2) := by
  induction entries generalizing text values index with
  | nil =>
    cases h
    exact ⟨values, decodeLines_blank index values, (List.append_nil _).symm⟩
  | cons entry rest ih =>
    obtain ⟨name, value⟩ := entry
    rw [encodeEntries] at h
    cases hvalid : validate name value with
    | error failure =>
      rw [hvalid] at h
      cases h
    | ok =>
      rw [hvalid] at h
      cases hrest : encodeEntries rest with
      | error failure =>
        rw [hrest] at h
        cases h
      | ok tail =>
        rw [hrest] at h
        cases h
        rw [List.map_cons] at hnodup
        have hnew : name ∉ values.entries.map Prod.fst := fun hmem =>
          List.disjoint_of_nodup_append hnodup hmem List.mem_cons_self
        have hrestnodup : ((values.put name (kept value) hnew).entries.map Prod.fst ++
          rest.map Prod.fst).Nodup := by
          rw [Environment.put, List.map_append, List.append_assoc]
          exact hnodup
        obtain ⟨values', hdecode, hentries⟩ :=
          @ih tail (values.put name (kept value) hnew) (index + 1) hrest hrestnodup
        refine ⟨values', ?_, ?_⟩
        · rw [lineSequence_line (entry_on_line hvalid), decodeLines_entry hvalid hnew, hdecode]
        · rw [hentries, Environment.put, List.append_assoc]
          rfl

theorem encodeEntries_ok {entries : List (Units × Units)} :
    (∃ text, encodeEntries entries = .ok text) ↔ ∀ entry ∈ entries,
      validate entry.1 entry.2 = .ok () := by
  induction entries with
  | nil => exact iff_of_true ⟨_, rfl⟩ nofun
  | cons entry rest ih =>
    obtain ⟨name, value⟩ := entry
    rw [encodeEntries, List.forall_mem_cons, ← ih]
    cases hvalid : validate name value with
    | error failure => simp
    | ok =>
      cases hrest : encodeEntries rest with
      | error failure => simp [Except.map]
      | ok tail => simp [Except.map]

end Entries

/-! ### Round trips -/

section RoundTrips

variable {values values' : Environment} {text : Units}

/-- No value ends with white space. -/
def NoTrailing (values : Environment) : Prop :=
  ∀ entry ∈ values.entries, ∀ c ∈ entry.2.getLast?, isWhitespace c = false

theorem sorted_perm (values : Environment) : values.sorted.Perm values.entries :=
  List.mergeSort_perm _ _

theorem sorted_nodup (values : Environment) : (values.sorted.map Prod.fst).Nodup :=
  ((sorted_perm values).map _).nodup_iff.mpr values.nodup

theorem decode_encode (h : encode values = .ok text) : ∃ values', decode text = .ok values' ∧
      values'.entries = values.sorted.map fun entry => (entry.1, kept entry.2) := by
  obtain ⟨values', hdecode, hentries⟩ :=
    @decodeLines_encoded values.sorted text {} 0 h (sorted_nodup values)
  exact ⟨values', hdecode, hentries⟩

/-- An encoded map comes back exactly if no value ends with white space. -/
theorem decode_encode_iff (h : encode values = .ok text) :
    (∃ values', decode text = .ok values' ∧ values'.Same values) ↔ NoTrailing values := by
  obtain ⟨values', hdecode, hentries⟩ := decode_encode h
  have hperm := sorted_perm values
  have hnoTrailing : NoTrailing values ↔ ∀ entry ∈ values.sorted, kept entry.2 = entry.2 := by
    simp only [NoTrailing, kept_eq_self, hperm.mem_iff]
  rw [hnoTrailing]
  constructor
  · rintro ⟨other, hother, hsame⟩
    rw [hdecode] at hother
    cases hother
    rw [Environment.Same, hentries] at hsame
    intro entry hentry
    have hmem : (entry.1, kept entry.2) ∈ values.entries :=
      hsame.mem_iff.mp (List.mem_map.mpr ⟨entry, hentry, rfl⟩)
    have heq := List.inj_on_of_nodup_map values.nodup hmem (hperm.mem_iff.mp hentry) rfl
    exact congrArg Prod.snd heq
  · intro hkept
    refine ⟨values', hdecode, ?_⟩
    have hid : values.sorted.map (fun entry => (entry.1, kept entry.2)) = values.sorted := by
      refine (List.map_congr_left fun entry hentry => ?_).trans (List.map_id _)
      exact Prod.ext rfl (hkept entry hentry)
    rw [Environment.Same, hentries, hid]
    exact hperm

/-- Every entry that the decoder stores can be encoded and does not end with white space. -/
theorem decodeLines_wholesome {lines : List Units} {index : ℕ}
    (hvalid : ∀ entry ∈ values.entries, validate entry.1 entry.2 = .ok ())
    (htrail : NoTrailing values)
    (h : decodeLines index values lines = .ok values') :
    (∀ entry ∈ values'.entries, validate entry.1 entry.2 = .ok ()) ∧ NoTrailing values' := by
  induction lines generalizing index values with
  | nil =>
    cases h
    exact ⟨hvalid, htrail⟩
  | cons rawLine rest ih =>
    rw [decodeLines] at h
    dsimp only at h
    by_cases hskip : (trim rawLine).all isWhitespace = true ∨ (trim rawLine).head? = some hash
    · rw [if_pos hskip] at h
      exact ih hvalid htrail h
    · rw [if_neg hskip] at h
      split at h
      · cases h
      · cases hentry : validate (trim ((trim rawLine).take ((trim rawLine).idxOf equals)))
            ((trim rawLine).drop ((trim rawLine).idxOf equals + 1)) with
        | error failure =>
          rw [hentry] at h
          cases h
        | ok =>
          rw [hentry] at h
          dsimp only at h
          split at h
          · cases h
          · refine ih ?_ ?_ h
            · exact List.forall_mem_append.mpr ⟨hvalid, List.forall_mem_singleton.mpr hentry⟩
            · refine List.forall_mem_append.mpr ⟨htrail, List.forall_mem_singleton.mpr fun c hc =>
                ?_⟩
              dsimp only at hc
              rw [List.getLast?_drop] at hc
              split_ifs at hc
              · cases hc
              · exact trim_last rawLine c hc

/-- Encoding gives back every map but those with white space at the end of a value; what was decoded
is always given back. -/
theorem codec_roundTrip (values : Environment) (text : Units) :
    (encode values = .ok text →
      ((∃ values', decode text = .ok values' ∧ values'.Same values) ↔ NoTrailing values)) ∧
      (decode text = .ok values →
        ∃ text' values', encode values = .ok text' ∧ decode text' = .ok values' ∧
          values'.Same values) := by
  refine ⟨decode_encode_iff, fun h => ?_⟩
  have hempty : ∀ {P : Units × Units → Prop}, ∀ entry ∈ ({} : Environment).entries, P entry := by
    intro P entry hentry
    cases hentry
  obtain ⟨hvalid, htrail⟩ := decodeLines_wholesome hempty hempty h
  obtain ⟨text', htext⟩ := encodeEntries_ok.mpr fun entry hentry =>
    hvalid entry ((sorted_perm values).mem_iff.mp hentry)
  obtain ⟨values', hdecode, hsame⟩ := (decode_encode_iff htext).mpr htrail
  exact ⟨text', values', htext, hdecode, hsame⟩

/-- One variable. -/
def single (value : Units) : Environment := ⟨[(ascii "BOX64_LOG", value)], List.nodup_singleton _⟩

theorem encode_single {value : Units} (h : validate (ascii "BOX64_LOG") value = .ok ()) :
    ∃ text, encode (single value) = .ok text := by
  refine encodeEntries_ok.mpr fun entry hentry => ?_
  rw [List.mem_singleton.mp ((sorted_perm (single value)).mem_iff.mp hentry)]
  exact h

theorem codec_roundTrip_single :
    ∃ text, encode (single [49]) = .ok text ∧
      (∃ values', decode text = .ok values' ∧ values'.Same (single [49])) ∧
      ∃ values' text', decode text = .ok values' ∧ encode values' = .ok text' := by
  have hvalid : validate (ascii "BOX64_LOG") [49] = .ok () := by decide +kernel
  obtain ⟨text, htext⟩ := encode_single hvalid
  have hno : NoTrailing (single [49]) := by
    intro entry hentry c hc
    rw [List.mem_singleton.mp hentry] at hc
    obtain rfl := Option.some.inj hc
    decide
  obtain ⟨values', hdecode, hsame⟩ := ((codec_roundTrip _ _).1 htext).mpr hno
  obtain ⟨text', _, hencode, -⟩ := (codec_roundTrip _ _).2 hdecode
  exact ⟨text, htext, ⟨values', hdecode, hsame⟩, values', text', hdecode, hencode⟩

/-- The value of one space and a digit in front of it loses the space. -/
theorem space_lost :
    ∃ text, encode (single [49, 32]) = .ok text ∧
      ¬∃ values', decode text = .ok values' ∧ values'.Same (single [49, 32]) := by
  have hvalid : validate (ascii "BOX64_LOG") [49, 32] = .ok () := by decide +kernel
  obtain ⟨text, htext⟩ := encode_single hvalid
  refine ⟨text, htext, fun h => ?_⟩
  have hno := (decode_encode_iff htext).mp h
  have hspace := hno _ (List.mem_singleton_self _) 32 rfl
  revert hspace
  decide

end RoundTrips

end PS4Droid.Runtime.Box64
