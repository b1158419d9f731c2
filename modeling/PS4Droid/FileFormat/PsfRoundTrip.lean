import PS4Droid.FileFormat.Psf
import PS4Droid.Foundations.Lockstep

/-!
# Parameter files and their bytes

Every object that calls build up is that of a list of keys and values. Its bytes hold each key and
each value where the raw entry of their index says, and opening them gives the object again.
-/

namespace PS4Droid.FileFormat

open ByteStrings

/-! ### Objects of a list -/

section Items

def Value.binary? : Value → Option (List UInt8)
  | binary value => some value
  | _ => none

def Value.text? : Value → Option (List UInt8)
  | text value => some value
  | _ => none

def Value.integer? : Value → Option (BitVec 32)
  | integer value => some value
  | _ => none

abbrev Item := List UInt8 × Value

def Item.entry (item : Item) : Entry := ⟨item.1, item.2.fmt, item.2.maxLen item.1⟩

/-- The object with the given keys and values. -/
def ofItems (items : List Item) : PSF where
  entryList := items.map Item.entry
  mapBinaries i := items[i]?.bind fun item => item.2.binary?
  mapStrings i := items[i]?.bind fun item => item.2.text?
  mapIntegers i := items[i]?.bind fun item => item.2.integer?

/-- Different keys, and no zeros in keys and texts. -/
structure Proper (items : List Item) : Prop where
  keys : (items.map Prod.fst).Nodup
  keyZero : ∀ item ∈ items, 0 ∉ item.1
  textZero : ∀ item ∈ items, ∀ text, item.2 = .text text → 0 ∉ text

variable {items : List Item} {key : List UInt8} {value : Value} {p : PSF}

theorem ofItems_nil : ofItems [] = {} := rfl

theorem getElem?_concat {α : Type*} (xs : List α) (a : α) (i : ℕ) :
    (xs ++ [a])[i]? = if i = xs.length then some a else xs[i]? := by
  by_cases hlt : i < xs.length
  · rw [List.getElem?_append_left hlt, if_neg (by omega)]
  · rw [List.getElem?_append_right (by omega)]
    by_cases heq : i = xs.length
    · rw [if_pos heq, heq, Nat.sub_self]
      rfl
    · rw [if_neg heq, List.getElem?_eq_none (by simp; omega), List.getElem?_eq_none (by omega)]

theorem append_ofItems (items : List Item) (key : List UInt8) (value : Value) :
    (ofItems items).append key value (value.maxLen key) = ofItems (items ++ [(key, value)]) := by
  have hlength : (ofItems items).entryList.length = items.length := List.length_map _
  have hmaps : ∀ {β : Type} (f : Item → Option β) (i : ℕ), ((items ++ [(key, value)])[i]?.bind f) =
      if i = items.length then f (key, value) else items[i]?.bind f := by
    intro β f i
    rw [getElem?_concat]
    split <;> rfl
  rw [PSF.append, hlength, ofItems, ofItems]
  simp only [hmaps, List.map_append, List.map_singleton]
  cases value with
  | binary bytes | text bytes | integer number =>
    rw [PSF.emplace]
    congr 1
    all_goals funext i; by_cases hi : i = items.length <;>
      simp [hi, Value.binary?, Value.text?, Value.integer?]

theorem assign_ofItems {index : ℕ} {old : Value} (hindex : items[index]? = some (key, old))
    (hfmt : old.fmt = value.fmt) :
    PSF.assign { ofItems items with entryList := (ofItems items).entryList.modify index fun entry =>
      { entry with maxLen := value.maxLen key } } index value =
        .ok (ofItems (items.set index (key, value))) := by
  have hlt : index < items.length := (List.getElem?_eq_some_iff.mp hindex).1
  have hentries :
    ((items.map Item.entry).modify index fun entry => { entry with maxLen := value.maxLen key }) =
      (items.set index (key, value)).map Item.entry := by
    refine List.ext_getElem? fun i => ?_
    rw [List.getElem?_modify, List.getElem?_map, List.getElem?_map, List.getElem?_set]
    by_cases hi : index = i
    · rw [if_pos hi, if_pos hlt, ← hi, hindex]
      simp [Item.entry, hfmt, hi]
    · rw [if_neg hi]
      simp [hi]
  have hmaps : ∀ {β : Type} (f : Item → Option β) (i : ℕ),
    ((items.set index (key, value))[i]?.bind f) =
      if i = index then f (key, value) else items[i]?.bind f := by
    intro β f i
    rw [List.getElem?_set]
    by_cases hi : index = i
    · rw [if_pos hi, if_pos hlt, if_pos hi.symm]
      rfl
    · rw [if_neg hi, if_neg (Ne.symm hi)]
  have hothers : ∀ {β : Type} (f : Value → Option β), f old = none → f value = none →
      (fun i => if i = index then f value else items[i]?.bind fun item => f item.2) =
        fun i => items[i]?.bind fun item => f item.2 := by
    intro β f hold hvalue
    funext i
    by_cases hi : i = index
    · rw [if_pos hi, hi, hindex, hvalue]
      exact hold.symm
    · rw [if_neg hi]
  rw [ofItems, ofItems]
  simp only [hmaps, hentries]
  cases value with
  | binary bytes =>
    cases old <;> cases hfmt
    rw [PSF.assign,
      if_pos (show (items[index]?.bind fun item => item.2.binary?).isSome by rw [hindex]; rfl),
      hothers Value.text? rfl rfl, hothers Value.integer? rfl rfl]
    rfl
  | text bytes =>
    cases old <;> cases hfmt
    rw [PSF.assign,
      if_pos (show (items[index]?.bind fun item => item.2.text?).isSome by rw [hindex]; rfl),
      hothers Value.binary? rfl rfl, hothers Value.integer? rfl rfl]
    rfl
  | integer number =>
    cases old <;> cases hfmt
    rw [PSF.assign,
      if_pos (show (items[index]?.bind fun item => item.2.integer?).isSome by rw [hindex]; rfl),
      hothers Value.binary? rfl rfl, hothers Value.text? rfl rfl]
    rfl

theorem findEntry_ofItems (items : List Item) (key : List UInt8) :
    (ofItems items).findEntry key = items.findIdx fun item => item.1 = key :=
  List.findIdx_map items Item.entry _

theorem entry_ofItems (items : List Item) (key : List UInt8) :
    (ofItems items).entryList[(ofItems items).findEntry key]? =
      (LinkedMap.get items key).map fun old => Item.entry (key, old) := by
  rw [findEntry_ofItems, ofItems, List.getElem?_map, LinkedMap.getElem?_findIdx, Option.map_map]
  rfl

/-- A value is added at the end, kept, or replaced by one of its format. -/
theorem add_ofItems_eq (items : List Item) (key : List UInt8) (value : Value) (update : Bool) :
    (ofItems items).add key value update =
      match LinkedMap.get items key with
      | none => .ok (ofItems (items ++ [(key, value)]))
      | some old =>
        if ¬update then .ok (ofItems items)
        else if old.fmt ≠ value.fmt then .error .assertion
        else .ok (ofItems (items.set (items.findIdx fun item => item.1 = key) (key, value))) := by
  have hindex := LinkedMap.getElem?_findIdx items key
  rw [PSF.add, entry_ofItems, findEntry_ofItems]
  cases hget : LinkedMap.get items key with
  | none => exact congrArg Except.ok (append_ofItems items key value)
  | some old =>
    rw [hget] at hindex
    dsimp only [Option.map_some]
    refine ite_congr rfl (fun _ => rfl) fun _ => ite_congr rfl (fun _ => rfl) fun hfmt => ?_
    exact assign_ofItems hindex (not_not.mp hfmt)

theorem add_ofItems {update : Bool} (hproper : Proper items) (hkey : 0 ∉ key)
    (htext : ∀ text, value = .text text → 0 ∉ text)
    (h : (ofItems items).add key value update = .ok p) :
    ∃ items', p = ofItems items' ∧ Proper items' := by
  have hitem : ∀ item : Item, item = (key, value) → 0 ∉ item.1 ∧ ∀ text, item.2 = .text text →
    0 ∉ text := by
    rintro _ rfl
    exact ⟨hkey, htext⟩
  have hindex := LinkedMap.getElem?_findIdx items key
  rw [add_ofItems_eq] at h
  cases hget : LinkedMap.get items key with
  | none =>
    rw [hget] at h hindex
    cases h
    refine ⟨items ++ [(key, value)], rfl, ?_, ?_, ?_⟩
    · rw [List.map_append]
      refine List.nodup_append.mpr ⟨hproper.keys, List.nodup_singleton _, ?_⟩
      rintro a ha b hb rfl
      obtain ⟨item, hmem, rfl⟩ := List.mem_map.mp ha
      refine absurd (List.getElem?_eq_none_iff.mp hindex)
        (Nat.not_le.mpr (List.findIdx_lt_length.mpr ?_))
      exact ⟨item, hmem, decide_eq_true (List.mem_singleton.mp hb)⟩
    · intro item hmem
      rcases List.mem_append.mp hmem with hmem | hmem
      · exact hproper.keyZero item hmem
      · exact (hitem item (List.mem_singleton.mp hmem)).1
    · intro item hmem
      rcases List.mem_append.mp hmem with hmem | hmem
      · exact hproper.textZero item hmem
      · exact (hitem item (List.mem_singleton.mp hmem)).2
  | some old =>
    rw [hget] at hindex
    simp only [hget] at h
    by_cases hupdate : ¬update
    · rw [if_pos hupdate] at h
      cases h
      exact ⟨items, rfl, hproper⟩
    · rw [if_neg hupdate] at h
      split_ifs at h
      cases h
      refine ⟨_, rfl, ?_, ?_, ?_⟩
      · generalize (items.findIdx fun item => decide (item.1 = key)) = i at hindex ⊢
        have hsame : (items.map Prod.fst)[i]? = some key := by
          rw [List.getElem?_map, hindex]
          rfl
        obtain ⟨hlt, rfl⟩ := List.getElem?_eq_some_iff.mp hsame
        rw [List.map_set, List.set_getElem_self hlt]
        exact hproper.keys
      · intro item hmem
        rcases List.mem_or_eq_of_mem_set hmem with hmem | heq
        · exact hproper.keyZero item hmem
        · exact (hitem item heq).1
      · intro item hmem
        rcases List.mem_or_eq_of_mem_set hmem with hmem | heq
        · exact hproper.textZero item hmem
        · exact (hitem item heq).2

/-! ### Calls -/

inductive Call where
  | addBinary (key value : List UInt8) (update : Bool)
  | addBinary64 (key : List UInt8) (value : UInt64) (update : Bool)
  | addString (key value : List UInt8) (update : Bool)
  | addInteger (key : List UInt8) (value : BitVec 32) (update : Bool)

def Call.apply (p : PSF) : Call → Except Fault PSF
  | addBinary key value update => p.addBinary key value update
  | addBinary64 key value update => p.addBinary64 key value update
  | addString key value update => p.addString key value update
  | addInteger key value update => p.addInteger key value update

def Call.NulFree : Call → Prop
  | addBinary key _ _ | addBinary64 key _ _ | addInteger key _ _ => 0 ∉ key
  | addString key value _ => 0 ∉ key ∧ 0 ∉ value

instance : DecidablePred Call.NulFree
  | .addBinary key _ _ | .addBinary64 key _ _ | .addInteger key _ _ =>
      inferInstanceAs (Decidable (0 ∉ key))
  | .addString key value _ => inferInstanceAs (Decidable (0 ∉ key ∧ 0 ∉ value))

/-- The object after some calls. A change of the format is an assertion. -/
def run (p : PSF) : List Call → Except Fault PSF
  | [] => .ok p
  | call :: rest =>
    match call.apply p with
    | .error fault => .error fault
    | .ok p => run p rest

theorem run_ofItems {calls : List Call} (hproper : Proper items)
    (hnul : ∀ call ∈ calls, call.NulFree)
    (h : run (ofItems items) calls = .ok p) : ∃ items', p = ofItems items' ∧ Proper items' := by
  induction calls generalizing items with
  | nil =>
    cases h
    exact ⟨items, rfl, hproper⟩
  | cons call rest ih =>
    obtain ⟨hcall, hnul⟩ := List.forall_mem_cons.mp hnul
    rw [run] at h
    cases happly : call.apply (ofItems items) with
    | error fault =>
      rw [happly] at h
      cases h
    | ok next =>
      rw [happly] at h
      have hnext : ∃ items', next = ofItems items' ∧ Proper items' := by
        cases call with
        | addBinary key value update | addBinary64 key value update =>
          refine add_ofItems hproper hcall ?_ happly
          nofun
        | addString key value update =>
          refine add_ofItems hproper hcall.1 ?_ happly
          rintro _ ⟨⟩
          exact hcall.2
        | addInteger key value update =>
          refine add_ofItems hproper hcall ?_ happly
          nofun
      obtain ⟨items', rfl, hproper'⟩ := hnext
      exact ih hproper' hnul h

end Items

/-! ### Encoding -/

section Encoding

variable {items : List Item} {p : PSF}

def Value.bytes : Value → List UInt8
  | binary value => value
  | text value => value ++ [0]
  | integer value => leBytes 4 value.toNat

theorem payload_ofItems {index : ℕ} {item : Item} (h : items[index]? = some item) :
    (ofItems items).payload (Item.entry item) index = .ok item.2.bytes := by
  obtain ⟨key, value⟩ := item
  cases value with
  | binary value =>
    change (items[index]?.bind fun item => item.2.binary?).elim _ _ = _
    rw [h]
    rfl
  | text value =>
    change (items[index]?.bind fun item => item.2.text?).elim _ _ = _
    rw [h]
    rfl
  | integer value =>
    change (items[index]?.bind fun item => item.2.integer?).elim _ _ = _
    rw [h]
    rfl

/-- The bytes of the keys of some entries. -/
def keyBytes (entries : List Entry) : List UInt8 := entries.flatMap fun entry => entry.key ++ [0]

theorem writeKeys_spec (entries : List Entry) (bytes : List UInt8) :
    (PSF.writeKeys entries bytes).2 = bytes ++ keyBytes entries ∧
      (PSF.writeKeys entries bytes).1.length = entries.length ∧
      ∀ i entry, entries[i]? = some entry → (PSF.writeKeys entries bytes).1[i]? =
        some (⟨(bytes ++ keyBytes (entries.take i)).length % 2 ^ 16, entry.paramFmt.raw, 0,
          entry.maxLen, 0⟩ : PSFRawEntry) := by
  induction entries generalizing bytes with
  | nil => exact ⟨(List.append_nil bytes).symm, rfl, nofun⟩
  | cons entry rest ih =>
    obtain ⟨hbytes, hlength, hraws⟩ := ih (bytes ++ entry.key ++ [0])
    refine ⟨?_, ?_, fun i other hi => ?_⟩
    · change (PSF.writeKeys rest _).2 = _
      rw [hbytes, keyBytes, keyBytes, List.flatMap_cons]
      simp only [List.append_assoc]
    · change (PSF.writeKeys rest _).1.length + 1 = _
      rw [hlength, List.length_cons]
    · cases i with
      | zero =>
        cases hi
        simp [PSF.writeKeys, keyBytes]
      | succ i =>
        change (PSF.writeKeys rest _).1[i]? = _
        rw [hraws i other hi, keyBytes, keyBytes, List.take_succ_cons, List.flatMap_cons]
        simp only [List.append_assoc]

theorem slice_key {entries : List Entry} {i : ℕ} {entry : Entry} (h : entries[i]? = some entry) :
    slice (keyBytes entries) (keyBytes (entries.take i)).length (entry.key.length + 1) =
      some (entry.key ++ [0]) := by
  refine slice_eq_some.mpr ⟨keyBytes (entries.take i), keyBytes (entries.drop (i + 1)), ?_,
    rfl, by simp⟩
  obtain ⟨hlt, hget⟩ := List.getElem?_eq_some_iff.mp h
  have hsplit : entries = entries.take i ++ entry :: entries.drop (i + 1) := by
    rw [← hget, ← List.drop_eq_getElem_cons hlt, List.take_append_drop]
  conv_lhs => rw [hsplit]
  simp only [keyBytes, List.flatMap_append, List.flatMap_cons, List.append_assoc]

theorem alignment_mod (size : ℕ) : (size + (PSF.alignment size).length) % 4 = 0 := by
  rw [PSF.alignment]
  split
  · rw [List.length_replicate]
    omega
  · next h =>
    rw [List.length_nil, Nat.add_zero]
    exact not_not.mp h

/-- A value fits if the padding behind it is not negative. -/
def Pads (raw : PSFRawEntry) (value : List UInt8) : Prop :=
  PSF.toS32 (value.length % 2 ^ 32) ≤ PSF.toS32 raw.paramMaxLen

variable {keyTable dataTable index : ℕ} {pairs : List (PSFRawEntry × Entry)}
  {raws : List PSFRawEntry}
  {bytes out : List UInt8}

theorem writeData_cons {raw : PSFRawEntry} {entry : Entry} {value : List UInt8}
    (hvalue : p.payload entry index = .ok value)
    (hpads : Pads raw value) (pairs : List (PSFRawEntry × Entry)) (bytes : List UInt8) :
    ∃ padding : ℕ, p.writeData keyTable dataTable index ((raw, entry) :: pairs) bytes =
      match p.writeData keyTable dataTable (index + 1) pairs
        (bytes ++ PSF.alignment (keyTable + bytes.length) ++ value ++ List.replicate padding 0) with
      | .error fault => .error fault
      | .ok (raws, out) => .ok ({ raw with
          dataOffset :=
            (keyTable + (bytes ++ PSF.alignment (keyTable + bytes.length)).length - dataTable) %
            2 ^ 32,
          paramLen := value.length % 2 ^ 32 } :: raws, out) := by
  refine ⟨(PSF.toS32 raw.paramMaxLen - PSF.toS32 (value.length % 2 ^ 32)).toNat, ?_⟩
  rw [PSF.writeData]
  simp only [hvalue]
  exact if_neg (Int.not_lt.mpr (Int.sub_nonneg_of_le hpads))

/-- Without a value that fits the second loop stops at an assertion. -/
theorem writeData_cons_error {raw : PSFRawEntry} {entry : Entry} {value : List UInt8}
    (hvalue : p.payload entry index = .ok value) (hpads : ¬Pads raw value)
    (pairs : List (PSFRawEntry × Entry))
    (bytes : List UInt8) :
    p.writeData keyTable dataTable index ((raw, entry) :: pairs) bytes = .error .assertion := by
  rw [PSF.writeData]
  simp only [hvalue]
  rw [if_pos (Int.sub_neg_of_lt (Int.not_le.mp hpads))]

theorem writeData_result (hpayload : ∀ i raw entry, pairs[i]? = some (raw, entry) → ∃ value,
      p.payload entry (index + i) = .ok value) :
    ((∀ i raw entry value, pairs[i]? = some (raw, entry) → p.payload entry (index + i) = .ok value →
      Pads raw value) ∧ ∃ result, p.writeData keyTable dataTable index pairs bytes = .ok result) ∨
    ((∃ i raw entry value, pairs[i]? = some (raw, entry) ∧ p.payload entry (index + i) = .ok value ∧
      ¬Pads raw value) ∧ p.writeData keyTable dataTable index pairs bytes = .error .assertion) := by
  induction pairs generalizing index bytes with
  | nil => exact .inl ⟨nofun, _, rfl⟩
  | cons pair rest ih =>
    obtain ⟨raw, entry⟩ := pair
    obtain ⟨value, hvalue⟩ := hpayload 0 raw entry rfl
    rw [Nat.add_zero] at hvalue
    have hrest : ∀ i raw entry, rest[i]? = some (raw, entry) → ∃ value,
      p.payload entry (index + 1 + i) = .ok value := by
      intro i raw entry hi
      rw [Nat.add_assoc, Nat.add_comm 1 i]
      exact hpayload (i + 1) raw entry hi
    by_cases hpads : Pads raw value
    · obtain ⟨padding, hstep⟩ := writeData_cons hvalue hpads rest bytes
      rw [hstep]
      rcases ih hrest with ⟨hall, ⟨raws, out⟩, hok⟩ | ⟨⟨i, raw', entry', value', hi, hvalue', hnot⟩,
        herror⟩
      · refine .inl ⟨fun i raw' entry' value' hi hvalue' => ?_, _, by rw [hok]⟩
        cases i with
        | zero =>
          cases hi
          cases hvalue.symm.trans hvalue'
          exact hpads
        | succ i =>
          refine hall i raw' entry' value' hi ?_
          rw [Nat.add_assoc, Nat.add_comm 1 i]
          exact hvalue'
      · refine .inr ⟨⟨i + 1, raw', entry', value', hi, ?_, hnot⟩, by rw [herror]⟩
        rw [Nat.add_comm i 1, ← Nat.add_assoc]
        exact hvalue'
    · exact .inr ⟨⟨0, raw, entry, value, rfl, hvalue, hpads⟩,
        writeData_cons_error hvalue hpads rest bytes⟩

/-- Every value is at its position, which is a multiple of four and stands in its raw entry. -/
theorem writeData_spec (hdata : dataTable ≤ keyTable + bytes.length)
    (hpayload : ∀ i raw entry, pairs[i]? = some (raw, entry) → ∃ value,
      p.payload entry (index + i) = .ok value)
    (h : p.writeData keyTable dataTable index pairs bytes = .ok (raws, out)) :
    (∃ data, out = bytes ++ data) ∧ raws.length = pairs.length ∧
      ∀ i raw entry, pairs[i]? = some (raw, entry) → ∃ value position,
        p.payload entry (index + i) = .ok value ∧
        dataTable ≤ keyTable + position ∧ (keyTable + position) % 4 = 0 ∧ raws[i]? = some { raw with
          dataOffset := (keyTable + position - dataTable) % 2 ^ 32, paramLen :=
  value.length % 2 ^ 32 } ∧ slice out position value.length = some value := by
  induction pairs generalizing index bytes raws with
  | nil =>
    cases h
    exact ⟨⟨[], (List.append_nil _).symm⟩, rfl, nofun⟩
  | cons pair rest ih =>
    obtain ⟨raw, entry⟩ := pair
    obtain ⟨value, hvalue⟩ := hpayload 0 raw entry rfl
    rw [Nat.add_zero] at hvalue
    by_cases hpads : Pads raw value
    · obtain ⟨padding, hstep⟩ :=
        @writeData_cons p keyTable dataTable index raw entry value hvalue hpads rest bytes
      rw [hstep] at h
      cases hrest : p.writeData keyTable dataTable (index + 1) rest
          (bytes ++ PSF.alignment (keyTable + bytes.length) ++ value ++
            List.replicate padding 0) with
      | error fault =>
        rw [hrest] at h
        cases h
      | ok result =>
        rw [hrest] at h
        obtain ⟨rest', out'⟩ := result
        cases h
        obtain ⟨⟨data, hout⟩, hlength, hvalues⟩ := ih (by simp only [List.length_append]; omega) (by
          intro i raw entry hi
          rw [Nat.add_assoc, Nat.add_comm 1 i]
          exact hpayload (i + 1) raw entry hi) hrest
        have hdata' : out = bytes ++
            (PSF.alignment (keyTable + bytes.length) ++ value ++ List.replicate padding 0 ++
              data) := by
          rw [hout]
          simp only [List.append_assoc]
        refine ⟨⟨_, hdata'⟩, by rw [List.length_cons, hlength, List.length_cons], ?_⟩
        intro i raw' entry' hi
        cases i with
        | zero =>
          cases hi
          refine ⟨value, (bytes ++ PSF.alignment (keyTable + bytes.length)).length, hvalue, ?_, ?_,
            rfl, ?_⟩
          · rw [List.length_append]
            omega
          · rw [List.length_append, ← Nat.add_assoc]
            exact alignment_mod _
          · rw [hout, List.append_assoc _ (List.replicate padding 0)]
            exact slice_append _ _ _
        | succ i =>
          obtain ⟨value', position, hvalue', hrest'⟩ := hvalues i raw' entry' hi
          refine ⟨value', position, ?_, hrest'⟩
          rw [Nat.add_comm i 1, ← Nat.add_assoc]
          exact hvalue'
    · rw [writeData_cons_error hvalue hpads rest bytes] at h
      cases h

end Encoding

/-! ### Opening -/

section Opening

variable {items : List Item} {raws : List PSFRawEntry} {out : List UInt8}

@[simp]
theorem length_header_bytes (header : PSFHeader) : header.bytes.length = 20 := by
  simp [PSFHeader.bytes]

@[simp]
theorem length_raw_bytes (raw : PSFRawEntry) : raw.bytes.length = 16 := by
  simp [PSFRawEntry.bytes]

/-- Fields that fit their width. -/
structure PSFRawEntry.Fits (raw : PSFRawEntry) : Prop where
  keyOffset : raw.keyOffset < 2 ^ 16
  paramFmt : raw.paramFmt < 2 ^ 16
  paramLen : raw.paramLen < 2 ^ 32
  paramMaxLen : raw.paramMaxLen < 2 ^ 32
  dataOffset : raw.dataOffset < 2 ^ 32

/-- A field is read from the bytes between the fields before and behind it. -/
theorem readField {bytes : List UInt8} {n width v : ℕ} (before behind : List UInt8)
    (hv : v < 256 ^ width)
    (h : bytes = before ++ leBytes width v ++ behind) (hn : before.length = n) :
    leNat ((bytes.drop n).take width) = v := by
  have hfield := take_drop_eq before behind h
  rw [hn, length_leBytes] at hfield
  rw [hfield, leNat_leBytes_of_lt hv]

theorem ofBytes_bytes_raw {raw : PSFRawEntry} (h : raw.Fits) :
    PSFRawEntry.ofBytes raw.bytes = raw := by
  obtain ⟨keyOffset, paramFmt, paramLen, paramMaxLen, dataOffset⟩ := raw
  obtain ⟨hkey, hfmt, hlen, hmax, hdata⟩ := h
  rw [PSFRawEntry.ofBytes, PSFRawEntry.bytes, PSFRawEntry.mk.injEq]
  refine ⟨?_, ?_, ?_, ?_, ?_⟩
  · exact readField (n := 0) []
      (leBytes 2 paramFmt ++ (leBytes 4 paramLen ++ (leBytes 4 paramMaxLen ++
      leBytes 4 dataOffset))) hkey (by simp) rfl
  · exact readField (leBytes 2 keyOffset)
      (leBytes 4 paramLen ++ (leBytes 4 paramMaxLen ++ leBytes 4 dataOffset)) hfmt
      (by simp) (by simp)
  · exact readField (leBytes 2 keyOffset ++ leBytes 2 paramFmt)
      (leBytes 4 paramMaxLen ++ leBytes 4 dataOffset) hlen
      (by simp) (by simp)
  · exact readField (leBytes 2 keyOffset ++ leBytes 2 paramFmt ++ leBytes 4 paramLen)
      (leBytes 4 dataOffset) hmax
      (by simp) (by simp)
  · exact readField (leBytes 2 keyOffset ++ leBytes 2 paramFmt ++ leBytes 4 paramLen ++
      leBytes 4 paramMaxLen) [] hdata
      (by simp) (by simp)

theorem ofBytes_bytes_header {header : PSFHeader} (hmagic : header.magic < 2 ^ 32)
    (hversion : header.version < 2 ^ 32)
    (hkey : header.keyTableOffset < 2 ^ 32) (hdata : header.dataTableOffset < 2 ^ 32)
    (hcount : header.indexTableEntries < 2 ^ 32) : PSFHeader.ofBytes header.bytes = header := by
  obtain ⟨magic, version, keyTable, dataTable, count⟩ := header
  rw [PSFHeader.ofBytes, PSFHeader.bytes, PSFHeader.mk.injEq]
  refine ⟨?_, ?_, ?_, ?_, ?_⟩
  · have hfirst :
      List.take 4 ((leBytes 4 magic).reverse ++ leBytes 4 version ++ leBytes 4 keyTable ++
        leBytes 4 dataTable ++ leBytes 4 count) = (leBytes 4 magic).reverse := by
      simp
    rw [hfirst, List.reverse_reverse]
    exact leNat_leBytes_of_lt hmagic
  · exact readField (leBytes 4 magic).reverse
      (leBytes 4 keyTable ++ (leBytes 4 dataTable ++ leBytes 4 count)) hversion
      (by simp) (by simp)
  · exact readField ((leBytes 4 magic).reverse ++ leBytes 4 version)
      (leBytes 4 dataTable ++ leBytes 4 count) hkey
      (by simp) (by simp)
  · exact readField ((leBytes 4 magic).reverse ++ leBytes 4 version ++ leBytes 4 keyTable)
      (leBytes 4 count) hdata
      (by simp) (by simp)
  · exact readField ((leBytes 4 magic).reverse ++ leBytes 4 version ++ leBytes 4 keyTable ++
      leBytes 4 dataTable) [] hcount
      (by simp) (by simp)

@[simp]
theorem ofRaw_raw (fmt : PSFEntryFmt) : PSFEntryFmt.ofRaw fmt.raw = some fmt := by
  cases fmt <;> rfl

theorem raw_lt (fmt : PSFEntryFmt) : fmt.raw < 2 ^ 16 := by
  cases fmt <;> decide

theorem readValue_eq {buffer : List UInt8} {raw : PSFRawEntry} {position : ℕ} (value : Value)
    (hslice : slice buffer position value.bytes.length = some value.bytes)
    (hlen : raw.paramLen = value.bytes.length)
    (hzero : ∀ text, value = .text text → 0 ∉ text) :
    PSF.readValue buffer raw value.fmt position = .ok value := by
  cases value with
  | binary bytes =>
    change (slice buffer position raw.paramLen).elim _ _ = _
    rw [hlen, hslice]
    rfl
  | text text =>
    change (cString buffer position).elim _ _ = _
    rw [Value.bytes, List.length_append] at hslice
    rw [cString_of_slice (hzero text rfl) hslice]
    rfl
  | integer number =>
    change (if raw.paramLen ≠ 4 then _ else (slice buffer position 4).elim _ _) = _
    rw [Value.bytes, length_leBytes] at hslice hlen
    rw [hlen, if_neg (by decide), hslice, Option.elim_some, leNat_leBytes_of_lt number.isLt,
      BitVec.ofNat_toNat, BitVec.setWidth_eq]

theorem known_le {key : List UInt8} {n : ℕ} (h : LinkedMap.get psfKnownMaxSizes key = some n) :
    n ≤ 1024 := by
  have hall : ∀ entry ∈ psfKnownMaxSizes, entry.2 ≤ 1024 := by decide
  exact hall _ (LinkedMap.mem_of_get h)

theorem maxLen_lt (key : List UInt8) (value : Value) : value.maxLen key < 2 ^ 32 := by
  have hmax : ∀ n, getMaxSize key n < 2 ^ 32 := by
    intro n
    rw [getMaxSize]
    cases hknown : LinkedMap.get psfKnownMaxSizes key with
    | none => exact Nat.mod_lt _ (by decide)
    | some known => exact (known_le hknown).trans_lt (by decide)
  cases value with
  | binary bytes => exact hmax _
  | text text => exact hmax _
  | integer number => exact (by decide : 4 < 2 ^ 32)

/-- What the bytes of an object have for each item: a raw entry, the key and the value. -/
structure Holds (buffer : List UInt8) (header : PSFHeader) (i : ℕ) (item : Item)
    (raw : PSFRawEntry) : Prop where
  read : PSF.readRaw buffer i = some raw
  key : slice buffer (header.keyTableOffset + raw.keyOffset) (item.1.length + 1) =
    some (item.1 ++ [0])
  fmt : raw.paramFmt = item.2.fmt.raw
  maxLen : raw.paramMaxLen = item.2.maxLen item.1
  len : raw.paramLen = item.2.bytes.length
  value : slice buffer (header.dataTableOffset + raw.dataOffset) item.2.bytes.length =
    some item.2.bytes
  aligned : (header.dataTableOffset + raw.dataOffset) % 4 = 0

/-- The raw entries after the first loop, with their entries. -/
def rawPairs (items : List Item) : List (PSFRawEntry × Entry) :=
  (PSF.writeKeys (ofItems items).entryList []).1.zip (ofItems items).entryList

theorem rawPairs_get {i : ℕ} {item : Item} (h : items[i]? = some item) : (rawPairs items)[i]? =
    some (⟨(keyBytes ((ofItems items).entryList.take i)).length % 2 ^ 16, item.2.fmt.raw, 0,
      item.2.maxLen item.1, 0⟩, Item.entry item) := by
  have hentry : (ofItems items).entryList[i]? = some (Item.entry item) := by
    change (items.map Item.entry)[i]? = _
    rw [List.getElem?_map, h, Option.map_some]
  have hraw := (writeKeys_spec (ofItems items).entryList []).2.2 i _ hentry
  rw [rawPairs, List.getElem?_zip_eq_some]
  exact ⟨hraw, hentry⟩

theorem payload_rawPairs {i : ℕ} {raw : PSFRawEntry} {entry : Entry}
    (h : (rawPairs items)[i]? = some (raw, entry)) :
    ∃ item, items[i]? = some item ∧ entry = Item.entry item ∧
      raw.paramMaxLen = item.2.maxLen item.1 ∧
      (ofItems items).payload entry i = .ok item.2.bytes := by
  obtain ⟨-, hentry⟩ := List.getElem?_zip_eq_some.mp h
  change (items.map Item.entry)[i]? = _ at hentry
  rw [List.getElem?_map, Option.map_eq_some_iff] at hentry
  obtain ⟨item, hitem, rfl⟩ := hentry
  rw [rawPairs_get hitem] at h
  cases h
  exact ⟨item, hitem, rfl, rfl, payload_ofItems hitem⟩

/-- The second loop of `encode`, over the key table. -/
def dataLoop (items : List Item) : Except Fault (List PSFRawEntry × List UInt8) :=
  (ofItems items).writeData (20 + 16 * items.length)
    (20 + 16 * items.length + (keyBytes (ofItems items).entryList).length) 0 (rawPairs items)
    (keyBytes (ofItems items).entryList)

def header (items : List Item) : PSFHeader where
  magic := psfMagic
  version := psfVersion11
  keyTableOffset := (20 + 16 * items.length) % 2 ^ 32
  dataTableOffset := (20 + 16 * items.length + (keyBytes (ofItems items).entryList).length) % 2 ^ 32
  indexTableEntries := items.length % 2 ^ 32

theorem encode_ofItems (items : List Item) :
    (ofItems items).encode = (dataLoop items).map fun result =>
    (header items).bytes ++ result.1.flatMap PSFRawEntry.bytes ++ result.2 := by
  have hlength : (ofItems items).entryList.length = items.length := List.length_map _
  have hkeys := (writeKeys_spec (ofItems items).entryList []).1
  rw [List.nil_append] at hkeys
  have hloop : (ofItems items).encode = match (ofItems items).writeData
    (ofItems items).keyTableOffset
      ((ofItems items).keyTableOffset + (PSF.writeKeys (ofItems items).entryList []).2.length) 0
        (rawPairs items)
      (PSF.writeKeys (ofItems items).entryList []).2 with
    | .error fault => .error fault
    | .ok (raws, bytes) =>
        .ok (PSFHeader.bytes ⟨psfMagic, psfVersion11, (ofItems items).keyTableOffset % 2 ^ 32,
        ((ofItems items).keyTableOffset + (PSF.writeKeys (ofItems items).entryList []).2.length) %
          2 ^ 32,
        (ofItems items).entryList.length % 2 ^ 32⟩ ++ raws.flatMap PSFRawEntry.bytes ++ bytes) :=
          rfl
  rw [hloop, PSF.keyTableOffset, hkeys, hlength, ← dataLoop]
  cases dataLoop items <;> rfl

/-- The limits of the format: offsets of keys have two bytes, those of data four. -/
structure Limits (items : List Item) (buffer : List UInt8) : Prop where
  size : buffer.length < 2 ^ 32
  keys : ∀ i < items.length, (keyBytes ((ofItems items).entryList.take i)).length < 2 ^ 16

theorem encode_holds {buffer : List UInt8} (h : (ofItems items).encode = .ok buffer)
    (hlimits : Limits items buffer) :
    (slice buffer 0 20).map PSFHeader.ofBytes = some (header items) ∧
      (header items).indexTableEntries = items.length ∧
      ∀ i item, items[i]? = some item → ∃ raw, Holds buffer (header items) i item raw := by
  rw [encode_ofItems] at h
  obtain ⟨⟨raws, out⟩, hloop, rfl⟩ := map_ok h
  dsimp only at hlimits ⊢
  have hspec := writeData_spec (p := ofItems items) le_rfl (fun i raw entry hi => by
    obtain ⟨item, -, -, -, hpayload⟩ := payload_rawPairs hi
    rw [Nat.zero_add]
    exact ⟨_, hpayload⟩) hloop
  obtain ⟨⟨data, hout⟩, hlength, hvalues⟩ := hspec
  have hpairs : (rawPairs items).length = items.length := by
    rw [rawPairs, List.length_zip, (writeKeys_spec _ _).2.1, Nat.min_self]
    exact List.length_map _
  have hraws : (raws.flatMap PSFRawEntry.bytes).length = 16 * items.length := by
    rw [List.length_flatMap]
    simp [hlength, hpairs, Nat.mul_comm]
  have hfront : ((header items).bytes ++ raws.flatMap PSFRawEntry.bytes).length =
    20 + 16 * items.length := by
    rw [List.length_append, length_header_bytes, hraws]
  have hkeysOut : (keyBytes (ofItems items).entryList).length ≤ out.length := by
    rw [hout, List.length_append]
    omega
  have hsize := hlimits.size
  rw [List.length_append, hfront] at hsize
  have hkeyTable : (header items).keyTableOffset = 20 + 16 * items.length :=
    Nat.mod_eq_of_lt (by omega)
  have hdataTable : (header items).dataTableOffset =
      20 + 16 * items.length + (keyBytes (ofItems items).entryList).length :=
        Nat.mod_eq_of_lt (by omega)
  have hcount : (header items).indexTableEntries = items.length := Nat.mod_eq_of_lt (by omega)
  refine ⟨?_, hcount, fun i item hitem => ?_⟩
  · have hheader := slice_append [] (header items).bytes (raws.flatMap PSFRawEntry.bytes ++ out)
    rw [List.nil_append, ← List.append_assoc, List.length_nil, length_header_bytes] at hheader
    rw [hheader, Option.map_some, ofBytes_bytes_header]
    · exact (by decide : psfMagic < 2 ^ 32)
    · exact (by decide : psfVersion11 < 2 ^ 32)
    · exact Nat.mod_lt _ (by decide)
    · exact Nat.mod_lt _ (by decide)
    · exact Nat.mod_lt _ (by decide)
  · obtain ⟨value, position, hpayload, hbehind, haligned, hraw, hslice⟩ :=
      hvalues i _ _ (rawPairs_get hitem)
    obtain rfl : item.2.bytes = value := by
      rw [Nat.zero_add, payload_ofItems hitem] at hpayload
      exact Except.ok.inj hpayload
    have hi := (List.getElem?_eq_some_iff.mp hitem).1
    have hend : position + item.2.bytes.length ≤ out.length := by
      obtain ⟨before, behind, rfl, rfl, -⟩ := slice_eq_some.mp hslice
      simp only [List.length_append]
      omega
    have hkeyOffset := Nat.mod_eq_of_lt (hlimits.keys i hi)
    have hlen : item.2.bytes.length % 2 ^ 32 = item.2.bytes.length := Nat.mod_eq_of_lt (by omega)
    have hdata : (20 + 16 * items.length + (keyBytes (ofItems items).entryList).length) +
        (20 + 16 * items.length + position -
          (20 + 16 * items.length + (keyBytes (ofItems items).entryList).length)) % 2 ^ 32 =
        20 + 16 * items.length + position := by
      rw [Nat.mod_eq_of_lt (by omega)]
      omega
    suffices hholds : ∀ raw, raws[i]? = some raw →
      Holds _ (header items) i item raw from ⟨_, hholds _ hraw⟩
    intro raw hraw'
    obtain rfl := Option.some.inj (hraw.symm.trans hraw')
    refine ⟨?_, ?_, rfl, rfl, hlen, ?_, ?_⟩
    · have hraw' :=
        slice_append_right
        (slice_append_left (slice_flatMap length_raw_bytes hraw) (header items).bytes) out
      rw [length_header_bytes] at hraw'
      rw [PSF.readRaw, hraw', Option.map_some, ofBytes_bytes_raw]
      exact ⟨Nat.mod_lt _ (by decide), raw_lt _, Nat.mod_lt _ (by decide), maxLen_lt _ _,
        Nat.mod_lt _ (by decide)⟩
    · have hentry : (ofItems items).entryList[i]? = some (Item.entry item) := by
        change (items.map Item.entry)[i]? = _
        rw [List.getElem?_map, hitem, Option.map_some]
      have hkey := slice_append_left (slice_append_right (slice_key hentry) data)
        ((header items).bytes ++ raws.flatMap PSFRawEntry.bytes)
      rw [← hout, hfront] at hkey
      rw [hkeyTable, hkeyOffset]
      exact hkey
    · have hvalue :=
        slice_append_left hslice ((header items).bytes ++ raws.flatMap PSFRawEntry.bytes)
      rw [hfront] at hvalue
      rw [hdataTable, hdata]
      exact hvalue
    · rw [hdataTable, hdata]
      exact haligned

theorem readEntries_eq {buffer : List UInt8} (hproper : Proper items)
    (hholds : ∀ i item, items[i]? = some item → ∃ raw, Holds buffer (header items) i item raw)
    (count i : ℕ)
    (h : i + count = items.length) :
    PSF.readEntries buffer (header items) i count (ofItems (items.take i)) =
      .ok (ofItems items) := by
  induction count generalizing i with
  | zero => rw [PSF.readEntries, List.take_of_length_le (by omega)]
  | succ count ih =>
    have hitem : items[i]? = some items[i] := List.getElem?_eq_getElem (by omega)
    have hmem : items[i] ∈ items := List.getElem_mem _
    obtain ⟨raw, hread, hkey, hfmt, hmaxLen, hlen, hvalue, -⟩ := hholds i _ hitem
    rw [PSF.readEntries]
    simp only [hread, cString_of_slice (hproper.keyZero _ hmem) hkey, hfmt, ofRaw_raw,
      readValue_eq items[i].2 hvalue hlen (hproper.textZero _ hmem), hmaxLen]
    rw [append_ofItems, ← ih (i + 1) (by omega), List.take_succ_eq_append_getElem (by omega)]

theorem openBuffer_encode {buffer : List UInt8} (hproper : Proper items)
    (h : (ofItems items).encode = .ok buffer)
    (hlimits : Limits items buffer) : PSF.openBuffer buffer = .ok (true, ofItems items) := by
  obtain ⟨hheader, hcount, hholds⟩ := encode_holds h hlimits
  have hentries := readEntries_eq hproper hholds items.length 0 (Nat.zero_add _)
  rw [List.take_zero, ofItems_nil] at hentries
  have hmagic : ¬(header items).magic ≠ psfMagic := not_not.mpr rfl
  have hversion : ¬((header items).version ≠ psfVersion11 ∧
    (header items).version ≠ psfVersion10) := fun h => h.1 rfl
  rw [PSF.openBuffer, hheader]
  simp only [if_neg hmagic, if_neg hversion, hcount, hentries]

end Opening

/-! ### Limits of values -/

section Limits

variable {items : List Item} {p : PSF}

/-- The bytes of the value at an index. -/
def PSF.data (p : PSF) (i : ℕ) : Option (List UInt8) := p.entryList[i]?.bind fun entry =>
    (p.payload entry i).toOption

def PSF.keyOffset (p : PSF) (i : ℕ) : ℕ := (keyBytes (p.entryList.take i)).length

/-- Where the data of an entry starts in the bytes. -/
def dataPosition (buffer : List UInt8) (i : ℕ) : Option ℕ :=
  ((slice buffer 0 20).map PSFHeader.ofBytes).bind fun header =>
    (PSF.readRaw buffer i).map fun raw => header.dataTableOffset + raw.dataOffset

theorem data_ofItems (i : ℕ) : (ofItems items).data i = items[i]?.map fun item => item.2.bytes := by
  change ((items.map Item.entry)[i]?.bind fun entry => ((ofItems items).payload entry i).toOption) =
    _
  rw [List.getElem?_map]
  cases hitem : items[i]? with
  | none => rfl
  | some item =>
    rw [Option.map_some, Option.bind_some, payload_ofItems hitem]
    rfl

/-- A value of less than 2^31 bytes fits if it is not longer than its maximum. -/
theorem pads_iff {key : List UInt8} {value : Value} {raw : PSFRawEntry}
    (hraw : raw.paramMaxLen = value.maxLen key)
    (hlt : value.bytes.length < 2 ^ 31) :
    Pads raw value.bytes ↔ value.bytes.length ≤ value.maxLen key := by
  have hmax : ∀ n, n < 2 ^ 31 → getMaxSize key n < 2 ^ 31 := by
    intro n hn
    rw [getMaxSize]
    cases hknown : LinkedMap.get psfKnownMaxSizes key with
    | none => exact (Nat.mod_le _ _).trans_lt hn
    | some known => exact (known_le hknown).trans_lt (by decide)
  have hmaxLen : value.maxLen key < 2 ^ 31 := by
    cases value with
    | binary bytes => exact hmax _ hlt
    | text text =>
      rw [Value.bytes, List.length_append] at hlt
      exact hmax _ hlt
    | integer number => exact (by decide : 4 < 2 ^ 31)
  rw [Pads, hraw, Nat.mod_eq_of_lt (by omega), PSF.toS32, PSF.toS32, if_pos hlt, if_pos hmaxLen]
  exact Int.ofNat_le

/-- Encoding ends at the assertion exactly if a value does not fit. -/
theorem encode_result (items : List Item) :
    ((∀ (i : ℕ) (raw : PSFRawEntry) (item : Item),
      (rawPairs items)[i]? = some (raw, Item.entry item) →
        items[i]? = some item → Pads raw item.2.bytes) ∧ ∃ buffer,
          (ofItems items).encode = .ok buffer) ∨
    ((∃ (i : ℕ) (raw : PSFRawEntry) (item : Item),
      (rawPairs items)[i]? = some (raw, Item.entry item) ∧
        items[i]? = some item ∧ ¬Pads raw item.2.bytes) ∧
          (ofItems items).encode = .error .assertion) := by
  have hpayload : ∀ i raw entry, (rawPairs items)[i]? = some (raw, entry) →
      ∃ value, (ofItems items).payload entry (0 + i) = .ok value := by
    intro i raw entry hi
    obtain ⟨item, -, -, -, hvalue⟩ := payload_rawPairs hi
    rw [Nat.zero_add]
    exact ⟨_, hvalue⟩
  have hresult := @writeData_result (ofItems items) (20 + 16 * items.length)
    (20 + 16 * items.length + (keyBytes (ofItems items).entryList).length) 0 (rawPairs items)
    (keyBytes (ofItems items).entryList) hpayload
  rw [← dataLoop] at hresult
  rw [encode_ofItems]
  rcases hresult with ⟨hall, result, hok⟩ | ⟨⟨i, raw, entry, value, hi, hvalue, hnot⟩, herror⟩
  · refine .inl ⟨fun i raw item hi hitem => hall i raw _ _ hi ?_, _, by rw [hok]; rfl⟩
    rw [Nat.zero_add, payload_ofItems hitem]
  · obtain ⟨item, hitem, rfl, -, hvalue'⟩ := payload_rawPairs hi
    rw [Nat.zero_add, hvalue'] at hvalue
    cases hvalue
    exact .inr ⟨⟨i, raw, item, hi, hitem, hnot⟩, by rw [herror]; rfl⟩

theorem encode_eq_error_iff (hlt : ∀ i bytes, (ofItems items).data i = some bytes →
    bytes.length < 2 ^ 31) :
    (ofItems items).encode = .error .assertion ↔ ∃ (i : ℕ) (item : Item), items[i]? = some item ∧
      item.2.maxLen item.1 < item.2.bytes.length := by
  have hlength : ∀ (i : ℕ) (item : Item), items[i]? = some item → item.2.bytes.length < 2 ^ 31 := by
    intro i item hitem
    refine hlt i _ ?_
    rw [data_ofItems, hitem, Option.map_some]
  rcases encode_result items with ⟨hall, buffer, hok⟩ | ⟨⟨i, raw, item, hi, hitem, hnot⟩, herror⟩
  · rw [hok]
    refine ⟨nofun, ?_⟩
    rintro ⟨i, item, hitem, hover⟩
    have hpads := hall i _ item (rawPairs_get hitem) hitem
    rw [pads_iff rfl (hlength i item hitem)] at hpads
    exact absurd hover (Nat.not_lt.mpr hpads)
  · refine ⟨fun _ => ⟨i, item, hitem, ?_⟩, fun _ => herror⟩
    rw [rawPairs_get hitem] at hi
    cases hi
    rw [pads_iff rfl (hlength i item hitem)] at hnot
    exact Nat.lt_of_not_le hnot

/-- An object that calls build up is opened from its bytes as it is, within the widths of the
offsets; encoding it ends at an assertion exactly if a value is longer than the maximum of its
key. -/
theorem psf_roundTrip (calls : List Call) (p : PSF) (hnul : ∀ call ∈ calls, call.NulFree)
    (hrun : run {} calls = .ok p) :
    (p.encode = .error .assertion ∨ ∃ buffer, p.encode = .ok buffer) ∧
    ((∀ i bytes, p.data i = some bytes → bytes.length < 2 ^ 31) →
      (p.encode = .error .assertion ↔ ∃ i entry bytes, p.entryList[i]? = some entry ∧
        p.data i = some bytes ∧ entry.maxLen < bytes.length)) ∧
    ∀ buffer, p.encode = .ok buffer → buffer.length < 2 ^ 32 →
      (∀ i < p.entryList.length, p.keyOffset i < 2 ^ 16) → PSF.openBuffer buffer = .ok (true, p) ∧
      ∀ i bytes, p.data i = some bytes → ∃ position, dataPosition buffer i = some position ∧
        position % 4 = 0 ∧ slice buffer position bytes.length = some bytes := by
  rw [← ofItems_nil] at hrun
  have hempty : Proper [] := ⟨List.nodup_nil, nofun, nofun⟩
  obtain ⟨items, rfl, hproper⟩ := run_ofItems hempty hnul hrun
  refine ⟨?_, fun hlt => ?_, fun buffer hencode hsize hkeys => ?_⟩
  · rcases encode_result items with ⟨-, hok⟩ | ⟨-, herror⟩
    · exact .inr hok
    · exact .inl herror
  · rw [encode_eq_error_iff hlt]
    constructor
    · rintro ⟨i, item, hitem, hover⟩
      refine ⟨i, Item.entry item, item.2.bytes, ?_, ?_, hover⟩
      · change (items.map Item.entry)[i]? = _
        rw [List.getElem?_map, hitem, Option.map_some]
      · rw [data_ofItems, hitem, Option.map_some]
    · rintro ⟨i, entry, bytes, hentry, hbytes, hover⟩
      rw [data_ofItems, Option.map_eq_some_iff] at hbytes
      obtain ⟨item, hitem, rfl⟩ := hbytes
      change (items.map Item.entry)[i]? = _ at hentry
      rw [List.getElem?_map, hitem, Option.map_some] at hentry
      cases hentry
      exact ⟨i, item, hitem, hover⟩
  · have hlimits : Limits items buffer := by
      refine ⟨hsize, fun i hi => hkeys i ?_⟩
      rwa [ofItems, List.length_map]
    refine ⟨openBuffer_encode hproper hencode hlimits, fun i bytes hbytes => ?_⟩
    obtain ⟨hheader, -, hholds⟩ := encode_holds hencode hlimits
    rw [data_ofItems, Option.map_eq_some_iff] at hbytes
    obtain ⟨item, hitem, rfl⟩ := hbytes
    obtain ⟨raw, hraw⟩ := hholds i item hitem
    refine ⟨_, ?_, hraw.aligned, hraw.value⟩
    rw [dataPosition, hheader, Option.bind_some, hraw.read, Option.map_some]

/-- Four calls, of which the last one changes a text. -/
theorem psf_roundTrip_four :
    let calls : List Call :=
  [.addString [84] [97, 98] false, .addInteger [73] 5 false, .addBinary [66] [1, 0, 3] false,
      .addString [84] [97, 98, 99, 100] true]
    ∃ p buffer, run {} calls = .ok p ∧ p.encode = .ok buffer ∧
      PSF.openBuffer buffer = .ok (true, p) := by
  intro calls
  obtain ⟨p, hp⟩ : ∃ p, run {} calls = .ok p := ⟨_, rfl⟩
  have hkeys : ∀ i < p.entryList.length, p.keyOffset i < 2 ^ 16 := by
    cases hp
    decide +kernel
  obtain ⟨buffer, hbuffer, hsize⟩ : ∃ buffer, p.encode = .ok buffer ∧ buffer.length < 2 ^ 32 := by
    cases hp
    exact ⟨_, rfl, by decide +kernel⟩
  exact ⟨p, buffer, hp, hbuffer,
    ((psf_roundTrip calls p (by decide) hp).2.2 buffer hbuffer hsize hkeys).1⟩

/-- A title id of twelve characters leaves no place for its terminator. -/
theorem titleId_assertion :
    ∃ p, run {} [.addString (chars "TITLE_ID") (List.replicate 12 65) false] = .ok p ∧
      p.encode = .error .assertion := by
  refine ⟨_, rfl, ?_⟩
  rfl

end Limits

end PS4Droid.FileFormat
