import PS4Droid.FileFormat.PsfRoundTrip

/-!
# Parameter files as dictionaries

After any calls the three lookups answer as a dictionary does in which a key keeps the format that
it was added with.
-/

namespace PS4Droid.FileFormat

/-- The values of the keys. -/
abbrev Dictionary := List UInt8 → Option Value

namespace Dictionary

/-- A value is there to stay unless it is updated by one of its format. -/
def add (m : Dictionary) (key : List UInt8) (value : Value) (update : Bool) :
    Except Fault Dictionary :=
  match m key with
  | none => .ok (Function.update m key (some value))
  | some old =>
    if ¬update then .ok m
    else if old.fmt ≠ value.fmt then .error .assertion
    else .ok (Function.update m key (some value))

def apply (m : Dictionary) : Call → Except Fault Dictionary
  | .addBinary key value update => m.add key (.binary value) update
  | .addBinary64 key value update => m.add key (.binary (ByteStrings.leBytes 8 value.toNat)) update
  | .addString key value update => m.add key (.text value) update
  | .addInteger key value update => m.add key (.integer value) update

def run (m : Dictionary) : List Call → Except Fault Dictionary
  | [] => .ok m
  | call :: rest =>
    match m.apply call with
    | .error fault => .error fault
    | .ok m => run m rest

/-- A value of another format than the one that is asked for is an assertion. -/
def get {α : Type} (m : Dictionary) (key : List UInt8) (select : Value → Option α) :
    Except Fault (Option α) :=
  match m key with
  | none => .ok none
  | some value => (select value).elim (.error .assertion) fun value => .ok (some value)

end Dictionary

section Lookups

variable {items : List Item} {key : List UInt8}

theorem lookup_ofItems {α : Type} {fmt : PSFEntryFmt} (select : Value → Option α)
    (hselect : ∀ value, (select value).isSome = decide (value.fmt = fmt)) :
    (ofItems items).lookup key fmt (fun i => items[i]?.bind fun item => select item.2) =
      Dictionary.get (LinkedMap.get items) key select := by
  rw [PSF.lookup, entry_ofItems, findEntry_ofItems, LinkedMap.getElem?_findIdx, Dictionary.get]
  cases LinkedMap.get items key with
  | none => rfl
  | some value =>
    have hsome := hselect value
    cases hvalue : select value with
    | none =>
      rw [hvalue] at hsome
      simp only [Option.map_some, hvalue]
      exact if_pos (of_decide_eq_false hsome.symm)
    | some content =>
      rw [hvalue] at hsome
      simp only [Option.map_some, Option.bind_some, hvalue]
      exact if_neg (not_not.mpr (of_decide_eq_true hsome.symm))

/-- The items after a call are those of the dictionary after it. -/
theorem apply_ofItems (call : Call) :
    (∃ fault, call.apply (ofItems items) = .error fault ∧
      Dictionary.apply (LinkedMap.get items) call = .error fault) ∨
    ∃ items', call.apply (ofItems items) = .ok (ofItems items') ∧
      Dictionary.apply (LinkedMap.get items) call = .ok (LinkedMap.get items') := by
  have hadd (key : List UInt8) (value : Value) (update : Bool) :
      (∃ fault, (ofItems items).add key value update = .error fault ∧
        Dictionary.add (LinkedMap.get items) key value update = .error fault) ∨
      ∃ items', (ofItems items).add key value update = .ok (ofItems items') ∧
        Dictionary.add (LinkedMap.get items) key value update = .ok (LinkedMap.get items') := by
    rw [add_ofItems_eq, Dictionary.add]
    cases hget : LinkedMap.get items key with
    | none => exact .inr ⟨_, rfl, congrArg Except.ok (LinkedMap.get_concat hget value).symm⟩
    | some old =>
      dsimp only
      split_ifs
      · exact .inl ⟨_, rfl, rfl⟩
      · exact .inr ⟨_, rfl, congrArg Except.ok (LinkedMap.get_set hget value).symm⟩
      · exact .inr ⟨_, rfl, rfl⟩
  cases call with
  | addBinary key value update | addBinary64 key value update | addString key value update
  | addInteger key value update =>
    exact hadd key _ update

theorem run_ofItems_eq (calls : List Call) :
    (∃ fault, run (ofItems items) calls = .error fault ∧
      Dictionary.run (LinkedMap.get items) calls = .error fault) ∨
    ∃ items', run (ofItems items) calls = .ok (ofItems items') ∧
      Dictionary.run (LinkedMap.get items) calls = .ok (LinkedMap.get items') := by
  induction calls generalizing items with
  | nil => exact .inr ⟨items, rfl, rfl⟩
  | cons call rest ih =>
    rw [run, Dictionary.run]
    obtain ⟨fault, hp, hm⟩ | ⟨items', hp, hm⟩ := @apply_ofItems items call
    · rw [hp, hm]
      exact .inl ⟨fault, rfl, rfl⟩
    · rw [hp, hm]
      exact ih

end Lookups

/-- After any calls the lookups are those of the dictionary of the calls, which fails where the
calls do. -/
theorem lookups_after_run (calls : List Call) :
    (∀ fault, run {} calls = .error fault ↔ Dictionary.run (fun _ => none) calls = .error fault) ∧
    ∀ p, run {} calls = .ok p → ∃ m, Dictionary.run (fun _ => none) calls = .ok m ∧ ∀ key,
      p.getBinary key = m.get key Value.binary? ∧ p.getString key = m.get key Value.text? ∧
        p.getInteger key = m.get key Value.integer? := by
  obtain ⟨fault, hp, hm⟩ | ⟨items, hp, hm⟩ := @run_ofItems_eq [] calls
  · rw [← ofItems_nil, hp]
    refine ⟨fun other => ?_, nofun⟩
    rw [show Dictionary.run (fun _ => none) calls = .error fault from hm]
    simp only [Except.error.injEq]
  · rw [← ofItems_nil, hp]
    refine ⟨fun fault => ?_, ?_⟩
    · rw [show Dictionary.run (fun _ => none) calls = .ok (LinkedMap.get items) from hm]
      exact ⟨nofun, nofun⟩
    · rintro _ ⟨⟩
      refine ⟨_, hm, fun key => ⟨lookup_ofItems _ ?_, lookup_ofItems _ ?_, lookup_ofItems _ ?_⟩⟩
      all_goals rintro ⟨⟩ <;> rfl

end PS4Droid.FileFormat
