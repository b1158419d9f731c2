import PS4Droid.Input.SnapshotGrammar

/-!
# The loop over a controller line

`ParseControllerSnapshot` with the loop that cuts the line at its spaces, its table of fields and
its count. It does what the parser of the tokens does, so it takes exactly the lines of the grammar.
-/

namespace PS4Droid.Input

/-- The place of a field in the table `seen`. -/
def Field.index : Field → ℕ
  | .slot => 0
  | .seq => 1
  | .buttons => 2
  | .lx => 3
  | .ly => 4
  | .rx => 5
  | .ry => 6
  | .l2 => 7
  | .r2 => 8
  | .touch => 9
  | .tx => 10
  | .ty => 11

/-- What the loop has from the tokens before. -/
structure Scan where
  result : ControllerSnapshot := {}
  seen : ℕ → Bool := fun _ => false
  count : ℕ := 0

namespace Scan

/-- The part of the loop after the token is cut off. -/
def takeToken (scan : Scan) (token : Bytes) : Option Scan :=
  let equals := token.idxOf '='
  if equals = token.length ∨ equals = 0 ∨ equals + 1 = token.length then none
  else
    let key := token.take equals
    let value := token.drop (equals + 1)
    match Field.ofKey key with
    | none => none
    | some field =>
      match setField scan.result value field with
      | none => none
      | some result =>
        if scan.seen field.index then none
        else some ⟨result, Function.update scan.seen field.index true, scan.count + 1⟩

/-- `while (!line.empty())`. -/
def run (scan : Scan) (line : Bytes) : Option Scan :=
  if _hempty : line = [] then some scan
  else
    let separator := line.idxOf ' '
    let token := line.take separator
    let rest := if separator < line.length then line.drop (separator + 1) else []
    if token = [] ∨ separator < line.length ∧ rest = [] then none
    else (scan.takeToken token).bind fun scan => run scan rest
  termination_by line.length
  decreasing_by
    have hpos := List.length_pos_iff.mpr _hempty
    split <;> simp only [List.length_drop, List.length_nil] <;> omega

/-- The test behind the loop. -/
def complete (scan : Scan) : Bool := scan.count = 12 ∨ scan.count = 11 ∧ scan.seen 0 = false

end Scan

def scanControllerSnapshot (line : Bytes) : Option ControllerSnapshot :=
  if framePrefix <+: line ∧ line.getLast? = some '\n' then
    match ({} : Scan).run (line.drop framePrefix.length).dropLast with
    | none => none
    | some scan => if scan.complete then some scan.result else none
  else none

/-! ### The loop and the tokens -/

/-- The table and the count are those of a list of fields. -/
structure Scan.Matches (scan : Scan) (parsed : ControllerSnapshot × List Field) : Prop where
  result : scan.result = parsed.1
  seen : ∀ field : Field, scan.seen field.index = decide (field ∈ parsed.2)
  count : scan.count = parsed.2.length

section Loop

variable {scan : Scan} {result : ControllerSnapshot} {seen : List Field}

theorem Field.index_injective : Function.Injective Field.index := by
  intro field other h
  cases field <;> cases other <;> first | rfl | cases h

theorem cut_idxOf {before : Bytes} {c : Char} (h : c ∉ before) (after : Bytes) :
    (before ++ c :: after).idxOf c = before.length ∧
      (before ++ c :: after).take before.length = before ∧
      (before ++ c :: after).drop (before.length + 1) = after := by
  refine ⟨?_, List.take_left, ?_⟩
  · rw [List.idxOf_append_of_notMem h, List.idxOf_cons_self, Nat.add_zero]
  · rw [← List.drop_drop, List.drop_left, List.drop_one, List.tail_cons]

theorem splitToken_eq (token : Bytes) : splitToken token =
      if token.idxOf '=' = token.length ∨ token.idxOf '=' = 0 ∨
        token.idxOf '=' + 1 = token.length then none
      else some (token.take (token.idxOf '='), token.drop (token.idxOf '=' + 1)) := by
  by_cases hmem : '=' ∈ token
  · obtain ⟨key, value, rfl, hkey⟩ := List.eq_append_cons_of_mem hmem
    obtain ⟨hindex, htake, hdrop⟩ := cut_idxOf hkey value
    have hkeyNil : key = [] ↔ key.length = 0 := List.length_eq_zero_iff.symm
    have hvalueNil : value = [] ↔ value.length = 0 := List.length_eq_zero_iff.symm
    rw [splitToken_cut hkey, hindex, htake, hdrop, List.length_append, List.length_cons]
    refine if_congr ?_ rfl rfl
    rw [hkeyNil, hvalueNil]
    omega
  · rw [splitToken_whole hmem, if_pos (.inl (List.idxOf_eq_length_iff.mpr hmem))]

theorem parseTokens_cons (result : ControllerSnapshot) (seen : List Field) (token : Bytes)
    (rest : List Bytes) :
    parseTokens result seen (token :: rest) =
      (parseTokens result seen [token]).bind fun parsed => parseTokens parsed.1 parsed.2 rest := by
  rw [parseTokens, parseTokens]
  cases splitToken token with
  | none => rfl
  | some pair =>
    dsimp only
    cases Field.ofKey pair.1 with
    | none => rfl
    | some field =>
      dsimp only
      cases setField result pair.2 field with
      | none => rfl
      | some next =>
        dsimp only
        split_ifs <;> rfl

theorem takeToken_rel (h : scan.Matches (result, seen)) (token : Bytes) :
    Option.Rel Scan.Matches (scan.takeToken token) (parseTokens result seen [token]) := by
  rw [parseTokens, splitToken_eq, Scan.takeToken]
  dsimp only
  split_ifs with hsplit
  · exact .none
  · dsimp only
    cases Field.ofKey (token.take (token.idxOf '=')) with
    | none => exact .none
    | some field =>
      dsimp only
      rw [h.result]
      cases setField result (token.drop (token.idxOf '=' + 1)) field with
      | none => exact .none
      | some next =>
        dsimp only
        rw [h.seen field]
        by_cases hseen : field ∈ seen
        · rw [if_pos (decide_eq_true hseen), if_pos hseen]
          exact .none
        · rw [if_neg (by simpa using hseen), if_neg hseen]
          refine .some ⟨rfl, fun other => ?_, ?_⟩
          · dsimp only
            by_cases heq : other = field
            · rw [heq, Function.update_self, decide_eq_true List.mem_cons_self]
            · rw [Function.update_of_ne (Field.index_injective.ne heq), h.seen other]
              exact decide_eq_decide.mpr (by simp [heq])
          · exact congrArg (· + 1) h.count

theorem parseTokens_nil_token (result : ControllerSnapshot) (seen : List Field)
    (rest : List Bytes) :
    parseTokens result seen ([] :: rest) = none := rfl

/-- A related start of the loop and of the tokens goes on with related ends. -/
theorem bind_rel {first : Option Scan} {parsed : Option (ControllerSnapshot × List Field)}
    {next : Scan → Option Scan}
    {parse : ControllerSnapshot × List Field → Option (ControllerSnapshot × List Field)}
    (hfirst : Option.Rel Scan.Matches first parsed)
    (hnext : ∀ scan parsed, Scan.Matches scan parsed →
      Option.Rel Scan.Matches (next scan) (parse parsed)) :
    Option.Rel Scan.Matches (first.bind next) (parsed.bind parse) := by
  cases hfirst with
  | none => exact .none
  | some hmatch => exact hnext _ _ hmatch

theorem run_rel (line : Bytes) (h : scan.Matches (result, seen)) :
    Option.Rel Scan.Matches (scan.run line) (parseTokens result seen (tokensOf line)) := by
  induction hlength :
    line.length using Nat.strong_induction_on generalizing line scan result seen with
  | _ n ih =>
    rw [Scan.run]
    by_cases hempty : line = []
    · rw [dif_pos hempty, tokensOf, if_pos hempty]
      exact .some h
    · rw [dif_neg hempty]
      dsimp only
      by_cases hspace : ' ' ∈ line
      · -- The line goes on behind the token.
        obtain ⟨token, rest, rfl, htoken⟩ := List.eq_append_cons_of_mem hspace
        obtain ⟨hindex, htake, hdrop⟩ := cut_idxOf htoken rest
        have hbefore : token.length < (token ++ ' ' :: rest).length := by
          rw [List.length_append, List.length_cons]
          omega
        rw [hindex, htake, if_pos hbefore, hdrop, tokensOf, if_neg hempty,
          List.splitOn_append_cons_self_of_not_mem htoken]
        by_cases hstop : token = [] ∨ token.length < (token ++ ' ' :: rest).length ∧ rest = []
        · rw [if_pos hstop]
          rcases hstop with rfl | ⟨-, rfl⟩
          · rw [parseTokens_nil_token]
            exact .none
          · rw [parseTokens_cons, List.splitOn_nil]
            cases parseTokens result seen [token] <;> exact .none
        · rw [if_neg hstop]
          have hrest : tokensOf rest = rest.splitOn ' ' :=
            if_neg fun heq => hstop (.inr ⟨hbefore, heq⟩)
          rw [parseTokens_cons, ← hrest]
          refine bind_rel (takeToken_rel h token) fun next parsed hnext => ?_
          refine ih rest.length ?_ rest hnext rfl
          rw [← hlength, List.length_append, List.length_cons]
          omega
      · -- The last token.
        have hindex : line.idxOf ' ' = line.length := List.idxOf_eq_length_iff.mpr hspace
        rw [hindex, List.take_length, if_neg (lt_irrefl _), if_neg (by simp [hempty]), tokensOf,
          if_neg hempty, List.splitOn_eq_singleton hspace, parseTokens_cons]
        refine bind_rel (takeToken_rel h line) fun next parsed hnext => ?_
        rw [Scan.run, dif_pos rfl]
        exact .some hnext

theorem Scan.Matches.complete_eq {parsed : ControllerSnapshot × List Field}
    (h : scan.Matches parsed) :
    scan.complete = PS4Droid.Input.complete parsed.2 := by
  have hslot := h.seen .slot
  rw [Field.index] at hslot
  unfold Scan.complete PS4Droid.Input.complete
  simp only [h.count, hslot, decide_eq_false_iff_not]

theorem scanControllerSnapshot_eq (line : Bytes) :
    scanControllerSnapshot line = parseControllerSnapshot line := by
  have hstart : ({} : Scan).Matches ({}, []) :=
    ⟨rfl, fun field => (decide_eq_false List.not_mem_nil).symm, rfl⟩
  unfold scanControllerSnapshot parseControllerSnapshot
  by_cases hframed : framePrefix <+: line ∧ line.getLast? = some '\n'
  · rw [if_pos hframed, if_pos hframed]
    dsimp only
    have hrel := run_rel (line.drop framePrefix.length).dropLast hstart
    unfold tokensOf at hrel
    generalize ({} : Scan).run (line.drop framePrefix.length).dropLast = scanned at hrel ⊢
    generalize parseTokens {} [] _ = parsed at hrel ⊢
    cases hrel with
    | none => rfl
    | some hmatch =>
      dsimp only
      rw [hmatch.complete_eq, hmatch.result, Option.bind_some]
  · rw [if_neg hframed, if_neg hframed]

end Loop

/-! ### The lines that are taken -/

/-- The order of the tokens does not matter to an accepted line. -/
theorem describes_perm {tokens tokens' : List Bytes} {entries : List Entry}
    {snapshot : ControllerSnapshot}
    (hperm : tokens.Perm tokens') (hspace : ∀ token ∈ tokens, ' ' ∉ token)
    (h : Describes entries (lineOf tokens) snapshot) :
    ∃ entries', Describes entries' (lineOf tokens') snapshot := by
  by_cases hempty : tokens = [[]]
  · rw [hempty] at hperm h
    rw [List.perm_singleton.mp hperm.symm]
    exact ⟨entries, h⟩
  · have htokens : tokens = entries.map Entry.token := by
      have hbody := List.append_cancel_left (List.append_cancel_right h.line_eq)
      rw [← tokensOf_intercalate hspace hempty, hbody, tokensOf_entries]
    have hcopies :
      List.Forall₂ (fun token (entry : Entry) => token = entry.token) tokens entries := by
      rw [htokens, List.forall₂_map_left_iff]
      exact List.forall₂_same.mpr fun _ _ => rfl
    obtain ⟨entries', hcopies', hperm'⟩ := List.perm_comp_forall₂ hperm.symm hcopies
    have htokens' : tokens' = entries'.map Entry.token := by
      rw [← List.forall₂_eq_eq_eq, List.forall₂_map_right_iff]
      exact hcopies'
    have hfields := hperm'.map Entry.field
    refine ⟨entries', by rw [htokens'], hfields.nodup_iff.mpr h.nodup, fun field hfield => ?_,
      fun entry hentry => ?_, fun hslot => ?_⟩
    · exact hfields.mem_iff.mpr (h.present field hfield)
    · exact h.values entry (hperm'.mem_iff.mp hentry)
    · exact h.slot fun hmem => hslot (hfields.mem_iff.mpr hmem)

/-- A line is taken exactly if it is one of the grammar, with the values that it gives, and in any
order of its tokens. -/
theorem snapshot_lines :
    (∀ line snapshot, scanControllerSnapshot line = some snapshot ↔ ∃ entries,
      Describes entries line snapshot) ∧
      ∀ tokens tokens' : List Bytes, tokens.Perm tokens' → (∀ token ∈ tokens, ' ' ∉ token) →
        scanControllerSnapshot (lineOf tokens) = scanControllerSnapshot (lineOf tokens') := by
  have hgrammar : ∀ line snapshot,
      scanControllerSnapshot line = some snapshot ↔ ∃ entries, Describes entries line snapshot := by
    intro line snapshot
    rw [scanControllerSnapshot_eq, parseControllerSnapshot_eq_some]
  refine ⟨hgrammar, fun tokens tokens' hperm hspace => ?_⟩
  have hspace' : ∀ token ∈ tokens', ' ' ∉ token :=
    fun token htoken => hspace token (hperm.mem_iff.mpr htoken)
  refine Option.ext fun snapshot => ?_
  rw [hgrammar, hgrammar]
  constructor
  · rintro ⟨entries, h⟩
    exact describes_perm hperm hspace h
  · rintro ⟨entries, h⟩
    exact describes_perm hperm.symm hspace' h

/-- The tokens of a line with no slot. -/
def sampleTokens : List Bytes :=
  [['s', 'e', 'q', '=', '4', '2'],
    ['b', 'u', 't', 't', 'o', 'n', 's', '=', '0', 'x', '4', '0', '1'],
    ['l', 'x', '=', '0'],
    ['l', 'y', '=', '1', '2', '8'],
    ['r', 'x', '=', '2', '5', '5'],
    ['r', 'y', '=', '6', '4'],
    ['l', '2', '=', '1', '2'],
    ['r', '2', '=', '2', '4', '0'],
    ['t', 'o', 'u', 'c', 'h', '=', '1'],
    ['t', 'x', '=', '1', '9', '1', '9'],
    ['t', 'y', '=', '1', '0', '7', '9']]

theorem snapshot_lines_reversed :
    scanControllerSnapshot (lineOf sampleTokens) = some ⟨0, 42, 0x401, 0, 128, 255, 64, 12, 240,
      true, 1919, 1079⟩ ∧ scanControllerSnapshot (lineOf sampleTokens.reverse) =
        some ⟨0, 42, 0x401, 0, 128, 255, 64, 12, 240, true, 1919, 1079⟩ := by
  have hvalue : scanControllerSnapshot (lineOf sampleTokens) =
      some ⟨0, 42, 0x401, 0, 128, 255, 64, 12, 240, true, 1919, 1079⟩ := by
    rw [scanControllerSnapshot_eq]
    decide +kernel
  refine ⟨hvalue, ?_⟩
  rw [← hvalue]
  exact (snapshot_lines.2 sampleTokens _ sampleTokens.reverse_perm.symm (by decide)).symm

end PS4Droid.Input
