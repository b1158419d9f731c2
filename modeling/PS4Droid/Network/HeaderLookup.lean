import PS4Droid.Network.HeaderFields

/-!
# Enumerating the fields of a response header

One call finds the first line with the name, and its count is the end of that line. So the calls
behind each other find the lines with the name one by one; whatever the header holds, a call stays
inside it.
-/

namespace PS4Droid.Network.Http

open ByteStrings PathSegments

variable {field bytes rest spaces : List UInt8} {c : UInt8} {left cur : ℕ}

/-! ### One call -/

section Call

variable {header : List UInt8} {line : HeaderLine} {lines skipped : List HeaderLine}

theorem folded_append (h : Folded (spaces ++ rest)) : Folded rest := by
  induction spaces with
  | nil => exact h
  | cons c spaces ih => exact ih h.2

theorem HeaderLine.value_eq (htext : line.text = spaces ++ c :: rest)
    (hspaces : ∀ s ∈ spaces, isAsciiSpace s = true)
    (hc : isAsciiSpace c = false) : line.value = c :: rest := by
  rw [HeaderLine.value, htext, List.dropWhile_append_of_pos hspaces,
    List.dropWhile_cons_of_neg (Bool.eq_false_iff.mp hc)]

theorem head_bytesOf (hblock : Block lines) :
    ¬((bytesOf lines).head? = some 32 ∨ (bytesOf lines).head? = some 9) := by
  cases hblock with
  | nil => exact fun h => h.elim nofun nofun
  | @cons line lines hwell _ _ =>
    have hnext : ∀ d, isAsciiSpace d = true → d ≠ 58 →
      (bytesOf (line :: lines)).head? ≠ some d := by
      intro d hd hcolon hhead
      rw [bytesOf_cons, HeaderLine.bytes] at hhead
      cases hname : line.name with
      | nil =>
        rw [hname] at hhead
        exact hcolon (Option.some.inj hhead).symm
      | cons c name =>
        rw [hname] at hhead
        have hspace := hwell.noSpace d (hname ▸ hhead)
        exact Bool.false_ne_true (hspace.symm.trans hd)
    exact fun h => h.elim (hnext 32 (by decide) (by decide)) (hnext 9 (by decide) (by decide))

theorem Block.tail (hblock : Block (skipped ++ line :: lines)) :
    line.WellFormed ∧ (line.ending = [] → lines = []) ∧ Block lines := by
  induction skipped with
  | nil =>
    cases hblock with
    | cons hwell hterminated hrest => exact ⟨hwell, hterminated, hrest⟩
  | cons other skipped ih =>
    cases hblock with
    | cons _ _ hrest => exact ih hrest

/-- What a call returns for a value in front of what is no continuation line. -/
theorem parseField_value {before value ending : List UInt8}
    (hheader : header = before ++ spaces ++ value ++ (ending ++ rest))
    (hfind : findField field header.length header true 0 = some (some before.length))
    (hspaces : ∀ s ∈ spaces, isAsciiSpace s = true) (hnewline : newline ∉ spaces)
    (hvalue : ∃ c, value.head? = some c ∧ isAsciiSpace c = false) (hfolded : Folded value)
    (hends : Ends value ending rest) :
    parseField header header.length field = some {
      result := (BitVec.ofNat 32 (before ++ spaces ++ value ++ ending).length).toInt
      fieldValue := some (some (before ++ spaces).length)
      valueLen := some value.length } := by
  have hpos : 0 < value.length := List.length_pos_iff.mpr hends.nonempty
  have hsum : (before ++ spaces ++ value).length = (before ++ spaces).length + value.length :=
    List.length_append
  have hlonger : (before ++ spaces).length < (before ++ spaces ++ value).length := by omega
  have hinside : (before ++ spaces ++ value).length ≤ header.length := by
    rw [hheader]
    exact (List.prefix_append _ _).length_le
  have hskip : skipSpaces (header.length - before.length)
    (header.drop before.length) before.length = some (before ++ spaces).length := by
    obtain ⟨c, hhead, hc⟩ := hvalue
    obtain ⟨rest', rfl⟩ := List.head?_eq_some_iff.mp hhead
    have hdrop : header.drop before.length = spaces ++ c :: (rest' ++ (ending ++ rest)) := by
      rw [hheader]
      simp only [List.append_assoc, List.drop_left, List.cons_append]
    have hleft : spaces.length < header.length - before.length := by
      have hspacesEnd : (before ++ spaces).length = before.length + spaces.length :=
        List.length_append
      omega
    rw [hdrop, skipSpaces_eq hspaces hnewline hc hleft, List.length_append]
  have hfuel : value.length < header.length + 1 := by omega
  have hscan := scanValue_eq hfolded hends hheader hlonger hfuel
  have hfinal : (before ++ spaces ++ value).length - (before ++ spaces).length = value.length := by
    omega
  rw [parseField, hfind]
  simp only
  rw [hskip]
  simp only [if_pos (Nat.lt_of_lt_of_le hlonger hinside)]
  rw [hscan, Option.map_some, foundValue]
  simp only [if_pos hlonger, hfinal, if_neg hpos.ne']

/-- The first line with the name is found, and the count is the end of that line. -/
theorem parseField_named (hblock : Block (skipped ++ line :: lines)) (hfield : 58 ∉ field)
    (hskipped : ∀ line ∈ skipped, ¬line.Named field) (hnamed : line.Named field) :
    ∃ valueStart, parseField (bytesOf (skipped ++ line :: lines))
    (bytesOf (skipped ++ line :: lines)).length field = some {
        result := (BitVec.ofNat 32 (bytesOf (skipped ++ [line])).length).toInt
        fieldValue := some (some valueStart)
        valueLen := some line.value.length } ∧
      ((bytesOf (skipped ++ line :: lines)).drop valueStart).take line.value.length =
        line.value := by
  obtain ⟨hwell, hterminated, hrest⟩ := hblock.tail
  obtain ⟨spaces, c, rest, htext, hspaces, hnewline, hc⟩ := hwell.nonBlank
  have hvalue := HeaderLine.value_eq htext hspaces hc
  have hfind := findField_named hblock hfield hskipped hnamed hwell
  generalize hbefore : bytesOf skipped ++ line.name ++ [58] = before at hfind
  have hline : bytesOf (skipped ++ [line]) = before ++ spaces ++ line.value ++ line.ending := by
    rw [bytesOf_append, bytesOf_cons, HeaderLine.bytes, htext, hvalue, ← hbefore]
    simp only [bytesOf, List.flatMap_nil, List.append_nil, List.append_assoc, List.cons_append,
      List.nil_append]
  have hheader : bytesOf (skipped ++ line :: lines) = before ++ spaces ++ line.value ++
    (line.ending ++ bytesOf lines) := by
    rw [List.append_cons, bytesOf_append, hline, List.append_assoc]
  have hfolded : Folded line.value := by
    have htextFolded := hwell.folded
    rw [htext] at htextFolded
    rw [hvalue]
    exact folded_append htextFolded
  have hends : Ends line.value line.ending (bytesOf lines) := by
    have hlast : line.text.getLast? = line.value.getLast? := by
      rw [htext, hvalue, List.getLast?_append_of_ne_nil _ (List.cons_ne_nil _ _)]
    refine ⟨?_, ?_, fun hend => by rw [hterminated hend]; rfl, head_bytesOf hrest⟩
    · rw [← hlast]
      exact hwell.ending
    · rw [hvalue]
      exact List.cons_ne_nil _ _
  refine ⟨(before ++ spaces).length, ?_, ?_⟩
  · rw [hline]
    exact parseField_value hheader hfind hspaces hnewline ⟨c, by rw [hvalue]; rfl, hc⟩ hfolded hends
  · rw [hheader, List.append_assoc, List.drop_left, List.take_left]

theorem parseField_notFound (hblock : Block lines) (hfield : 58 ∉ field)
    (hlines : ∀ line ∈ lines, ¬line.Named field) :
    parseField (bytesOf lines) (bytesOf lines).length field = some { result := notFound } := by
  have hblock' : Block (lines ++ []) := by rwa [List.append_nil]
  have hfind := findField_skipped hblock' hfield hlines 0
  rw [List.append_nil] at hfind
  rw [parseField, hfind]
  rfl

end Call

/-! ### Bounds -/

section Bounds

variable {header : List UInt8} {headerLen valueStart fuel offset lineEnd lengthEnd : ℕ}
  {atLineStart : Bool}

theorem findField_le (h : findField field left bytes atLineStart cur = some (some offset)) :
    offset ≤ cur + left := by
  induction left generalizing bytes atLineStart cur with
  | zero => cases h
  | succ left ih =>
    rcases bytes with _ | ⟨first, rest⟩
    · cases h
    · rw [findField] at h
      split at h
      · cases h
      · rename_i hstarts
        split at hstarts
        · rw [startsField] at hstarts
          split at hstarts
          · cases h
            omega
          · cases hstarts
        · cases hstarts
      · have hle := ih h
        omega

theorem skipSpaces_le (h : skipSpaces left bytes cur = some offset) :
    cur ≤ offset ∧ offset ≤ cur + left := by
  induction left generalizing bytes cur with
  | zero =>
    cases h
    exact ⟨Nat.le_refl _, Nat.le_refl _⟩
  | succ left ih =>
    rcases bytes with _ | ⟨c, rest⟩
    · cases h
    · rw [skipSpaces] at h
      split_ifs at h
      · cases h
        omega
      · have hle := ih h
        omega
      · cases h
        omega

theorem walkLine_le (h : walkLine left bytes cur = some offset) :
    cur ≤ offset ∧ offset ≤ cur + left := by
  induction left generalizing bytes cur with
  | zero =>
    cases h
    exact ⟨Nat.le_refl _, Nat.le_refl _⟩
  | succ left ih =>
    rcases bytes with _ | ⟨c, rest⟩
    · cases h
    · rw [walkLine] at h
      split_ifs at h
      · cases h
        omega
      · have hle := ih h
        omega

theorem scanValue_le (h : scanValue header headerLen valueStart fuel cur = some (lineEnd,
    lengthEnd)) (hstart : valueStart ≤ headerLen) : lengthEnd ≤ lineEnd ∧ lineEnd ≤ headerLen := by
  induction fuel generalizing cur with
  | zero => cases h
  | succ fuel ih =>
    rw [scanValue] at h
    split_ifs at h with hscan
    · split at h
      · cases h
      · rename_i scan hwalk
        split_ifs at h with hend
        · cases h
          exact ⟨Nat.le_refl _, Nat.le_refl _⟩
        · split at h
          · exact ih h
          · cases h
            split_ifs <;> omega
          · cases h
    · cases h
      exact ⟨Nat.le_refl _, hstart⟩

theorem findField_isSome (h : left ≤ bytes.length) :
    ∃ found, findField field left bytes atLineStart cur = some found := by
  induction left generalizing bytes atLineStart cur with
  | zero => exact ⟨none, rfl⟩
  | succ left ih =>
    obtain ⟨first, rest, rfl⟩ := List.exists_cons_of_length_pos (Nat.zero_lt_of_lt h)
    have hrest := @ih rest (cur + 1) (decide (first = newline)) (Nat.le_of_succ_le_succ h)
    rw [findField]
    split_ifs with hstart
    · rw [startsField_eq h]
      split
      · rename_i hnone
        cases hnone
      · exact ⟨_, rfl⟩
      · exact hrest
    · exact hrest

theorem skipSpaces_isSome (h : left ≤ bytes.length) :
    ∃ offset, skipSpaces left bytes cur = some offset := by
  induction left generalizing bytes cur with
  | zero => exact ⟨cur, rfl⟩
  | succ left ih =>
    obtain ⟨c, rest, rfl⟩ := List.exists_cons_of_length_pos (Nat.zero_lt_of_lt h)
    rw [skipSpaces]
    split_ifs
    · exact ⟨_, rfl⟩
    · exact ih (Nat.le_of_succ_le_succ h)
    · exact ⟨_, rfl⟩

theorem walkLine_isSome (h : left ≤ bytes.length) :
    ∃ offset, walkLine left bytes cur = some offset := by
  induction left generalizing bytes cur with
  | zero => exact ⟨cur, rfl⟩
  | succ left ih =>
    obtain ⟨c, rest, rfl⟩ := List.exists_cons_of_length_pos (Nat.zero_lt_of_lt h)
    rw [walkLine]
    split_ifs
    · exact ⟨_, rfl⟩
    · exact ih (Nat.le_of_succ_le_succ h)

theorem continues_isSome (h : headerLen ≤ header.length) (afterLF : ℕ) :
    ∃ folds, continues header headerLen afterLF = some folds := by
  rw [continues]
  split_ifs with hlt
  · rw [List.getElem?_eq_getElem (Nat.lt_of_lt_of_le hlt h)]
    exact ⟨_, rfl⟩
  · exact ⟨_, rfl⟩

theorem scanValue_isSome (h : headerLen ≤ header.length) (hfuel : headerLen < cur + fuel)
    (hpos : 0 < fuel) :
    ∃ ends, scanValue header headerLen valueStart fuel cur = some ends := by
  induction fuel generalizing cur with
  | zero => cases hpos
  | succ fuel ih =>
    rw [scanValue]
    split_ifs with hscan
    · have hdrop : headerLen - cur ≤ (header.drop cur).length := by
        rw [List.length_drop]
        omega
      obtain ⟨scan, hwalk⟩ := @walkLine_isSome _ _ cur hdrop
      have hle := walkLine_le hwalk
      rw [hwalk]
      simp only
      split_ifs with hend
      · exact ⟨_, rfl⟩
      · obtain ⟨saw, hsaw⟩ : ∃ saw, sawCR header valueStart scan = some saw := by
          have htake : (header.take scan).length = scan := List.length_take_of_le (by omega)
          have hsaw := @sawCR_isSome header (header.take scan) (by omega) valueStart
          rwa [htake] at hsaw
        obtain ⟨folds, hfolds⟩ := continues_isSome h (scan + 1)
        rw [hsaw, hfolds]
        cases folds with
        | false => exact ⟨_, rfl⟩
        | true => exact ih (by omega) (by omega)
    · exact ⟨_, rfl⟩

theorem foundValue_inside (hlen : headerLen < 2 ^ 31)
    (hle : lengthEnd ≤ lineEnd ∧ lineEnd ≤ headerLen) :
    (foundValue valueStart lineEnd lengthEnd).Inside headerLen := by
  have hcount : (BitVec.ofNat 32 lineEnd).toInt = lineEnd :=
    (toInt_ofNat_iff lineEnd).mpr (by omega)
  unfold foundValue
  simp only
  split_ifs with hvalue hzero
  · exact ⟨.inr ⟨Int.le_refl 0, Int.natCast_nonneg _⟩, fun _ _ h => nomatch h⟩
  · refine ⟨.inr ⟨?_, ?_⟩, fun start len hstart hlength => ?_⟩
    · change 0 ≤ (BitVec.ofNat 32 lineEnd).toInt
      omega
    · change (BitVec.ofNat 32 lineEnd).toInt ≤ headerLen
      omega
    · cases hstart
      cases hlength
      change _ ∧ _ ≤ (BitVec.ofNat 32 lineEnd).toInt
      omega
  · exact ⟨.inr ⟨Int.le_refl 0, Int.natCast_nonneg _⟩, fun _ _ h => nomatch h⟩
  · exact absurd rfl ‹¬0 = 0›

theorem parseField_inside (hmemory : headerLen ≤ header.length) (hlen : headerLen < 2 ^ 31)
    (field : List UInt8) :
    ∃ outcome, parseField header headerLen field = some outcome ∧ outcome.Inside headerLen := by
  obtain ⟨found, hfind⟩ := @findField_isSome field header headerLen 0 true hmemory
  rw [parseField, hfind]
  cases found with
  | none => exact ⟨_, rfl, .inl rfl, fun _ _ h => nomatch h⟩
  | some valueOffset =>
    have hoffset := findField_le hfind
    have hdrop : headerLen - valueOffset ≤ (header.drop valueOffset).length := by
      rw [List.length_drop]
      omega
    obtain ⟨start, hskip⟩ := @skipSpaces_isSome _ _ valueOffset hdrop
    have hstart := skipSpaces_le hskip
    simp only
    rw [hskip]
    simp only
    split_ifs with hinside
    · have hfuel : headerLen < start + (headerLen + 1) := by omega
      obtain ⟨⟨lineEnd, lengthEnd⟩, hscan⟩ := scanValue_isSome hmemory hfuel (Nat.succ_pos _)
      rw [hscan]
      exact ⟨_, rfl, foundValue_inside hlen (scanValue_le hscan (Nat.le_of_lt hinside))⟩
    · exact ⟨_, rfl, foundValue_inside hlen ⟨Nat.le_refl _, Nat.le_refl _⟩⟩

end Bounds


/-! ### Calls behind each other -/

section Calls

variable {header : List UInt8} {values values' : List (List UInt8)}
  {lines skipped : List HeaderLine}

theorem notFound_ne (count : ℕ) : notFound ≠ count := by
  rw [notFound]
  omega

theorem Enumerates.unique (h : Enumerates field header values)
    (h' : Enumerates field header values') : values = values' := by
  induction h generalizing values' with
  | notFound call =>
    cases h' with
    | notFound => rfl
    | found call' =>
      have hresult := congrArg HeaderOutcome.result (Option.some.inj (call.symm.trans call'))
      exact absurd hresult (notFound_ne _)
  | found call _ _ _ ih =>
    cases h' with
    | notFound call' =>
      have hresult := congrArg HeaderOutcome.result (Option.some.inj (call'.symm.trans call))
      exact absurd hresult (notFound_ne _)
    | found call' _ _ rest' =>
      have houtcome := Option.some.inj (call.symm.trans call')
      simp only [HeaderOutcome.mk.injEq, Int.natCast_inj, Option.some.injEq] at houtcome
      obtain ⟨rfl, rfl, rfl⟩ := houtcome
      rw [ih rest']

theorem lookup_eq (hfield : field.length < 0xfff) (header : List UInt8) :
    sceHttpParseResponseHeader (some header) header.length (some field) true =
      parseField header header.length field := by
  rw [sceHttpParseResponseHeader]
  simp only [not_true_eq_false, if_false]
  rw [List.take_of_length_le (Nat.le_of_lt hfield)]

/-- Along the lines, of which the skipped ones have been read without being found. -/
theorem enumerates_skipped (hcolon : 58 ∉ field) (hfield : field.length < 0xfff)
    (hblock : Block (skipped ++ lines))
    (hlen : (bytesOf (skipped ++ lines)).length < 2 ^ 31)
    (hskipped : ∀ line ∈ skipped, ¬line.Named field) :
    Enumerates field (bytesOf (skipped ++ lines))
    ((lines.filter (HeaderLine.Named field)).map HeaderLine.value) := by
  induction lines generalizing skipped with
  | nil =>
    rw [List.append_nil] at hblock ⊢
    exact .notFound (by rw [lookup_eq hfield, parseField_notFound hblock hcolon hskipped])
  | cons line lines ih =>
    by_cases hnamed : line.Named field
    · obtain ⟨valueStart, hcall, hslice⟩ := parseField_named hblock hcolon hskipped hnamed
      obtain ⟨hwell, -, hrest⟩ := hblock.tail
      have hsplit : bytesOf (skipped ++ line :: lines) = bytesOf (skipped ++ [line]) ++
        bytesOf lines := by
        rw [List.append_cons, bytesOf_append]
      have hcount : (bytesOf (skipped ++ [line])).length + (bytesOf lines).length =
          (bytesOf (skipped ++ line :: lines)).length := by
        rw [hsplit, List.length_append]
      have hpos : 0 < (bytesOf (skipped ++ [line])).length := by
        rw [bytesOf_append, List.length_append, bytesOf_cons, List.length_append, HeaderLine.bytes,
          List.length_append, List.length_cons]
        omega
      rw [(toInt_ofNat_iff _).mpr (by omega)] at hcall
      have hbehind : (bytesOf (skipped ++ line :: lines)).drop
        (bytesOf (skipped ++ [line])).length = bytesOf lines := by
        rw [hsplit, List.drop_left]
      simp only [List.filter_cons, decide_eq_true hnamed, if_true, List.map_cons]
      rw [← hslice]
      refine .found ((lookup_eq hfield _).trans hcall) hpos (by omega) ?_
      rw [hbehind]
      exact @ih [] hrest (by rw [List.nil_append]; omega) (by simp)
    · have hskipped' : ∀ other ∈ skipped ++ [line], ¬other.Named field := by
        intro other hother
        obtain hmem | hmem := List.mem_append.mp hother
        · exact hskipped other hmem
        · rwa [List.mem_singleton.mp hmem]
      simp only [List.filter_cons, decide_eq_false hnamed, Bool.false_eq_true, if_false]
      rw [List.append_cons] at hblock hlen ⊢
      exact ih hblock hlen hskipped'

end Calls

/-- The calls behind each other yield the values of the lines with the name, in order. No call
leaves its header. -/
theorem sceHttpParseResponseHeader_enumerates (lines : List HeaderLine) (field : List UInt8)
    (hblock : Block lines)
    (hcolon : 58 ∉ field) (hfield : field.length < 0xfff) (hlen : (bytesOf lines).length < 2 ^ 31) :
    (∀ values, Enumerates field (bytesOf lines) values ↔
      values = (lines.filter (HeaderLine.Named field)).map HeaderLine.value) ∧
    ∀ (header name : List UInt8) (headerLen : ℕ), headerLen ≤ header.length → headerLen < 2 ^ 31 →
      ∃ outcome,
        sceHttpParseResponseHeader (some header) headerLen (some name) true = some outcome ∧
        outcome.Inside headerLen := by
  have henumerates := @enumerates_skipped field lines [] hcolon hfield hblock hlen nofun
  refine ⟨fun values => ⟨fun h => h.unique henumerates, ?_⟩, ?_⟩
  · rintro rfl
    exact henumerates
  · intro header name headerLen hmemory hheader
    exact parseField_inside hmemory hheader (name.take 0xfff)

theorem sceHttpParseResponseHeader_enumerates_three :
    Enumerates [97] (bytesOf [⟨[65], [32, 98], [carriageReturn, newline]⟩, ⟨[98], [99], [newline]⟩,
      ⟨[97], [100], []⟩]) [[98], [100]] := by
  have first : HeaderLine.WellFormed ⟨[65], [32, 98], [carriageReturn, newline]⟩ :=
    ⟨by decide, by decide, (fun c hc => by cases hc; decide), ⟨nofun, nofun, trivial⟩,
      ⟨[32], 98, [], rfl, List.forall_iff_forall_mem.mp (by decide), by decide, by decide⟩,
        .inr (.inl rfl)⟩
  have other : HeaderLine.WellFormed ⟨[98], [99], [newline]⟩ :=
    ⟨by decide, by decide, (fun c hc => by cases hc; decide), ⟨nofun, trivial⟩,
      ⟨[], 99, [], rfl, nofun, nofun, by decide⟩, .inr (.inr ⟨rfl, by decide⟩)⟩
  have last : HeaderLine.WellFormed ⟨[97], [100], []⟩ :=
    ⟨by decide, by decide, (fun c hc => by cases hc; decide), ⟨nofun, trivial⟩,
      ⟨[], 100, [], rfl, nofun, nofun, by decide⟩, .inl rfl⟩
  have hblock := Block.cons first nofun (.cons other nofun (.cons last (fun _ => rfl) .nil))
  exact ((sceHttpParseResponseHeader_enumerates _ [97] hblock (by decide) (by decide) (by decide)).1
    _).mpr (by decide)

/-! ### Where the protocol ends early -/

theorem parseField_negative {line : HeaderLine} (hblock : Block [line]) (hcolon : 58 ∉ field)
    (hnamed : line.Named field)
    (hlen : 2 ^ 31 ≤ line.bytes.length ∧ line.bytes.length < 2 ^ 32) (hfield : field.length < 0xfff)
    (values : List (List UInt8)) : ¬Enumerates field (bytesOf [line]) values := by
  obtain ⟨valueStart, hcall, -⟩ := @parseField_named field line [] [] hblock hcolon nofun hnamed
  have hbytes : (bytesOf ([] ++ [line])).length = line.bytes.length := by
    rw [List.nil_append, bytesOf_cons]
    simp only [bytesOf, List.flatMap_nil, List.append_nil]
  have hcount : (BitVec.ofNat 32 (bytesOf ([] ++ [line])).length).toInt =
    line.bytes.length - 2 ^ 32 := by
    rw [hbytes, BitVec.toInt_eq_toNat_cond, BitVec.toNat_ofNat, Nat.mod_eq_of_lt hlen.2]
    split_ifs <;> omega
  rw [hcount, ← lookup_eq hfield] at hcall
  intro h
  cases h with
  | notFound call =>
      cases congrArg HeaderOutcome.fieldValue (Option.some.inj (call.symm.trans hcall))
  | @found _ _ _ count _ call =>
    have hresult : (count : ℤ) = line.bytes.length - 2 ^ 32 :=
      congrArg HeaderOutcome.result (Option.some.inj (call.symm.trans hcall))
    omega

theorem folded_replicate (n : ℕ) : Folded (List.replicate n 120) := by
  induction n with
  | zero => trivial
  | succ n ih => exact ⟨fun h => absurd h (by decide), ih⟩

theorem block_replicate (n : ℕ) : Block [⟨[97], List.replicate (n + 1) 120, []⟩] := by
  have hname : 58 ∉ ([97] : List UInt8) ∧ newline ∉ ([97] : List UInt8) := by decide
  refine .cons ⟨hname.1, hname.2, ?_, folded_replicate _, ?_, .inl rfl⟩ (fun _ => rfl) .nil
  · rintro c hc
    cases hc
    decide
  · exact ⟨[], 120, List.replicate n 120, List.replicate_succ, nofun, nofun, by decide⟩

/-- A line of that length, the carriage return that stays in the value of an unterminated line, and
a name with a colon, which no line has. -/
theorem sceHttpParseResponseHeader_negativeCount :
    (∃ line : HeaderLine, Block [line] ∧ line.Named [97] ∧ ∀ values,
      ¬Enumerates [97] (bytesOf [line]) values) ∧
    sceHttpParseResponseHeader (some [97, 58, 98, carriageReturn]) 4 (some [97]) true =
      some { result := 4, fieldValue := some (some 2), valueLen := some 2 } ∧
    sceHttpParseResponseHeader (some [97, 58, 98, 58, 99]) 5 (some [97, 58, 98]) true =
      some { result := 5, fieldValue := some (some 4), valueLen := some 1 } := by
  obtain ⟨n, hn⟩ : ∃ n : ℕ, n = 2 ^ 31 := ⟨_, rfl⟩
  have hlen : (HeaderLine.bytes ⟨[97], List.replicate (n + 1) 120, []⟩).length = n + 3 := by
    simp only [HeaderLine.bytes, List.length_append, List.length_cons, List.length_replicate,
      List.length_nil]
    omega
  refine ⟨⟨_, block_replicate n, rfl,
    parseField_negative (block_replicate n) (by decide) rfl ?_ (by decide)⟩, by decide, by decide⟩
  rw [hlen, hn]
  decide

end PS4Droid.Network.Http
