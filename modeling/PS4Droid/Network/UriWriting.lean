import PS4Droid.Network.UriReading

/-!
# What parsing writes

The writing call keeps in step with the reading of the URI: the strings stand behind each other in
the pool, and where one has no room the call has run out of memory.
-/

namespace PS4Droid.Network.Http

open ByteStrings BoundedBuffers Lockstep

/-- The pointers with the strings they should have. -/
def uriFields (out : OrbisHttpUriElement) (parts : UriParts) : List (Option ℕ × List UInt8) :=
  [(out.scheme, parts.scheme), (out.username, parts.username), (out.password, parts.password),
    (out.hostname, parts.hostname), (out.path, parts.path), (out.query, parts.query),
      (out.fragment, parts.fragment)]

/-- The state of a call that has written the given strings. -/
structure Written (call : UriCall) (pool : List UInt8) (strings : List (ℕ × List UInt8))
    (r : UriReading) (s : UriState) :
    Prop where
  used : s.poolUsed = r.size
  rest : call.srcUri.drop s.inputOffset = r.rest
  fits : s.poolUsed ≤ call.prepare
  within : Within 0 s.poolUsed pool s.pool
  table : StringTable s.pool 0 strings s.poolUsed
  isOpaque : s.out.isOpaque = r.parts.isOpaque
  port : s.out.port = r.parts.port

/-- The first strings are written. -/
def WrittenUpTo (call : UriCall) (pool : List UInt8) (count : ℕ) (r : UriReading) (s : UriState) :
    Prop :=
  ∃ strings, Written call pool strings r s ∧
    (uriFields s.out r.parts).take count = strings.map (Prod.map some id)

/-- A part of the parser fills the pool with strings. -/
def Fills (s : UriState) (used : ℕ) (fill : UriState → Option UriState)
    (more : List (ℕ × List UInt8)) (out : OrbisHttpUriElement) : Prop :=
  ∃ pool, fill s = some { s with pool, out } ∧ Within s.poolUsed (s.poolUsed + used) s.pool pool ∧
    StringTable pool s.poolUsed more (s.poolUsed + used)

/-- The call and the reading of its URI. -/
abbrev KeepsUp (call : UriCall) (pool : List UInt8) (slack count : ℕ) : UriRead → UriRun → Prop :=
  InStep UriReading.size call.prepare .outOfMemory (fun s : UriState =>
    Within 0 call.prepare pool s.pool) slack
    (WrittenUpTo call pool count)

section Writing

variable {call : UriCall} {pool input text : List UInt8} {strings more : List (ℕ × List UInt8)}
  {r : UriReading} {s : UriState}
  {out : OrbisHttpUriElement} {parts : UriParts}
    {count count' needed used consumed slack offset n : ℕ}
  {fill : UriState → Option UriState}

theorem Written.frame (h : Written call pool strings r s) : Within 0 call.prepare pool s.pool :=
  h.within.mono (Nat.le_refl 0) h.fits

theorem WrittenUpTo.frame (h : WrittenUpTo call pool count r s) :
    Within 0 call.prepare pool s.pool := by
  obtain ⟨strings, hwritten, -⟩ := h
  exact hwritten.frame

theorem component_keepsUp (hwrite : call.writeOutput = true) (hpool : call.prepare ≤ pool.length)
    (h : WrittenUpTo call pool count r s) (hused : used ≤ needed) (hslack : needed ≤ used + slack)
    (hfill : s.poolUsed + used ≤ s.pool.length → Fills s used fill more out)
    (hkind : out.isOpaque = s.out.isOpaque ∧ parts.isOpaque = r.parts.isOpaque)
    (hport : out.port = s.out.port ∧ parts.port = r.parts.port)
    (hfields : (uriFields out parts).take count' =
      (uriFields s.out r.parts).take count ++ more.map (Prod.map some id)) :
    KeepsUp call pool slack count' (some (.goesOn (r.advance used consumed parts)))
      (component call needed used consumed fill s) := by
  obtain ⟨strings, hwritten, hstrings⟩ := h
  have hleft : sizeLeft call.prepare s.poolUsed = call.prepare - s.poolUsed := if_pos hwritten.fits
  have hfits := hwritten.fits
  rw [component, if_pos hwrite, hleft]
  split
  · refine .starvedGoesOn hwritten.frame ?_
    simp only [UriReading.advance, ← hwritten.used]
    omega
  · obtain ⟨pool', hrun, hwithin, htable⟩ := hfill (by rw [hwritten.within.length]; omega)
    rw [hrun]
    refine .goesOn ⟨strings ++ more, ⟨?_, ?_, ?_, ?_, ?_, ?_, ?_⟩, ?_⟩
    · simp only [UriState.advance, UriReading.advance, hwritten.used]
    · simp only [UriState.advance, UriReading.advance, ← hwritten.rest, List.drop_drop]
    · simp only [UriState.advance]
      omega
    · exact (hwritten.within.mono (Nat.le_refl 0) (Nat.le_add_right _ _)).trans
        (hwithin.mono (Nat.zero_le _) (Nat.le_refl _))
    · exact (hwritten.table.frame hwithin (.inl (Nat.le_refl _))).append htable
    · exact hkind.1.trans (hwritten.isOpaque.trans hkind.2.symm)
    · exact hport.1.trans (hwritten.port.trans hport.2.symm)
    · rw [List.map_append, ← hstrings]
      exact hfields

/-! ### One string -/

theorem copyString_fills (setField : OrbisHttpUriElement → ℕ → OrbisHttpUriElement)
    (hslice : slice input offset n = some text) (hnul : 0 ∉ text)
    (hroom : s.poolUsed + (n + 1) ≤ s.pool.length) :
    Fills s (n + 1) (copyString input offset n setField) [(s.poolUsed, text)]
    (setField s.out s.poolUsed) := by
  obtain ⟨-, -, -, -, rfl⟩ := slice_eq_some.mp hslice
  obtain ⟨pool', hstore, hwithin, hstring⟩ := exists_store_cString hnul hroom
  refine ⟨pool', ?_, hwithin, .single hstring (Nat.lt_succ_self _)⟩
  simp only [copyString, memcpy, hslice, Option.bind_eq_bind, Option.bind_some]
  rw [← Option.bind_assoc, hstore]
  rfl

theorem emptyUserinfo_fills (hroom : s.poolUsed + 2 ≤ s.pool.length) :
    Fills s 2 emptyUserinfo [(s.poolUsed, []), (s.poolUsed + 1, [])]
      { s.out with username := some s.poolUsed, password := some (s.poolUsed + 1) } := by
  obtain ⟨pool₁, hstore₁, hwithin₁, hfirst⟩ := @exists_store_one _ s.pool s.poolUsed 0 (by omega)
  obtain ⟨pool₂, hstore₂, hwithin₂, hsecond⟩ :=
    @exists_store_one _ pool₁ (s.poolUsed + 1) 0 (by rw [hwithin₁.length]; omega)
  have hempty {pool : List UInt8} {start : ℕ}
    (hzero : pool[start]? = some 0) : cString pool start = some [] :=
    cString_eq_some.mpr ⟨List.not_mem_nil, nofun, hzero⟩
  refine ⟨pool₂, ?_, ?_,
    .cons (cString_within (hempty hfirst) hwithin₂ (.inl ?_)) ?_ (.single (hempty hsecond) ?_)⟩
  · simp only [emptyUserinfo, hstore₁, hstore₂, Option.bind_eq_bind, Option.bind_some]
  · exact (hwithin₁.mono (Nat.le_refl _) (by omega)).trans (hwithin₂.mono (by omega) (by omega))
  · exact Nat.lt_succ_self _
  · exact Nat.lt_succ_self _
  · exact Nat.lt_succ_self _

theorem copyUserinfo_fills {user pass : List UInt8} {userLen passOffset passLen : ℕ}
    (huser : slice input 0 userLen = some user) (hpass : slice input passOffset passLen = some pass)
    (hnul : 0 ∉ user ∧ 0 ∉ pass) (hoffset : userLen < passOffset)
    (hroom : s.poolUsed + (passOffset + passLen + 1) ≤ s.pool.length) :
    Fills s (passOffset + passLen + 1) (copyUserinfo input userLen passOffset passLen)
      [(s.poolUsed, user), (s.poolUsed + passOffset, pass)]
      { s.out with username := some s.poolUsed, password := some (s.poolUsed + passOffset) } := by
  obtain ⟨-, -, -, -, rfl⟩ := slice_eq_some.mp huser
  obtain ⟨-, -, -, -, rfl⟩ := slice_eq_some.mp hpass
  obtain ⟨pool₁, hstore₁, hwithin₁, hfirst⟩ :=
    @exists_store_cString s.poolUsed s.pool user hnul.1 (by omega)
  obtain ⟨pool₂, hstore₂, hwithin₂, hsecond⟩ :=
    @exists_store_cString (s.poolUsed + passOffset) pool₁ pass hnul.2
      (by rw [hwithin₁.length]; omega)
  refine ⟨pool₂, ?_, ?_, .cons (cString_within hfirst hwithin₂ (.inl (by omega))) (by omega)
    (.single hsecond (by omega))⟩
  · have hrest (k : List UInt8 → Option UriState) : ((store s.pool s.poolUsed user).bind fun pool =>
        (store pool (s.poolUsed + user.length) [0]).bind k) = k pool₁ := by
      rw [← Option.bind_assoc, hstore₁, Option.bind_some]
    have hrest' (k : List UInt8 → Option UriState) :
      ((store pool₁ (s.poolUsed + passOffset) pass).bind fun pool =>
        (store pool (s.poolUsed + passOffset + pass.length) [0]).bind k) = k pool₂ := by
      rw [← Option.bind_assoc, hstore₂, Option.bind_some]
    simp only [copyUserinfo, memcpy, huser, hpass, Option.bind_eq_bind, Option.bind_some,
      ← Nat.add_assoc]
    rw [hrest, hrest']
  · exact (hwithin₁.mono (Nat.le_refl _) (by omega)).trans (hwithin₂.mono (by omega) (by omega))

theorem copyPath_fills (hslice : slice input 0 n = some text) (hnul : 0 ∉ text)
    (hroom : s.poolUsed + (n + 1) ≤ s.pool.length) :
    Fills s (n + 1) (copyPath input n) [(s.poolUsed, sweptPath text)]
    { s.out with path := some s.poolUsed } := by
  obtain ⟨-, -, -, -, rfl⟩ := slice_eq_some.mp hslice
  obtain ⟨pool₁, hstore, hwithin₁, -⟩ := exists_store_cString hnul hroom
  obtain ⟨pool₂, before, tail, hsweep, hwithin₂, hbefore, hplaced⟩ :=
    @sweep_within pool₁ text s.poolUsed hnul (by rw [hwithin₁.length]; exact hroom)
  have hstring := hplaced.cString (not_mem_sweptPath hnul)
  rw [hbefore] at hstring
  have hlength : (sweptPath text).length < text.length + 1 := by
    obtain ⟨junk, -, hlength⟩ := hplaced
    omega
  refine ⟨pool₂, ?_, hwithin₁.trans hwithin₂, .single hstring (Nat.add_lt_add_left hlength _)⟩
  have hrest (k : List UInt8 → Option UriState) : ((store s.pool s.poolUsed text).bind fun pool =>
      (store pool (s.poolUsed + text.length) [0]).bind k) = k pool₁ := by
    rw [← Option.bind_assoc, hstore, Option.bind_some]
  simp only [copyPath, memcpy, hslice, Option.bind_eq_bind, Option.bind_some]
  rw [hrest]
  simp only [hsweep, Option.bind_some]

end Writing

/-! ### The scans stay in the input -/

section Scans

variable {input : List UInt8} {i n : ℕ}

theorem scanAuthority_spec {colonPos first : Option ℕ}
    (h : scanAuthority input i first = (colonPos, some n)) :
    i ≤ n ∧ input[n - i]? = some 64 ∧
      (∀ c, colonPos = some c → first = some c ∨ i ≤ c ∧ c < n) := by
  induction input generalizing i first with
  | nil => cases h
  | cons c rest ih =>
    rw [scanAuthority] at h
    have hlater {first' : Option ℕ} (h : scanAuthority rest (i + 1) first' = (colonPos, some n)) :
        i + 1 ≤ n ∧ (c :: rest)[n - i]? = some 64 ∧
          (∀ c, colonPos = some c → first' = some c ∨ i + 1 ≤ c ∧ c < n) := by
      obtain ⟨hle, hat, hcolon⟩ := ih h
      obtain ⟨k, rfl⟩ := Nat.exists_eq_add_of_le hle
      refine ⟨hle, ?_, hcolon⟩
      rw [show i + 1 + k - i = k + 1 by omega, List.getElem?_cons_succ]
      rwa [Nat.add_sub_cancel_left] at hat
    split_ifs at h with hat hcolon hhigh hother
    · obtain ⟨rfl, hn⟩ := Prod.mk.inj h
      obtain rfl := Option.some.inj hn
      refine ⟨Nat.le_refl _, ?_, fun _ h => .inl h⟩
      rw [Nat.sub_self, hat]
      rfl
    · obtain ⟨hle, hget, hafter⟩ := hlater h
      refine ⟨Nat.le_of_succ_le hle, hget, fun c hc => .inr ?_⟩
      rcases hafter c hc with hc | hc
      · obtain rfl := Option.some.inj hc
        exact ⟨Nat.le_refl _, hle⟩
      · exact ⟨Nat.le_of_succ_le hc.1, hc.2⟩
    · cases h
    · cases h
    · obtain ⟨hle, hget, hafter⟩ := hlater h
      exact ⟨Nat.le_of_succ_le hle, hget, fun c hc => (hafter c hc).imp_right fun hc =>
        ⟨Nat.le_of_succ_le hc.1, hc.2⟩⟩

theorem slice_of_le {start : ℕ} (h : start + n ≤ input.length) :
    slice input start n = some ((input.drop start).take n) := if_pos h

theorem scanHost_le {ipv6 : Bool} (h : scanHost ipv6 input i = some n) :
    i ≤ n ∧ n - i ≤ input.length := by
  induction input generalizing i with
  | nil =>
    rw [scanHost] at h
    split_ifs at h
    obtain rfl := Option.some.inj h
    exact ⟨Nat.le_refl _, by omega⟩
  | cons c rest ih =>
    rw [scanHost] at h
    split_ifs at h
    · obtain rfl := Option.some.inj h
      exact ⟨Nat.le_refl _, by omega⟩
    · obtain rfl := Option.some.inj h
      exact ⟨Nat.le_refl _, by omega⟩
    · obtain ⟨hle, hlength⟩ := ih h
      rw [List.length_cons]
      omega

theorem hostSpan_bracket (rest : List UInt8) : hostSpan (91 :: rest) =
    match scanHost true rest 1 with
    | none => none
    | some n => if (91 :: rest)[n]? ≠ some 93 then none else some ⟨n + 1, 1, n - 1⟩ := rfl

theorem hostSpan_plain (hdot : input.head? ≠ some 46) (hbracket : input.head? ≠ some 91) :
    hostSpan input = (scanHost false input 0).map fun n => ⟨n, 0, n⟩ := by
  rw [hostSpan]
  · rintro rest rfl
    exact hdot rfl
  · rintro rest rfl
    exact hbracket rfl

theorem hostSpan_le {host : HostSpan} (h : hostSpan input = some host) :
    host.copyStart + host.storedHostLen ≤ input.length := by
  by_cases hdot : input.head? = some 46
  · obtain ⟨rest, rfl⟩ := List.head?_eq_some_iff.mp hdot
    obtain rfl := Option.some.inj h
    exact Nat.zero_le _
  by_cases hbracket : input.head? = some 91
  · obtain ⟨rest, rfl⟩ := List.head?_eq_some_iff.mp hbracket
    rw [hostSpan_bracket] at h
    cases hscan : scanHost true rest 1 with
    | none =>
      rw [hscan] at h
      cases h
    | some k =>
      rw [hscan] at h
      dsimp only at h
      split_ifs at h
      obtain rfl := Option.some.inj h
      have hle := scanHost_le hscan
      rw [List.length_cons]
      dsimp only
      omega
  · rw [hostSpan_plain hdot hbracket] at h
    obtain ⟨k, hscan, rfl⟩ := Option.map_eq_some_iff.mp h
    have hle := scanHost_le hscan
    dsimp only
    omega

variable {stops : UInt8 → Bool}

theorem scanUntil_le (h : scanUntil stops input i = some n) : i ≤ n ∧ n - i ≤ input.length := by
  induction input generalizing i with
  | nil =>
    obtain rfl := Option.some.inj h
    exact ⟨Nat.le_refl _, by omega⟩
  | cons c rest ih =>
    rw [scanUntil] at h
    split_ifs at h
    · obtain rfl := Option.some.inj h
      exact ⟨Nat.le_refl _, by omega⟩
    · obtain ⟨hle, hlength⟩ := ih h
      rw [List.length_cons]
      omega

theorem scanScheme_le (limit : ℕ) (input : List UInt8) : scanScheme limit input ≤ input.length := by
  induction input generalizing limit with
  | nil => cases limit <;> exact Nat.le_refl 0
  | cons c rest ih =>
    cases limit with
    | zero => exact Nat.zero_le _
    | succ limit =>
      rw [scanScheme]
      split_ifs
      · exact Nat.zero_le _
      · exact Nat.zero_le _
      · exact Nat.succ_le_succ (ih limit)

theorem schemeLen_le (h : schemeLen input = some n) : n ≤ input.length := by
  rw [schemeLen] at h
  split_ifs at h
  obtain rfl := Option.some.inj h
  exact scanScheme_le _ _

theorem marked_le {mark : UInt8}
    (h : (if input.head? = some mark then scanUntil stops input.tail 1 else some 0) = some n) :
    n ≤ input.length := by
  split_ifs at h with hmark
  · obtain ⟨rest, rfl⟩ := List.head?_eq_some_iff.mp hmark
    have hle := scanUntil_le h
    rw [List.tail_cons] at hle
    rw [List.length_cons]
    omega
  · obtain rfl := Option.some.inj h
    exact Nat.zero_le _

end Scans

/-! ### The stages of the call -/

section Stages

variable {call : UriCall} {pool : List UInt8} {r : UriReading} {s : UriState}

theorem WrittenUpTo.nul {count : ℕ} (h : WrittenUpTo call pool count r s) (hnul : 0 ∉ call.srcUri) :
    0 ∉ r.rest := by
  obtain ⟨strings, hwritten, -⟩ := h
  rw [← hwritten.rest]
  exact fun hmem => hnul (List.mem_of_mem_drop hmem)

theorem WrittenUpTo.input {count : ℕ} (h : WrittenUpTo call pool count r s) :
    call.input s = r.rest := by
  obtain ⟨strings, hwritten, -⟩ := h
  exact hwritten.rest

theorem nul_range (hnul : 0 ∉ r.rest) (start n : ℕ) : 0 ∉ (r.rest.drop start).take n :=
  fun hmem => hnul (List.mem_of_mem_drop (List.mem_of_mem_take hmem))

theorem parseSlashes_keepsUp (hwrite : call.writeOutput = true) (h : WrittenUpTo call pool 1 r s) :
    KeepsUp call pool 1 1 (readSlashes r) (parseSlashes call s) := by
  obtain ⟨strings, hwritten, hstrings⟩ := h
  rw [readSlashes, parseSlashes, UriCall.input, hwritten.rest, if_pos hwrite]
  dsimp only
  split
  · refine .goesOn ⟨strings,
      ⟨hwritten.used, ?_, hwritten.fits, hwritten.within, hwritten.table, hwritten.isOpaque,
      hwritten.port⟩, hstrings⟩
    simp only [UriState.advance, UriReading.advance, ← hwritten.rest, List.drop_drop]
  · exact .goesOn ⟨strings,
      ⟨hwritten.used, hwritten.rest, hwritten.fits, hwritten.within, hwritten.table, rfl,
      hwritten.port⟩, hstrings⟩

variable (hwrite : call.writeOutput = true) (hpool : call.prepare ≤ pool.length)
  (hnul : 0 ∉ call.srcUri)
include hwrite hpool hnul

theorem parseUserinfo_keepsUp (h : WrittenUpTo call pool 1 r s) :
    KeepsUp call pool 0 3 (readUserinfo r) (parseUserinfo call s) := by
  have hrest := h.nul hnul
  rw [readUserinfo, parseUserinfo, h.input]
  have hempty : KeepsUp call pool 0 3
      (some (.goesOn (r.advance 2 0 { r.parts with username := [], password := [] })))
      (component call 2 2 0 emptyUserinfo s) :=
    component_keepsUp hwrite hpool h (Nat.le_refl _) (Nat.le_refl _) emptyUserinfo_fills ⟨rfl,
      rfl⟩ ⟨rfl, rfl⟩ rfl
  cases hscan : scanAuthority r.rest 0 none with
  | mk colonPos atPos =>
    cases atPos with
    | none => cases colonPos <;> exact hempty
    | some atPos =>
      obtain ⟨-, hat, hcolon⟩ := scanAuthority_spec hscan
      have hlt := (List.getElem?_eq_some_iff.mp hat).1
      cases colonPos with
      | none =>
        exact component_keepsUp hwrite hpool h (Nat.le_refl _) (Nat.le_refl _)
          (copyUserinfo_fills (slice_of_le (by omega)) (slice_of_le (by omega))
            ⟨nul_range hrest 0 atPos, nul_range hrest (atPos + 1) 0⟩ (Nat.lt_succ_self _)) ⟨rfl,
              rfl⟩ ⟨rfl, rfl⟩ rfl
      | some colonPos =>
        have hbefore : colonPos < atPos := by
          rcases hcolon colonPos rfl with hc | hc
          · cases hc
          · exact hc.2
        exact component_keepsUp hwrite hpool h (Nat.le_refl _) (Nat.le_refl _)
          (copyUserinfo_fills (slice_of_le (by omega)) (slice_of_le (by omega))
            ⟨nul_range hrest 0 colonPos, nul_range hrest _ _⟩ (Nat.lt_succ_self _)) ⟨rfl, rfl⟩ ⟨rfl,
              rfl⟩ rfl

theorem parseHost_keepsUp (h : WrittenUpTo call pool 3 r s) :
    KeepsUp call pool 0 4 (readHost r) (parseHost call s) := by
  rw [readHost, parseHost, h.input]
  cases hspan : hostSpan r.rest with
  | none => exact .stopped h.frame
  | some host =>
    exact component_keepsUp hwrite hpool h (Nat.le_refl _) (Nat.le_refl _)
      (copyString_fills _ (slice_of_le (hostSpan_le hspan)) (nul_range (h.nul hnul) _ _)) ⟨rfl,
        rfl⟩ ⟨rfl, rfl⟩ rfl

theorem parsePath_keepsUp (h : WrittenUpTo call pool 4 r s) :
    KeepsUp call pool 0 5 (readPath r) (parsePath call s) := by
  rw [readPath, parsePath, h.input]
  cases hscan : scanUntil (fun c => c = 63 ∨ c = 35) r.rest 0 with
  | none => exact .stopped h.frame
  | some n =>
    have hle := (scanUntil_le hscan).2
    exact component_keepsUp hwrite hpool h (Nat.le_refl _) (Nat.le_refl _)
      (copyPath_fills (slice_of_le (by omega)) (nul_range (h.nul hnul) 0 n)) ⟨rfl, rfl⟩ ⟨rfl,
        rfl⟩ rfl

omit hpool hnul in
theorem setPort_keepsUp (h : WrittenUpTo call pool 4 r s) (explicitPort : Option UInt16)
    (consumed : ℕ) :
    KeepsUp call pool 0 4
      (some (.goesOn
        (r.advance 0 consumed { r.parts with port := explicitPort.getD (readDefaultPort r) })))
      (setPort call explicitPort consumed s) := by
  obtain ⟨strings, hwritten, hstrings⟩ := h
  have hgoesOn (port : UInt16) :
    KeepsUp call pool 0 4 (some (.goesOn (r.advance 0 consumed { r.parts with port })))
      (some (.goesOn ({ s with out := { s.out with port } }.advance 0 consumed))) := by
    refine .goesOn ⟨strings,
      ⟨hwritten.used, ?_, hwritten.fits, hwritten.within, hwritten.table, hwritten.isOpaque, rfl⟩,
      hstrings⟩
    simp only [UriState.advance, UriReading.advance, ← hwritten.rest, List.drop_drop]
  rw [setPort.eq_def, if_pos hwrite]
  cases explicitPort with
  | some port => exact hgoesOn port
  | none =>
    obtain ⟨⟨start, text⟩, strings', rfl⟩ : ∃ first strings', strings = first :: strings' := by
      cases strings with
      | nil => cases hstrings
      | cons first strings' => exact ⟨first, strings', rfl⟩
    obtain ⟨hfirst, -⟩ := List.cons.inj hstrings
    obtain ⟨hscheme, htext⟩ := Prod.mk.inj hfirst
    have hstring := (hwritten.table.disjoint.1 (start, text) List.mem_cons_self).2.1
    simp only [id] at htext
    rw [hscheme]
    dsimp only
    rw [hstring]
    dsimp only
    rw [← htext, hwritten.port]
    exact hgoesOn _

omit hpool hnul in
theorem parsePort_keepsUp (h : WrittenUpTo call pool 4 r s) :
    KeepsUp call pool 0 4 (readPort r) (parsePort call s) := by
  by_cases hcolon : ∃ digits, r.rest = 58 :: digits
  · obtain ⟨digits, hrest⟩ := hcolon
    rw [readPort_colon hrest, parsePort_colon (h.input.trans hrest)]
    split_ifs with hlarge hend hdigits
    · exact .stopped h.frame
    · exact .stopped h.frame
    · exact setPort_keepsUp hwrite h (some _) _
    · exact setPort_keepsUp hwrite h none _
  · have hother : ∀ digits, r.rest ≠ 58 :: digits := fun digits hrest => hcolon ⟨digits, hrest⟩
    rw [readPort_other hother, parsePort_other fun digits hrest =>
      hother digits (h.input.symm.trans hrest)]
    exact setPort_keepsUp hwrite h none 0

theorem parseQuery_keepsUp (h : WrittenUpTo call pool 5 r s) :
    KeepsUp call pool 0 6 (readQuery r) (parseQuery call s) := by
  rw [readQuery, readMarked, parseQuery, parseMarked, h.input]
  cases hscan : if r.rest.head? = some 63 then scanUntil (· = 35) r.rest.tail 1 else some 0 with
  | none => exact .stopped h.frame
  | some n =>
    exact component_keepsUp hwrite hpool h (Nat.le_refl _) (Nat.le_refl _)
      (copyString_fills _ (slice_of_le (by rw [Nat.zero_add]; exact marked_le hscan))
        (nul_range (h.nul hnul) 0 n))
      ⟨rfl, rfl⟩ ⟨rfl, rfl⟩ rfl

theorem parseFragment_keepsUp (h : WrittenUpTo call pool 6 r s) :
    KeepsUp call pool 0 7 (readFragment r) (parseFragment call s) := by
  rw [readFragment, readMarked, parseFragment, parseMarked, h.input]
  cases hscan : if r.rest.head? = some 35 then scanUntil (fun _ => false) r.rest.tail 1
    else some 0 with
  | none => exact .stopped h.frame
  | some n =>
    exact component_keepsUp hwrite hpool h (Nat.le_refl _) (Nat.le_refl _)
      (copyString_fills _ (slice_of_le (by rw [Nat.zero_add]; exact marked_le hscan))
        (nul_range (h.nul hnul) 0 n))
      ⟨rfl, rfl⟩ ⟨rfl, rfl⟩ rfl

theorem parseScheme_keepsUp : KeepsUp call pool 1 1 (readScheme { rest := call.srcUri })
      (parseScheme call { poolUsed := 0, inputOffset := 0, pool, out := {} }) := by
  have hstart : WrittenUpTo call pool 0 { rest := call.srcUri }
    { poolUsed := 0, inputOffset := 0, pool, out := {} } :=
    ⟨[], ⟨rfl, rfl, Nat.zero_le _, .refl 0 0 pool, .nil, rfl, rfl⟩, rfl⟩
  rw [readScheme, parseScheme]
  cases hscheme : schemeLen call.srcUri with
  | none =>
    exact component_keepsUp hwrite hpool hstart (by omega) (by omega)
      (copyString_fills _ (slice_of_le (Nat.le_refl 0)) List.not_mem_nil) ⟨rfl, rfl⟩ ⟨rfl, rfl⟩ rfl
  | some n =>
    exact component_keepsUp hwrite hpool hstart (Nat.le_refl _) (Nat.le_succ _)
      (copyString_fills _ (slice_of_le (by rw [Nat.zero_add]; exact schemeLen_le hscheme))
        (nul_range (r := { rest := call.srcUri }) hnul 0 n))
      ⟨rfl, rfl⟩ ⟨rfl, rfl⟩ rfl

theorem parseParts_keepsUp : KeepsUp call pool 0 7 (readParts call.srcUri)
    (parseParts call { poolUsed := 0, inputOffset := 0, pool, out := {} }) :=
  (((((((parseScheme_keepsUp hwrite hpool hnul).andThen readSlashes_grows fun _ _ =>
    parseSlashes_keepsUp hwrite).andThen
    readUserinfo_grows fun _ _ =>
      parseUserinfo_keepsUp hwrite hpool hnul).andThen readHost_grows fun _ _ =>
    parseHost_keepsUp hwrite hpool hnul).andThen readPort_grows fun _ _ =>
      parsePort_keepsUp hwrite).andThen
    readPath_grows fun _ _ => parsePath_keepsUp hwrite hpool hnul).andThen
      (readMarked_grows _ _ _) fun _ _ =>
    parseQuery_keepsUp hwrite hpool hnul).andThen (readMarked_grows _ _ _) fun _ _ =>
    parseFragment_keepsUp hwrite hpool hnul

end Stages

/-! ### Measuring and writing -/

section Calls

variable {srcUri pool : List UInt8} {prepare : ℕ}

/-- The element stands for the parts of a URI. -/
structure Denotes (pool : List UInt8) (out : OrbisHttpUriElement) (parts : UriParts) : Prop where
  isOpaque : out.isOpaque = parts.isOpaque
  port : out.port = parts.port
  fields : ∀ field ∈ uriFields out parts, ∃ start, field.1 = some start ∧
    cString pool start = some field.2

/-- The call has written the strings of the element, one behind the other, to the first `n` bytes of
the pool. -/
def UriOutcome.WritesStrings (outcome : UriOutcome) (pool : List UInt8) (n : ℕ) (parts : UriParts) :
    Prop :=
  ∃ (out' : OrbisHttpUriElement) (pool' : List UInt8) (strings : List (ℕ × List UInt8)),
    outcome.out = some out' ∧ outcome.pool = some pool' ∧ Within 0 n pool pool' ∧
    Denotes pool' out' parts ∧ uriFields out' parts = strings.map (Prod.map some id) ∧
    (∀ s ∈ strings, cString pool' s.1 = some s.2 ∧ s.1 + s.2.length < n) ∧
    strings.Pairwise fun s t => s.1 + s.2.length < t.1

theorem WrittenUpTo.denotes {call : UriCall} {r : UriReading} {s : UriState}
    (h : WrittenUpTo call pool 7 r s) :
    Denotes s.pool s.out r.parts := by
  obtain ⟨strings, hwritten, hstrings⟩ := h
  refine ⟨hwritten.isOpaque, hwritten.port, fun field hfield => ?_⟩
  rw [show uriFields s.out r.parts = strings.map (Prod.map some id) from hstrings] at hfield
  obtain ⟨⟨start, text⟩, hmem, rfl⟩ := List.mem_map.mp hfield
  exact ⟨start, rfl, (hwritten.table.disjoint.1 _ hmem).2.1⟩

theorem sceHttpUriParse_query (srcUri : List UInt8) (require prepare : ℕ) :
    (∃ status r, readParts srcUri = some (.stopped status r) ∧
      sceHttpUriParse none (some srcUri) none (some require) prepare = some ⟨status, none, none,
        some require⟩) ∨
    ∃ r, readParts srcUri = some (.goesOn r) ∧
      sceHttpUriParse none (some srcUri) none (some require) prepare = some ⟨.ok, none, none,
        some r.size⟩ := by
  have halike := parseParts_alike srcUri [] prepare {}
  rw [sceHttpUriParse]
  simp only [Option.isSome, Bool.and_self, Option.getD_none]
  rw [if_neg fun h => Option.some_ne_none _ h.2]
  cases hread : readParts srcUri with
  | none =>
    rw [hread] at halike
    cases halike
  | some step =>
    rw [hread] at halike
    cases hrun : parseParts ⟨srcUri, false,
      prepare⟩ { poolUsed := 0, inputOffset := 0, pool := [], out := {} } with
    | none =>
      rw [hrun] at halike
      cases halike
    | some step' =>
      rw [hrun] at halike
      cases halike with
      | stopped => exact .inl ⟨_, _, rfl, rfl⟩
      | goesOn goes => exact .inr ⟨_, rfl, by rw [← goes.used]; rfl⟩

/-- The writing call: it stops as the reading does, or runs out of memory where the pool is too
small, or goes on. -/
theorem sceHttpUriParse_writing (hnul : 0 ∉ srcUri) (hpool : prepare ≤ pool.length)
    (out : OrbisHttpUriElement) (require : Option ℕ) :
    ∃ writing, sceHttpUriParse (some out) (some srcUri) (some pool) require prepare = some writing ∧
      ((∃ status r, readParts srcUri = some (.stopped status r) ∧
        (writing.status = status ∨ writing.status = .outOfMemory)) ∨
      ∃ r, readParts srcUri = some (.goesOn r) ∧
        (prepare < r.size → writing.status = .outOfMemory ∧ ∃ pool', writing.pool = some pool' ∧
          Within 0 prepare pool pool') ∧
        (r.size ≤ prepare → writing.status = .ok ∧ writing.require = require.map (fun _ => r.size) ∧
          writing.WritesStrings pool r.size r.parts)) := by
  have hkeepsUp := @parseParts_keepsUp ⟨srcUri, true, prepare⟩ pool rfl hpool hnul
  rw [sceHttpUriParse]
  simp only [Option.isSome, Bool.and_self, Option.getD_some]
  rw [if_neg fun h => h.1 trivial]
  cases hread : readParts srcUri with
  | none =>
    rw [hread] at hkeepsUp
    cases hkeepsUp
  | some step =>
    rw [hread] at hkeepsUp
    cases hrun : parseParts ⟨srcUri, true,
      prepare⟩ { poolUsed := 0, inputOffset := 0, pool, out := {} } with
    | none =>
      rw [hrun] at hkeepsUp
      cases hkeepsUp
    | some step' =>
      rw [hrun] at hkeepsUp
      cases hkeepsUp with
      | stopped kept => exact ⟨_, rfl, .inl ⟨_, _, rfl, .inl rfl⟩⟩
      | starvedStopped kept => exact ⟨_, rfl, .inl ⟨_, _, rfl, .inr rfl⟩⟩
      | starvedGoesOn kept short =>
        exact ⟨_, rfl, .inr ⟨_, rfl, fun _ => ⟨rfl, _, rfl, kept⟩,
          fun hfits => absurd short (Nat.not_lt.mpr hfits)⟩⟩
      | @goesOn r s goes =>
        obtain ⟨strings, hwritten, hstrings⟩ := goes
        have hfits := hwritten.fits
        have hused := hwritten.used
        refine ⟨_, rfl, .inr ⟨r, rfl, fun hshort => absurd hfits ?_, fun _ => ⟨rfl, ?_, ?_⟩⟩⟩
        · dsimp only
          omega
        · dsimp only
          rw [hused]
        · refine ⟨s.out, s.pool, strings, rfl, rfl, ?_,
            WrittenUpTo.denotes ⟨strings, hwritten, hstrings⟩, hstrings, ?_,
            hwritten.table.disjoint.2⟩
          · rw [← hused]
            exact hwritten.within
          · intro string hmem
            obtain ⟨-, hstring, hlt⟩ := hwritten.table.disjoint.1 string hmem
            rw [← hused]
            exact ⟨hstring, hlt⟩

/-- The size query and the writing call read the same parts: both refuse the URI, or the query asks
for the bytes of the parts and the writing call writes them when it gets as many. -/
theorem sceHttpUriParse_measures (hnul : 0 ∉ srcUri) (hpool : prepare ≤ pool.length)
    (out : OrbisHttpUriElement) (require : Option ℕ) (require₀ prepare₀ : ℕ) :
    ∃ query writing,
      sceHttpUriParse none (some srcUri) none (some require₀) prepare₀ = some query ∧
      sceHttpUriParse (some out) (some srcUri) (some pool) require prepare = some writing ∧
      (writing.status = query.status ∨ writing.status = .outOfMemory) ∧
      ((query.status = .invalidUrl ∧ ∃ r, readParts srcUri = some (.stopped .invalidUrl r)) ∨
        query.status = .ok ∧ ∃ r, readParts srcUri = some (.goesOn r) ∧
          query.require = some r.size ∧
          (r.size ≤ prepare → writing.status = .ok ∧
            writing.require = require.map (fun _ => r.size) ∧
            writing.WritesStrings pool r.size r.parts) ∧
          (prepare < r.size → writing.status = .outOfMemory ∧
            ∃ pool', writing.pool = some pool' ∧ Within 0 prepare pool pool')) := by
  obtain ⟨writing, hwriting, hcases⟩ := sceHttpUriParse_writing hnul hpool out require
  obtain ⟨status, r, hread, hquery⟩ | ⟨r, hread, hquery⟩ :=
    sceHttpUriParse_query srcUri require₀ prepare₀
  · obtain ⟨status', r', hread', hstatus⟩ | ⟨r', hread', -⟩ := hcases
    · obtain ⟨rfl, rfl⟩ := Step.stopped.inj (Option.some.inj (hread.symm.trans hread'))
      obtain rfl := readParts_stops srcUri _ _ hread
      exact ⟨_, writing, hquery, hwriting, hstatus, .inl ⟨rfl, r, hread⟩⟩
    · cases hread.symm.trans hread'
  · obtain ⟨status', r', hread', -⟩ | ⟨r', hread', hshort, hfits⟩ := hcases
    · cases hread.symm.trans hread'
    · obtain rfl := Step.goesOn.inj (Option.some.inj (hread.symm.trans hread'))
      refine ⟨_, writing, hquery, hwriting, ?_, .inr ⟨rfl, r, hread, rfl, hfits, hshort⟩⟩
      rcases Nat.lt_or_ge prepare r.size with hlt | hge
      · exact .inr (hshort hlt).1
      · exact .inl (hfits hge).1

/-- `http://a/b` takes 14 bytes. -/
theorem sceHttpUriParse_measures_http :
    ∃ query writing, sceHttpUriParse none (some [104, 116, 116, 112, 58, 47, 47, 97, 47, 98]) none
        (some 0) 0 = some query ∧
      sceHttpUriParse (some {}) (some [104, 116, 116, 112, 58, 47, 47, 97, 47, 98])
        (some (List.replicate 20 1)) none 15 = some writing ∧
      query.status = .ok ∧ query.require = some 14 ∧ writing.status = .ok ∧
      writing.WritesStrings (List.replicate 20 1) 14
        { scheme := [104, 116, 116, 112], hostname := [97], port := 80, path := [47, 98] } := by
  have hparts : readParts [104, 116, 116, 112, 58, 47, 47, 97, 47, 98] = some (.goesOn ⟨[], 14,
      { scheme := [104, 116, 116, 112], hostname := [97], port := 80, path := [47, 98] }⟩) := rfl
  obtain ⟨query, writing, hquery, hwriting, -,
    ⟨-, r, hread⟩ | ⟨hok, r, hread, hrequire, hfits, -⟩⟩ :=
    @sceHttpUriParse_measures [104, 116, 116, 112, 58, 47, 47, 97, 47, 98] (List.replicate 20 1) 15
      (by decide) (by decide) {} none 0 0
  · cases hparts.symm.trans hread
  · obtain rfl := Step.goesOn.inj (Option.some.inj (hparts.symm.trans hread))
    obtain ⟨hstatus, -, hstrings⟩ := hfits (by decide)
    exact ⟨query, writing, hquery, hwriting, hok, hrequire, hstatus, hstrings⟩

end Calls

end PS4Droid.Network.Http
