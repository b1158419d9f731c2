import PS4Droid.Memory.Runs

/-!
# Where the areas of a physical map start

Whether a piece can be carved depends on the places where areas start. Retyping a piece moves them:
at both ends of the piece an area starts afterwards exactly where the attributes change.
-/

namespace PS4Droid.Memory

open OrderedMap IntervalMap Segments MemoryManager

namespace PhysMap

variable {m m' l r : PhysMap} {addr size total q : ℕ}

/-- An area starts at `q`. -/
def Starts (m : PhysMap) (q : ℕ) : Prop := q ∈ m.map Prod.fst

theorem starts_iff : Starts m q ↔ ∃ a, (q, a) ∈ m := by
  simp [Starts]

/-- Two neighbouring bytes belong to one area, unless an area starts between them. -/
theorem exists_area (hc : Contiguous 0 m total) (hq : 0 < q ∧ q < total) (hstarts : ¬Starts m q) :
    ∃ e ∈ m, e.1 ≤ q - 1 ∧ q < e.1 + e.2.size := by
  obtain ⟨⟨k, a⟩, he, hle, hlt⟩ := (hc.covers q).mpr ⟨Nat.zero_le q, hq.2⟩
  simp only at hle hlt
  have hne : k ≠ q := by
    rintro rfl
    exact hstarts (starts_iff.mpr ⟨a, he⟩)
  exact ⟨(k, a), he, by simp only; omega, hlt⟩

theorem attributesAt_mem (hv : Valid m) {e : ℕ × PhysicalMemoryArea} (he : e ∈ m) {p : ℕ}
    (hp : e.1 ≤ p ∧ p < e.1 + e.2.size) : m.attributesAt p = some (e.2.attributes 0) :=
  viewAt_eq _ hv.tiling he hp

theorem not_starts_inside (hv : Valid m) {e : ℕ × PhysicalMemoryArea} (he : e ∈ m)
    (hq : e.1 < q ∧ q < e.1 + e.2.size) : ¬Starts m q := by
  intro hstarts
  obtain ⟨a, ha⟩ := starts_iff.mp hstarts
  have hpos : 0 < a.size := hv.tiling.pos _ ha
  have :=
    within_unique hv.tiling he ha (x := q) (by unfold Within; simp only [physKind_size]; omega)
    (by unfold Within; simp only [physKind_size]; omega)
  rw [this] at hq
  simp only at hq
  omega

/-- A piece lies in one area exactly when no area starts inside of it. -/
theorem exists_part_iff (hv : Valid m) (hc : Contiguous 0 m total) (hpos : 0 < size) :
    (∃ l k a r, Around m l (k, a) r ∧ Part k a.size addr size) ↔
      addr + size ≤ total ∧ ∀ q, addr < q ∧ q < addr + size → ¬Starts m q := by
  constructor
  · rintro ⟨l, k, a, r, ha, hp⟩
    have hstart := hp.start
    have hstop := hp.stop
    have hend := hc.mem ha.mem
    simp only at hend
    exact ⟨by omega, fun q hq => not_starts_inside hv ha.mem (by simp only; omega)⟩
  · rintro ⟨hend, hnone⟩
    obtain ⟨⟨k, a⟩, he, hle, hlt⟩ := (hc.covers addr).mpr ⟨Nat.zero_le addr, by omega⟩
    simp only at hle hlt
    obtain ⟨l, r, ha⟩ := hv.sorted.around he
    refine ⟨l, k, a, r, ha, hpos, hle, ?_⟩
    by_contra hshort
    -- Otherwise the area ends inside of the piece, and there the next one starts.
    obtain ⟨f, hf, hfle, hflt⟩ :=
      exists_area hc ⟨by omega, by omega⟩ (hnone (k + a.size) (by omega))
    have := within_unique hv.tiling he hf (x := k + a.size - 1)
      (by unfold Within; simp only [physKind_size]; omega)
        (by unfold Within; simp only [physKind_size]; omega)
    rw [← this] at hflt
    simp only at hflt
    omega

variable {a x b : PhysicalMemoryArea}

/-- Away from the ends of the piece a carve leaves the starts as they are. -/
theorem starts_changed {k : ℕ} {f : PhysicalMemoryArea → PhysicalMemoryArea}
    (ha : Around m l (k, a) r) (hp : Part k a.size addr size) (hne : q ≠ addr ∧ q ≠ addr + size) :
    Starts (changed l k a r addr size f) q ↔ Starts m q := by
  have hstart := hp.start
  have hstop := hp.stop
  have hlead : q ∈ (physKind.leading k a (addr - k) (addr - k + size)).map Prod.fst ↔ q = k := by
    unfold leading
    split_ifs with hfirst
    · simp
    · simp only [List.map_nil, List.not_mem_nil, false_iff]
      omega
  have htrail : q ∉ (physKind.trailing k a (addr - k + size)).map Prod.fst := by
    unfold trailing
    split_ifs with hlast
    · simp only [List.map_cons, List.map_nil, List.mem_singleton]
      omega
    · simp
  rw [Starts, Starts, changed, ha.eq]
  simp only [List.map_append, List.map_cons, List.mem_append, List.mem_cons]
  rw [hlead]
  tauto

/-- A merge only removes the start of the merged area and of the one behind it. -/
theorem starts_merged {a' : PhysicalMemoryArea} {l' r' : PhysMap} {h' : ℕ}
    (hr : ∀ e ∈ r.head?, e.1 = addr + size) (hnext : AbsorbsNext physKind x r b r')
    (hprev : AbsorbsPrev physKind addr b l l' h' a') (hne : q ≠ addr ∧ q ≠ addr + size) :
    Starts (l' ++ (h', a') :: r') q ↔ Starts (l ++ (addr, x) :: r) q := by
  have hbehind : q ∈ r'.map Prod.fst ↔ q ∈ r.map Prod.fst := by
    cases hnext with
    | keep => rfl
    | absorb k b r' hm =>
      obtain rfl : k = addr + size := hr (k, b) rfl
      simp [hne.2]
  have hfront : (q ∈ l'.map Prod.fst ∨ q = h') ↔ q ∈ l.map Prod.fst ∨ q = addr := by
    cases hprev with
    | keep => rfl
    | absorb l' k b hm => simp [hne.1]
  rw [Starts, Starts]
  simp only [List.map_append, List.map_cons, List.mem_append, List.mem_cons]
  tauto

theorem contiguous_last {start stop : ℕ} (hc : Contiguous start l stop) (hlt : start < stop) :
    ∃ l' k a, l = l' ++ [(k, a)] ∧ k + a.size = stop ∧ 0 < a.size := by
  rcases List.eq_nil_or_concat l with rfl | ⟨l', ⟨k, a⟩, rfl⟩
  · have : start = stop := hc
    omega
  · rw [List.concat_eq_append] at hc ⊢
    obtain ⟨mid, -, hlast⟩ := hc.of_append
    obtain ⟨rfl, hpos, -, hend⟩ := hlast
    exact ⟨l', k, a, rfl, hend, hpos⟩

theorem canMerge_of_attributes (hb : a.Bounded) (hadj : a.base + a.size = b.base)
    (hattr : a.attributes 0 = b.attributes 0) : physKind.canMerge a b = .ok true := by
  obtain ⟨htype, hdma⟩ := Prod.mk.inj hattr
  have hmerge : a.canMergeWith b = true := by
    rw [PhysicalMemoryArea.canMergeWith, add64_eq hb, hadj, htype, hdma]
    simp
  exact congrArg Except.ok hmerge

/-- After a merge, an area starts at an end of the merged area exactly where the attributes
change. -/
theorem mergeAdjacent_starts {h : ℕ} (hv : Valid m) (hc : Contiguous 0 m total)
    (ha : Around m l (addr, x) r) (hsize : x.size = size)
    (hmerge : mergeAdjacent m addr = .ok (m', h))
    (hq : 0 < q ∧ q < total) :
    Starts m' q ↔ if q = addr ∨ q = addr + size then m'.attributesAt (q - 1) ≠ m'.attributesAt q
      else Starts m q := by
  subst hsize
  have hrecut := mergeAdjacent_recut physKind_lawful hv hmerge
  have hv' : Valid m' := hrecut.valid physKind_lawful hv
  have hattr : ∀ p, m'.attributesAt p = m.attributesAt p :=
    hrecut.viewAt_eq physKind_lawful physKind_attributes
  have hc' : Contiguous 0 m' total := contiguous_of_covers hv' (Nat.zero_le total) fun p =>
    (hrecut.covers physKind_lawful p).trans (hc.covers p)
  have hbase : x.base = addr := hv.keyed _ ha.mem
  have hpos : 0 < x.size := hv.tiling.pos _ ha.mem
  have hx : ∀ p, addr ≤ p ∧ p < addr + x.size → m.attributesAt p = some (x.attributes 0) :=
    fun p hp =>
    attributesAt_mem hv ha.mem hp
  obtain ⟨mid, hl, hr⟩ := (ha.eq ▸ hc : Contiguous 0 (l ++ (addr, x) :: r) total).of_append
  obtain ⟨rfl, -, -, hr⟩ := hr
  by_cases hend : q = addr ∨ q = addr + x.size
  · rw [if_pos hend]
    constructor
    · intro hstarts heq
      obtain ⟨c, hmem⟩ := starts_iff.mp hstarts
      rw [hattr, hattr] at heq
      rcases hend with rfl | rfl
      · -- The area in front would have absorbed the merged one.
        obtain ⟨l', k, b, rfl, hlast, hposb⟩ := contiguous_last hl hq.1
        have hb : (k, b) ∈ m := by
          rw [ha.eq]
          simp
        have hbaseb : b.base = k := hv.keyed _ hb
        rw [attributesAt_mem hv hb (by simp only; omega), hx _ (by omega), Option.some.injEq] at heq
        refine mergeAdjacent_gone hv.sorted ha (fun x' r' habs => ?_) hmerge (q, c) hmem rfl
        cases habs with
        | keep => exact canMerge_of_attributes (hv.wf _ hb) (by omega) heq
        | absorb =>
            exact canMerge_of_attributes (hv.wf _ hb) (by simp only [physKind_join]; omega) heq
      · -- The merged area would have absorbed the one behind it.
        obtain ⟨b, rest, rfl⟩ := hr.head hq.2
        have hb : (addr + x.size, b) ∈ m := by
          rw [ha.eq]
          simp
        have hbaseb : b.base = addr + x.size := hv.keyed _ hb
        have hposb : 0 < b.size := hv.tiling.pos _ hb
        rw [hx _ (by omega), attributesAt_mem hv hb (by simp only; omega), Option.some.injEq] at heq
        exact mergeAdjacent_next_gone hv.sorted ha
          (canMerge_of_attributes (hv.wf _ ha.mem) (by omega) heq) hmerge _ hmem
          rfl
    · intro hdiffer
      by_contra hnot
      obtain ⟨e, he, hle, hlt⟩ := exists_area hc' hq hnot
      refine hdiffer ?_
      rw [attributesAt_mem hv' he (by omega), attributesAt_mem hv' he (by omega)]
  · rw [if_neg hend]
    obtain ⟨l', b, a', r', ha', hnext, hprev⟩ := mergeAdjacent_shape hv.sorted ha hmerge
    have hhead : ∀ e ∈ r.head?, e.1 = addr + x.size := by
      intro e he
      cases r with
      | nil => cases he
      | cons f rest =>
        cases he
        exact hr.1
    rw [ha'.eq, ha.eq]
    exact starts_merged hhead hnext hprev (not_or.mp hend)

/-- After a piece has been retyped, an area starts at an end of it exactly where the attributes
change; the other starts have stayed. -/
theorem retypePiece_starts {t : PhysicalMemoryType} (hv : Valid m) (hc : Contiguous 0 m total)
    (hsize : size < 2 ^ 64) (hr : retypePiece t addr size m = .ok m') (hq : 0 < q ∧ q < total) :
    Starts m' q ↔ if q = addr ∨ q = addr + size then m'.attributesAt (q - 1) ≠ m'.attributesAt q
      else Starts m q := by
  obtain ⟨⟨m₂, h₂, c⟩, hretype, rfl⟩ := map_ok hr
  obtain ⟨⟨m₁, h₁, x⟩, hcarve, hretype⟩ := bind_ok hretype
  obtain ⟨⟨m₂', h₂'⟩, hmerge, hretype⟩ := bind_ok hretype
  cases hretype
  obtain ⟨rfl, l, k, a, r, ha, hp, rfl, rfl⟩ := carveWith_shape hv hsize hcarve
  have hf : Reattributes ({ · with dmaType := t }) := ⟨fun _ => rfl, fun _ => rfl⟩
  have hrw := changed_rewritten hv hf ha hp
  have hv₁ := hrw.valid physKind_lawful hv
  have hc₁ := contiguous_of_covers hv₁ (Nat.zero_le total) fun p =>
    (hrw.covers physKind_lawful p).trans (hc.covers p)
  have hstarts : Starts m₂ q ↔ if q = h₁ ∨ q = h₁ + size then
    m₂.attributesAt (q - 1) ≠ m₂.attributesAt q
      else Starts (changed l k a r h₁ size ({ · with dmaType := t })) q :=
    mergeAdjacent_starts hv₁ hc₁ (changed_around hv hf ha hp) (show _ = size from rfl) hmerge hq
  by_cases hend : q = h₁ ∨ q = h₁ + size
  · rw [if_pos hend] at hstarts ⊢
    exact hstarts
  · rw [if_neg hend] at hstarts ⊢
    exact hstarts.trans (starts_changed ha hp (not_or.mp hend))

/-! ### Retyping one piece after the other -/

/-- The byte `p` belongs to one of the pieces. -/
def InPieces (pieces : List (ℕ × ℕ)) (p : ℕ) : Prop := ∃ e ∈ pieces, e.1 ≤ p ∧ p < e.1 + e.2

/-- The place `q` lies in one of the pieces or at an end of one. -/
def Touches (pieces : List (ℕ × ℕ)) (q : ℕ) : Prop := ∃ e ∈ pieces, e.1 ≤ q ∧ q ≤ e.1 + e.2

instance (pieces : List (ℕ × ℕ)) (p : ℕ) : Decidable (InPieces pieces p) :=
  inferInstanceAs (Decidable (∃ e ∈ pieces, e.1 ≤ p ∧ p < e.1 + e.2))

instance (pieces : List (ℕ × ℕ)) (q : ℕ) : Decidable (Touches pieces q) :=
  inferInstanceAs (Decidable (∃ e ∈ pieces, e.1 ≤ q ∧ q ≤ e.1 + e.2))

/-- The attributes of a byte once the pieces have the type `t`. -/
def attributesAfter (t : PhysicalMemoryType) (m : PhysMap) (pieces : List (ℕ × ℕ)) (p : ℕ) :
    Option (ℤ × PhysicalMemoryType) :=
  if InPieces pieces p then (m.attributesAt p).map (retag t) else m.attributesAt p

/-- An area starts at `q` once the pieces have the type `t`. -/
def StartsAfter (t : PhysicalMemoryType) (m : PhysMap) (pieces : List (ℕ × ℕ)) (q : ℕ) : Prop :=
  if Touches pieces q then attributesAfter t m pieces (q - 1) ≠ attributesAfter t m pieces q
    else Starts m q

/-- Each piece lies in one area when its turn comes. -/
def Fitting (t : PhysicalMemoryType) (m : PhysMap) (total : ℕ) (pieces : List (ℕ × ℕ)) : Prop :=
  ∀ before e after, pieces = before ++ e :: after →
    e.1 + e.2 ≤ total ∧ ∀ q, e.1 < q ∧ q < e.1 + e.2 → ¬StartsAfter t m before q

def retypePieces (t : PhysicalMemoryType) (pieces : List (ℕ × ℕ)) (m : PhysMap) :
    Except Fault PhysMap :=
  pieces.foldlM (fun m e => retypePiece t e.1 e.2 m) m

variable {t : PhysicalMemoryType} {before pieces : List (ℕ × ℕ)} {e : ℕ × ℕ} {p : ℕ}

theorem retypePieces_append (pieces pieces' : List (ℕ × ℕ)) (m : PhysMap) :
    retypePieces t (pieces ++ pieces') m = retypePieces t pieces m >>= retypePieces t pieces' := by
  rw [retypePieces, List.foldlM_append]
  rfl

theorem inPieces_snoc : InPieces (before ++ [e]) p ↔ InPieces before p ∨
    (e.1 ≤ p ∧ p < e.1 + e.2) := by
  simp only [InPieces, List.mem_append, List.mem_singleton, or_and_right, exists_or, exists_eq_left]

theorem touches_snoc : Touches (before ++ [e]) q ↔ Touches before q ∨
    (e.1 ≤ q ∧ q ≤ e.1 + e.2) := by
  simp only [Touches, List.mem_append, List.mem_singleton, or_and_right, exists_or, exists_eq_left]

theorem attributesAfter_snoc : attributesAfter t m (before ++ [e]) p =
    if e.1 ≤ p ∧ p < e.1 + e.2 then (attributesAfter t m before p).map (retag t)
    else attributesAfter t m before p := by
  unfold attributesAfter
  by_cases hbefore : InPieces before p
  · rw [if_pos (inPieces_snoc.mpr (.inl hbefore)), if_pos hbefore]
    split_ifs
    · cases m.attributesAt p <;> rfl
    · rfl
  · rw [if_neg hbefore]
    by_cases hin : e.1 ≤ p ∧ p < e.1 + e.2
    · rw [if_pos (inPieces_snoc.mpr (.inr hin)), if_pos hin]
    · rw [if_neg (fun h => (inPieces_snoc.mp h).elim hbefore hin), if_neg hin]

/-- The map once the pieces have the type `t`. -/
structure RetypedPieces (t : PhysicalMemoryType) (m : PhysMap) (total : ℕ) (pieces : List (ℕ × ℕ))
    (m' : PhysMap) :
    Prop where
  valid : Valid m'
  contiguous : Contiguous 0 m' total
  attributes : ∀ p, m'.attributesAt p = attributesAfter t m pieces p
  starts : ∀ q, 0 < q ∧ q < total → (Starts m' q ↔ StartsAfter t m pieces q)

theorem RetypedPieces.nil (hv : Valid m) (hc : Contiguous 0 m total) :
    RetypedPieces t m total [] m := by
  refine ⟨hv, hc, fun p => ?_, fun q _ => ?_⟩
  · rw [attributesAfter, if_neg (by simp [InPieces])]
  · rw [StartsAfter, if_neg (by simp [Touches])]

/-- One more piece. Inside of it both sides of a place have kept equal attributes, so that only its
ends matter. -/
theorem RetypedPieces.snoc {m₁ : PhysMap} (h : RetypedPieces t m total before m₁)
    (hsize : e.2 < 2 ^ 64)
    (hr : retypePiece t e.1 e.2 m₁ = .ok m') : RetypedPieces t m total (before ++ [e]) m' := by
  have hchanged := retypePiece_changed h.valid hsize hr
  have hpos := hchanged.pos
  obtain ⟨attributes, huniform⟩ := hchanged.uniform
  have hattr : ∀ p, m'.attributesAt p = attributesAfter t m (before ++ [e]) p := by
    intro p
    rw [hchanged.attributes, attributesAfter_snoc, h.attributes]
  have hcovers : ∀ p, Covers physKind.size m' p ↔ Covers physKind.size m₁ p := by
    intro p
    rw [← attributesAt_isSome_iff, ← attributesAt_isSome_iff, hchanged.attributes]
    split_ifs <;> simp
  refine ⟨hchanged.valid, contiguous_of_covers hchanged.valid (Nat.zero_le _) fun p =>
    (hcovers p).trans (h.contiguous.covers p), hattr, fun q hq => ?_⟩
  rw [retypePiece_starts h.valid h.contiguous hsize hr hq, StartsAfter]
  by_cases hend : q = e.1 ∨ q = e.1 + e.2
  · rw [if_pos hend, if_pos (touches_snoc.mpr (.inr (by omega))), hattr, hattr]
  · rw [if_neg hend]
    by_cases hin : e.1 < q ∧ q < e.1 + e.2
    · -- The piece lay in one area, so no area starts here and the attributes agree.
      have heq : attributesAfter t m before (q - 1) = attributesAfter t m before q := by
        rw [← h.attributes, ← h.attributes, huniform _ (by omega), huniform _ (by omega)]
      have hnot : ¬Starts m₁ q := by
        obtain ⟨⟨m₂, h₂, c⟩, hretype, -⟩ := map_ok hr
        have hf : Reattributes ({ · with dmaType := t }) := ⟨fun _ => rfl, fun _ => rfl⟩
        obtain ⟨l, k, a, r, ha, hp, -⟩ := retype_shape h.valid hsize hf hretype
        have hstart := hp.start
        have hstop := hp.stop
        exact not_starts_inside h.valid ha.mem (by simp only; omega)
      have hfirst : e.1 ≤ q - 1 ∧ q - 1 < e.1 + e.2 := by omega
      have hsecond : e.1 ≤ q ∧ q < e.1 + e.2 := by omega
      rw [if_pos (touches_snoc.mpr (.inr (by omega))), attributesAfter_snoc, attributesAfter_snoc,
        if_pos hfirst, if_pos hsecond, heq]
      exact iff_of_false hnot (not_not_intro rfl)
    · have houtside : ¬(e.1 ≤ q ∧ q ≤ e.1 + e.2) := by omega
      have hfirst : ¬(e.1 ≤ q - 1 ∧ q - 1 < e.1 + e.2) := by omega
      have hsecond : ¬(e.1 ≤ q ∧ q < e.1 + e.2) := by omega
      rw [h.starts q hq, StartsAfter]
      by_cases hbefore : Touches before q
      · rw [if_pos hbefore, if_pos (touches_snoc.mpr (.inl hbefore)), attributesAfter_snoc,
          attributesAfter_snoc, if_neg hfirst, if_neg hsecond]
      · rw [if_neg hbefore, if_neg fun h => (touches_snoc.mp h).elim hbefore houtside]

theorem fitting_snoc : Fitting t m total (before ++ [e]) ↔ Fitting t m total before ∧
    e.1 + e.2 ≤ total ∧ ∀ q, e.1 < q ∧ q < e.1 + e.2 → ¬StartsAfter t m before q := by
  constructor
  · intro h
    refine ⟨fun front f after heq => h front f (after ++ [e]) (by simp [heq]), h before e [] rfl⟩
  · rintro ⟨hbefore, hlast⟩ front f after heq
    rcases List.eq_nil_or_concat after with rfl | ⟨after, g, rfl⟩
    · obtain ⟨rfl, rfl⟩ := List.append_inj' heq rfl |>.imp id (by simpa using ·)
      exact hlast
    · rw [List.concat_eq_append, ← List.cons_append, ← List.append_assoc] at heq
      exact hbefore front f after (List.append_inj' heq rfl).1

theorem retypePiece_ok_iff (hv : Valid m) (hc : Contiguous 0 m total)
    (hpos : 0 < size ∧ size < 2 ^ 64) :
    (∃ m', retypePiece t addr size m = .ok m') ↔
      addr + size ≤ total ∧ ∀ q, addr < q ∧ q < addr + size → ¬Starts m q := by
  rw [← exists_part_iff hv hc hpos.1]
  have hf : Reattributes ({ · with dmaType := t }) := ⟨fun _ => rfl, fun _ => rfl⟩
  constructor
  · rintro ⟨m', hr⟩
    obtain ⟨⟨m₁, h₁, b⟩, hretype, rfl⟩ := map_ok hr
    obtain ⟨l, k, a, r, ha, hp, -⟩ := retype_shape hv hpos.2 hf hretype
    exact ⟨l, k, a, r, ha, hp⟩
  · rintro ⟨l, k, a, r, ha, hp⟩
    obtain ⟨m', h', hr, -⟩ := retype_ok hv hf ha hp
    exact ⟨m', by rw [retypePiece, hr]; rfl⟩

/-- The pieces can be retyped one after the other exactly when they fit. -/
theorem retypePieces_iff (hv : Valid m) (hc : Contiguous 0 m total)
    (hpieces : ∀ e ∈ pieces, 0 < e.2 ∧ e.2 < 2 ^ 64) :
    ((∃ m', retypePieces t pieces m = .ok m') ↔ Fitting t m total pieces) ∧
      ∀ m', retypePieces t pieces m = .ok m' → RetypedPieces t m total pieces m' := by
  induction pieces using List.reverseRecOn with
  | nil =>
    refine ⟨iff_of_true ⟨m, rfl⟩ (by simp [Fitting]), fun m' h => ?_⟩
    cases h
    exact .nil hv hc
  | append_singleton before e ih =>
    obtain ⟨hiff, hdone⟩ := ih fun f hf => hpieces f (by simp [hf])
    have he := hpieces e (by simp)
    have hsplit : retypePieces t (before ++ [e]) m = retypePieces t before m >>=
      retypePiece t e.1 e.2 := by
      rw [retypePieces_append]
      exact bind_congr fun m₁ => by simp [retypePieces]
    rw [hsplit, fitting_snoc]
    constructor
    · constructor
      · rintro ⟨m', h⟩
        obtain ⟨m₁, h₁, h⟩ := bind_ok h
        have hr := hdone m₁ h₁
        obtain ⟨hend, hnone⟩ := (retypePiece_ok_iff hr.valid hr.contiguous he).mp ⟨m', h⟩
        exact ⟨hiff.mp ⟨m₁, h₁⟩, hend,
          fun q hq hstarts => hnone q hq ((hr.starts q (by omega)).mpr hstarts)⟩
      · rintro ⟨hbefore, hend, hnone⟩
        obtain ⟨m₁, h₁⟩ := hiff.mpr hbefore
        have hr := hdone m₁ h₁
        rw [h₁, ok_bind]
        refine (retypePiece_ok_iff hr.valid hr.contiguous he).mpr ⟨hend, fun q hq hstarts => ?_⟩
        exact hnone q hq ((hr.starts q (by omega)).mp hstarts)
    · intro m' h
      obtain ⟨m₁, h₁, h⟩ := bind_ok h
      exact (hdone m₁ h₁).snoc he.2 h

end PhysMap

end PS4Droid.Memory
