import PS4Droid.Foundations.IntervalMap

/-!
# Cutting and joining the segments of an interval map

A `Segments` value says how the values of an ordered map describe intervals: the
base and the size of a segment, its part in front of and behind a cut, and how
two neighbours are joined when they may be. The three map operations built from
it are the usual ones of an address-space manager: cut the node of a handle in
two, carve a range out of it, and merge a node with its neighbours.

`Recut` relates two maps that differ by cuts and joins. It keeps a valid map
valid, leaves the value of every point alone (`LawfulView`) and leaves every
additive total alone (`LawfulWeight`). The operations are then described by an
equation or a shape, and by a `Recut`.
-/

open OrderedMap IntervalMap

/-- How the values of an ordered map describe intervals, and the two errors an operation may
raise: a handle that points at no node, and a cut outside its segment. -/
structure Segments (ε γ : Type) where
  base : γ → ℕ
  size : γ → ℕ
  front : γ → ℕ → γ
  back : γ → ℕ → γ
  canMerge : γ → γ → Except ε Bool
  join : γ → γ → γ
  dangling : ε
  badOffset : ε

namespace Segments

variable {ε γ β : Type} (K : Segments ε γ)

/-- The value of the node at `handle`. -/
def node (map : List (ℕ × γ)) (handle : ℕ) : Except ε γ :=
  match get? map handle with
  | some a => .ok a
  | none => .error K.dangling

/-- Cut the node at `handle`; the handle keeps the front, the result is the new node. -/
def split (map : List (ℕ × γ)) (handle offset : ℕ) : Except ε (List (ℕ × γ) × ℕ) := do
  let old ← K.node map handle
  if offset < K.size old ∧ 0 < offset then
    let new := K.back old offset
    return (emplace (assign map handle (K.front old offset)) (K.base new) new, K.base new)
  else
    throw K.badOffset

/-- Cut off what lies behind the offset `last` of a node of `size` points. -/
def cutBehind (map : List (ℕ × γ)) (handle size last : ℕ) : Except ε (List (ℕ × γ)) :=
  if last ≠ size then Prod.fst <$> K.split map handle last else .ok map

/-- Cut off what lies in front of the offset `first`; the result is the node behind the cut. -/
def cutFront (map : List (ℕ × γ)) (handle first : ℕ) : Except ε (List (ℕ × γ) × ℕ) :=
  if first ≠ 0 then K.split map handle first else .ok (map, handle)

/-- Cut the offsets `[first, last)` out of the node at `handle`, which has `size` points. -/
def carve (map : List (ℕ × γ)) (handle size first last : ℕ) : Except ε (List (ℕ × γ) × ℕ) := do
  let map ← K.cutBehind map handle size last
  K.cutFront map handle first

/-- Absorb the next neighbour into the node at `iter`. -/
def mergeNext (map : List (ℕ × γ)) (iter : ℕ) (current : γ) : Except ε (List (ℕ × γ) × γ) :=
  match next map iter with
  | none => .ok (map, current)
  | some (key, following) => do
    if ← K.canMerge current following then
      return (erase (assign map iter (K.join current following)) key, K.join current following)
    else
      return (map, current)

/-- Absorb the node at `iter` into the previous neighbour. -/
def mergePrev (map : List (ℕ × γ)) (iter : ℕ) (current : γ) : Except ε (List (ℕ × γ) × ℕ) :=
  match prev map iter with
  | none => .ok (map, iter)
  | some (key, preceding) => do
    if ← K.canMerge preceding current then
      return (erase (assign map key (K.join preceding current)) iter, key)
    else
      return (map, iter)

/-- Merge the node at `iter` with both neighbours; the result is the handle of the node that
now holds it. -/
def mergeAdjacent (map : List (ℕ × γ)) (iter : ℕ) : Except ε (List (ℕ × γ) × ℕ) := do
  let current ← K.node map iter
  let (map, current) ← K.mergeNext map iter current
  K.mergePrev map iter current

/-! ### Laws -/

/-- The laws of cutting and joining, for segments that satisfy `Wf`. -/
structure Lawful (Wf : γ → Prop) : Prop where
  front_base : ∀ {a c}, Wf a → 0 < c → c < K.size a → K.base (K.front a c) = K.base a
  front_size : ∀ {a c}, Wf a → 0 < c → c < K.size a → K.size (K.front a c) = c
  front_wf : ∀ {a c}, Wf a → 0 < c → c < K.size a → Wf (K.front a c)
  back_base : ∀ {a c}, Wf a → 0 < c → c < K.size a → K.base (K.back a c) = K.base a + c
  back_size : ∀ {a c}, Wf a → 0 < c → c < K.size a → K.size (K.back a c) = K.size a - c
  back_wf : ∀ {a c}, Wf a → 0 < c → c < K.size a → Wf (K.back a c)
  join_adjacent : ∀ {a b}, Wf a → Wf b → K.canMerge a b = .ok true →
    K.base a + K.size a = K.base b
  join_base : ∀ {a b}, Wf a → Wf b → K.canMerge a b = .ok true → K.base (K.join a b) = K.base a
  join_size : ∀ {a b}, Wf a → Wf b → K.canMerge a b = .ok true →
    K.size (K.join a b) = K.size a + K.size b
  join_wf : ∀ {a b}, Wf a → Wf b → K.canMerge a b = .ok true → Wf (K.join a b)

/-- The value `view a off` of the point at offset `off` survives cutting and joining. -/
structure LawfulView (Wf : γ → Prop) (view : γ → ℕ → β) : Prop where
  front : ∀ {a c}, Wf a → 0 < c → c < K.size a → ∀ off < c, view (K.front a c) off = view a off
  back : ∀ {a c}, Wf a → 0 < c → c < K.size a →
    ∀ off < K.size a - c, view (K.back a c) off = view a (c + off)
  join_left : ∀ {a b}, Wf a → Wf b → K.canMerge a b = .ok true →
    ∀ off < K.size a, view a off = view (K.join a b) off
  join_right : ∀ {a b}, Wf a → Wf b → K.canMerge a b = .ok true →
    ∀ off < K.size b, view b off = view (K.join a b) (K.size a + off)

/-- The sum of a quantity over all segments. -/
def total (weight : γ → ℕ) (m : List (ℕ × γ)) : ℕ := (m.map fun e => weight e.2).sum

@[simp] theorem total_nil (weight : γ → ℕ) : total weight [] = 0 := rfl

@[simp] theorem total_cons (weight : γ → ℕ) (e : ℕ × γ) (m : List (ℕ × γ)) :
    total weight (e :: m) = weight e.2 + total weight m := by simp [total]

theorem finite_covers (size : γ → ℕ) (m : List (ℕ × γ)) : {x | Covers size m x}.Finite := by
  induction m with
  | nil => simp
  | cons e m ih =>
    refine ((Set.finite_Ico e.1 (e.1 + size e.2)).union ih).subset fun x hx => ?_
    exact covers_cons.mp hx

/-- The points of the segments with a property, counted through the segments. -/
theorem total_eq_ncard {size : γ → ℕ} {m : List (ℕ × γ)} (h : Tiling size m) (P : γ → Prop)
    [DecidablePred P] : total (fun a => if P a then size a else 0) m =
      {x | ∃ e ∈ m, Within size e x ∧ P e.2}.ncard := by
  induction m with
  | nil => simp
  | cons e m ih =>
    have hm : Tiling size m := h.right (l := [e])
    have hsplit : {x | ∃ f ∈ e :: m, Within size f x ∧ P f.2} =
        {x | Within size e x ∧ P e.2} ∪ {x | ∃ f ∈ m, Within size f x ∧ P f.2} := by
      ext x
      simp
    have hdisj : Disjoint {x | Within size e x ∧ P e.2} {x | ∃ f ∈ m, Within size f x ∧ P f.2} := by
      rw [Set.disjoint_left]
      rintro x ⟨hx, -⟩ ⟨f, hf, hxf, -⟩
      have hlt := h.mem_left_lt (l := [e]) (List.mem_singleton_self e) hf
      unfold Within at hx hxf
      omega
    have hfirst : {x | Within size e x ∧ P e.2}.Finite :=
      (Set.finite_Ico e.1 (e.1 + size e.2)).subset fun x hx => hx.1
    have hrest : {x | ∃ f ∈ m, Within size f x ∧ P f.2}.Finite :=
      (finite_covers size m).subset fun x ⟨f, hf, hx, _⟩ => ⟨f, hf, hx⟩
    rw [hsplit, Set.ncard_union_eq hdisj hfirst hrest, ← ih hm, total_cons]
    congr 1
    by_cases hP : P e.2
    · have hico : {x | Within size e x ∧ P e.2} = (Finset.Ico e.1 (e.1 + size e.2) : Set ℕ) := by
        ext x
        simp [Within, hP]
      rw [if_pos hP, hico, Set.ncard_coe_finset, Nat.card_Ico, Nat.add_sub_cancel_left]
    · simp [hP]

/-- A tiling whose nodes are keyed by their base and well formed. -/
structure Valid (Wf : γ → Prop) (m : List (ℕ × γ)) : Prop where
  tiling : Tiling K.size m
  keyed : ∀ e ∈ m, K.base e.2 = e.1
  wf : ∀ e ∈ m, Wf e.2

/-- `m'` results from `m` by cutting segments and joining neighbours. -/
inductive Recut (Wf : γ → Prop) : List (ℕ × γ) → List (ℕ × γ) → Prop
  | refl (m : List (ℕ × γ)) : Recut Wf m m
  | cut (l r : List (ℕ × γ)) {k c : ℕ} {a : γ} (hw : Wf a) (hk : K.base a = k) (hc : 0 < c)
      (hs : c < K.size a) :
      Recut Wf (l ++ [(k, a)] ++ r) (l ++ [(k, K.front a c), (k + c, K.back a c)] ++ r)
  | join (l r : List (ℕ × γ)) {k k' : ℕ} {a b : γ} (hw : Wf a) (hw' : Wf b) (hk : K.base a = k)
      (hk' : K.base b = k') (hm : K.canMerge a b = .ok true) :
      Recut Wf (l ++ [(k, a), (k', b)] ++ r) (l ++ [(k, K.join a b)] ++ r)
  | trans {m₁ m₂ m₃ : List (ℕ × γ)} : Recut Wf m₁ m₂ → Recut Wf m₂ m₃ → Recut Wf m₁ m₃

variable {K} {Wf : γ → Prop} {view : γ → ℕ → β} {weight : γ → ℕ} {m m' l r : List (ℕ × γ)}

theorem node_around (hm : Sorted m) {h : ℕ} {a : γ} (hn : K.node m h = .ok a) :
    ∃ l r, Around m l (h, a) r := by
  unfold node at hn
  cases hg : get? m h with
  | none => simp [hg] at hn
  | some b =>
    simp only [hg, Except.ok.injEq] at hn
    subst hn
    exact get?_around hm hg

theorem node_eq {h : ℕ} {a : γ} (ha : Around m l (h, a) r) : K.node m h = .ok a := by
  have := ha.get?
  simp only at this
  simp [node, this]

theorem Valid.sorted (h : K.Valid Wf m) : Sorted m := h.tiling.sorted

theorem Valid.around {h : ℕ} {a : γ} (hv : K.Valid Wf (l ++ (h, a) :: r)) :
    Around (l ++ (h, a) :: r) l (h, a) r := hv.sorted.around_of_eq

theorem Valid.right (h : K.Valid Wf (l ++ r)) : K.Valid Wf r :=
  ⟨h.tiling.right, fun e he => h.keyed e (by simp [he]), fun e he => h.wf e (by simp [he])⟩

theorem Valid.singleton {k : ℕ} {a : γ} (hpos : 0 < K.size a) (hk : K.base a = k) (hw : Wf a) :
    K.Valid Wf [(k, a)] :=
  ⟨Tiling.singleton hpos, by simpa using hk, by simpa using hw⟩

/-- Replacing a run of nodes by other valid nodes for no more points. -/
theorem Valid.splice {mid mid' : List (ℕ × γ)} (h : K.Valid Wf (l ++ mid ++ r))
    (h' : K.Valid Wf mid') (hsub : ∀ x, Covers K.size mid' x → Covers K.size mid x) :
    K.Valid Wf (l ++ mid' ++ r) := by
  refine ⟨h.tiling.splice h'.tiling hsub, ?_, ?_⟩
  · intro e he
    rw [List.mem_append, List.mem_append] at he
    rcases he with (he | he) | he
    · exact h.keyed e (by simp [he])
    · exact h'.keyed e he
    · exact h.keyed e (by simp [he])
  · intro e he
    rw [List.mem_append, List.mem_append] at he
    rcases he with (he | he) | he
    · exact h.wf e (by simp [he])
    · exact h'.wf e he
    · exact h.wf e (by simp [he])

/-! ### What a recut keeps -/

variable {c k' last first : ℕ} {a' : γ}

theorem pair_eq {k : ℕ} {a : γ} (L : K.Lawful Wf) (hw : Wf a) (hc : 0 < c) (hs : c < K.size a) :
    [(k, K.front a c), (k + c, K.back a c)] = [(k, K.front a c),
      (k + K.size (K.front a c), K.back a c)] := by
  rw [L.front_size hw hc hs]

theorem cut_valid (L : K.Lawful Wf) {k : ℕ} {a : γ} (hw : Wf a) (hk : K.base a = k)
    (hc : 0 < c) (hs : c < K.size a) : K.Valid Wf [(k, K.front a c), (k + c, K.back a c)] := by
  have hf := L.front_size hw hc hs
  have hb := L.back_size hw hc hs
  refine ⟨?_, ?_, ?_⟩
  · rw [pair_eq L hw hc hs]
    exact Tiling.pair (by omega) (by omega)
  · simp [L.front_base hw hc hs, L.back_base hw hc hs, hk]
  · simp [L.front_wf hw hc hs, L.back_wf hw hc hs]

theorem cut_covers (L : K.Lawful Wf) {k : ℕ} {a : γ} (hw : Wf a) (hc : 0 < c) (hs : c < K.size a)
    (x : ℕ) :
    Covers K.size [(k, K.front a c), (k + c, K.back a c)] x ↔ Covers K.size [(k, a)] x := by
  rw [pair_eq L hw hc hs, covers_pair, covers_singleton, L.front_size hw hc hs,
    L.back_size hw hc hs]
  omega

theorem cut_view (L : K.Lawful Wf) (V : K.LawfulView Wf view) {k : ℕ} {a : γ} (hw : Wf a)
    (hc : 0 < c) (hs : c < K.size a) (x : ℕ) :
    viewAt K.size view [(k, K.front a c), (k + c, K.back a c)] x =
      viewAt K.size view [(k, a)] x := by
  have hf := L.front_size hw hc hs
  have hb := L.back_size hw hc hs
  rw [pair_eq L hw hc hs]
  apply viewAt_pair
  · omega
  · intro off hoff
    exact V.front hw hc hs off (by omega)
  · intro off hoff
    rw [hf]
    exact V.back hw hc hs off (by omega)

theorem join_eq (L : K.Lawful Wf) {k : ℕ} {a b : γ} (hw : Wf a) (hw' : Wf b)
    (hk : K.base a = k) (hk' : K.base b = k') (hm : K.canMerge a b = .ok true) :
    k' = k + K.size a := by
  rw [← hk, ← hk', L.join_adjacent hw hw' hm]

theorem join_covers (L : K.Lawful Wf) {k : ℕ} {a b : γ} (hw : Wf a) (hw' : Wf b)
    (hk : K.base a = k) (hk' : K.base b = k') (hm : K.canMerge a b = .ok true) (x : ℕ) :
    Covers K.size [(k, K.join a b)] x ↔ Covers K.size [(k, a), (k', b)] x := by
  obtain rfl := join_eq L hw hw' hk hk' hm
  rw [covers_pair, covers_singleton, L.join_size hw hw' hm]
  omega

theorem join_view (L : K.Lawful Wf) (V : K.LawfulView Wf view) {k : ℕ} {a b : γ} (hw : Wf a)
    (hw' : Wf b) (hk : K.base a = k) (hk' : K.base b = k') (hm : K.canMerge a b = .ok true)
    (x : ℕ) : viewAt K.size view [(k, K.join a b)] x = viewAt K.size view [(k, a), (k', b)] x := by
  obtain rfl := join_eq L hw hw' hk hk' hm
  symm
  apply viewAt_pair
  · exact L.join_size hw hw' hm
  · exact V.join_left hw hw' hm
  · exact V.join_right hw hw' hm

theorem Recut.valid (L : K.Lawful Wf) (h : K.Recut Wf m m') (hv : K.Valid Wf m) :
    K.Valid Wf m' := by
  induction h with
  | refl => exact hv
  | cut l r hw hk hc hs =>
    exact hv.splice (cut_valid L hw hk hc hs) fun x => (cut_covers L hw hc hs x).mp
  | @join l r k k' a b hw hw' hk hk' hm =>
    have hpos : 0 < K.size a := hv.tiling.pos (k, a) (by simp)
    refine hv.splice (Valid.singleton ?_ ?_ (L.join_wf hw hw' hm)) fun x =>
      (join_covers L hw hw' hk hk' hm x).mp
    · rw [L.join_size hw hw' hm]
      omega
    · rw [L.join_base hw hw' hm, hk]
  | trans _ _ ih₁ ih₂ => exact ih₂ (ih₁ hv)

theorem Recut.covers (L : K.Lawful Wf) (h : K.Recut Wf m m') (x : ℕ) :
    Covers K.size m' x ↔ Covers K.size m x := by
  induction h with
  | refl => rfl
  | cut l r hw hk hc hs => exact covers_splice (cut_covers L hw hc hs x)
  | join l r hw hw' hk hk' hm => exact covers_splice (join_covers L hw hw' hk hk' hm x)
  | trans _ _ ih₁ ih₂ => exact ih₂.trans ih₁

theorem Recut.viewAt_eq (L : K.Lawful Wf) (V : K.LawfulView Wf view) (h : K.Recut Wf m m') (x : ℕ) :
    viewAt K.size view m' x = viewAt K.size view m x := by
  induction h with
  | refl => rfl
  | cut l r hw hk hc hs => exact viewAt_splice (cut_view L V hw hc hs x)
  | join l r hw hw' hk hk' hm => exact viewAt_splice (join_view L V hw hw' hk hk' hm x)
  | trans _ _ ih₁ ih₂ => exact ih₂.trans ih₁

/-! ### The operations -/

theorem split_eq (L : K.Lawful Wf) (hv : K.Valid Wf m) {h : ℕ} {a : γ} (ha : Around m l (h, a) r)
    (off : ℕ) :
    K.split m h off =
      if off < K.size a ∧ 0 < off then
        .ok (l ++ [(h, K.front a off), (h + off, K.back a off)] ++ r, h + off)
      else
        .error K.badOffset := by
  unfold split
  by_cases ho : off < K.size a ∧ 0 < off
  · have hbase : K.base (K.back a off) = h + off := by
      rw [L.back_base (hv.wf _ ha.mem) ho.2 ho.1, hv.keyed _ ha.mem]
    have hmap : emplace (assign m h (K.front a off)) (h + off) (K.back a off) =
        l ++ [(h, K.front a off), (h + off, K.back a off)] ++ r := by
      have ha' : Around (assign m h (K.front a off)) l (h, K.front a off) r :=
        ⟨ha.assign _, ha.left, ha.right⟩
      have hm : Tiling K.size (l ++ (h, a) :: r) := ha.eq ▸ hv.tiling
      rw [ha'.emplace_after _ (by simp only; omega)]
      · simp
      · intro f hf
        have := (List.pairwise_cons.mp hm.right.apart).1 f hf
        simp only at this ⊢
        omega
    simp [node_eq ha, bind, Except.bind, ho, pure, Except.pure, hbase, hmap]
  · simp [node_eq ha, bind, Except.bind, ho, throw, throwThe, MonadExceptOf.throw]

/-- The node at `handle` after cutting at `last`. -/
def trimmed (K : Segments ε γ) (a : γ) (last : ℕ) : γ :=
  if last ≠ K.size a then K.front a last else a

/-- The value that `carve` leaves between `first` and `last`. -/
def slice (K : Segments ε γ) (a : γ) (first last : ℕ) : γ :=
  if first ≠ 0 then K.back (K.trimmed a last) first else K.trimmed a last

/-- What a carve leaves in front of the slice of the node `(h, a)`. -/
def leading (K : Segments ε γ) (h : ℕ) (a : γ) (first last : ℕ) : List (ℕ × γ) :=
  if first ≠ 0 then [(h, K.front (K.trimmed a last) first)] else []

/-- What a carve leaves behind the slice. -/
def trailing (K : Segments ε γ) (h : ℕ) (a : γ) (last : ℕ) : List (ℕ × γ) :=
  if last ≠ K.size a then [(h + last, K.back a last)] else []

theorem trimmed_wf (L : K.Lawful Wf) {a : γ} (hw : Wf a) (hpos : 0 < last)
    (hlast : last ≤ K.size a) : Wf (K.trimmed a last) := by
  unfold trimmed
  split_ifs with h
  · exact L.front_wf hw hpos (by omega)
  · exact hw

theorem trimmed_size (L : K.Lawful Wf) {a : γ} (hw : Wf a) (hpos : 0 < last)
    (hlast : last ≤ K.size a) : K.size (K.trimmed a last) = last := by
  unfold trimmed
  split_ifs with h
  · exact L.front_size hw hpos (by omega)
  · omega

theorem trimmed_base (L : K.Lawful Wf) {a : γ} (hw : Wf a) (hpos : 0 < last)
    (hlast : last ≤ K.size a) : K.base (K.trimmed a last) = K.base a := by
  unfold trimmed
  split_ifs with h
  · exact L.front_base hw hpos (by omega)
  · rfl

theorem slice_size (L : K.Lawful Wf) {a : γ} (hw : Wf a) (hlt : first < last)
    (hlast : last ≤ K.size a) : K.size (K.slice a first last) = last - first := by
  have hts := trimmed_size L hw (by omega) hlast
  unfold slice
  split_ifs with h
  · rw [L.back_size (trimmed_wf L hw (by omega) hlast) (by omega) (by omega), hts]
  · rw [hts]
    omega

theorem slice_base (L : K.Lawful Wf) {a : γ} (hw : Wf a) (hlt : first < last)
    (hlast : last ≤ K.size a) : K.base (K.slice a first last) = K.base a + first := by
  have hts := trimmed_size L hw (by omega) hlast
  have htb := trimmed_base L hw (by omega) hlast
  unfold slice
  split_ifs with h
  · rw [L.back_base (trimmed_wf L hw (by omega) hlast) (by omega) (by omega), htb]
  · rw [htb]
    omega

theorem slice_wf (L : K.Lawful Wf) {a : γ} (hw : Wf a) (hlt : first < last)
    (hlast : last ≤ K.size a) : Wf (K.slice a first last) := by
  have hts := trimmed_size L hw (by omega) hlast
  have htw := trimmed_wf L hw (by omega) hlast
  unfold slice
  split_ifs with h
  · exact L.back_wf htw (by omega) (by omega)
  · exact htw

theorem cutBehind_eq (L : K.Lawful Wf) (hv : K.Valid Wf m) {h : ℕ} {a : γ}
    (ha : Around m l (h, a) r) (hlast : last ≤ K.size a) : K.cutBehind m h (K.size a) last =
      if 0 < last then .ok (l ++ (h, K.trimmed a last) :: (K.trailing h a last ++ r))
      else .error K.badOffset := by
  have hpos : 0 < K.size a := hv.tiling.pos _ ha.mem
  unfold cutBehind trimmed trailing
  by_cases hl : last = K.size a
  · simp [hl, hpos, ha.eq]
  · rw [if_pos hl, if_pos hl, if_pos hl, split_eq L hv ha]
    by_cases h0 : 0 < last
    · have hlt : last < K.size a := by omega
      simp [h0, hlt, Functor.map, Except.map]
    · simp [h0, Functor.map, Except.map]

theorem cutBehind_recut {h : ℕ} {a : γ} (hw : Wf a) (hk : K.base a = h) (hpos : 0 < last)
    (hlast : last ≤ K.size a) (l r : List (ℕ × γ)) :
    K.Recut Wf (l ++ (h, a) :: r) (l ++ (h, K.trimmed a last) :: (K.trailing h a last ++ r)) := by
  unfold trimmed trailing
  by_cases hl : last = K.size a
  · simp only [hl, ne_eq, not_true_eq_false, ↓reduceIte, List.nil_append]
    exact Recut.refl _
  · rw [if_pos hl, if_pos hl]
    have := Recut.cut (K := K) l r hw hk hpos (by omega : last < K.size a)
    simpa using this

/-- Carving succeeds exactly on non-empty ranges and puts a node for the range between what is
left of the old one. -/
theorem carve_eq (L : K.Lawful Wf) (hv : K.Valid Wf m) {h : ℕ} {a : γ}
    (ha : Around m l (h, a) r) (first : ℕ) (hlast : last ≤ K.size a) :
    K.carve m h (K.size a) first last =
      if first < last then
        .ok ((l ++ K.leading h a first last) ++
          (h + first, K.slice a first last) :: (K.trailing h a last ++ r), h + first)
      else
        .error K.badOffset := by
  have hwf : Wf a := hv.wf _ ha.mem
  have hkey : K.base a = h := hv.keyed _ ha.mem
  unfold carve
  rw [cutBehind_eq L hv ha hlast]
  by_cases h0 : 0 < last
  · rw [if_pos h0]
    have hrecut := cutBehind_recut hwf hkey h0 hlast l r
    have hv' := hrecut.valid L (ha.eq ▸ hv)
    simp only [bind, Except.bind, cutFront]
    by_cases hf : first = 0
    · simp [hf, h0, leading, slice]
    · rw [if_pos hf, split_eq L hv' hv'.around, trimmed_size L hwf h0 hlast]
      by_cases hlt : first < last
      · simp [hlt, Nat.pos_of_ne_zero hf, leading, slice, hf]
      · simp [hlt]
  · have : ¬ first < last := by omega
    simp [h0, this, bind, Except.bind]

theorem carve_recut (L : K.Lawful Wf) {h : ℕ} {a : γ} (hw : Wf a) (hk : K.base a = h)
    (hlt : first < last) (hlast : last ≤ K.size a) (l r : List (ℕ × γ)) :
    K.Recut Wf (l ++ (h, a) :: r) ((l ++ K.leading h a first last) ++
      (h + first, K.slice a first last) :: (K.trailing h a last ++ r)) := by
  refine (cutBehind_recut hw hk (by omega) hlast l r).trans ?_
  unfold leading slice
  by_cases hf : first = 0
  · simp only [hf, ne_eq, not_true_eq_false, ↓reduceIte, List.append_nil, Nat.add_zero]
    exact Recut.refl _
  · rw [if_pos hf, if_pos hf]
    have htw := trimmed_wf L hw (by omega) hlast
    have hts := trimmed_size L hw (by omega) hlast
    have htb := trimmed_base L hw (by omega) hlast
    have := Recut.cut (K := K) l (K.trailing h a last ++ r) htw (htb.trans hk)
      (Nat.pos_of_ne_zero hf) (by omega)
    simpa using this

/-- What `mergeNext` leaves of the segment `a` and the nodes `r` behind it. -/
inductive AbsorbsNext (K : Segments ε γ) (a : γ) : List (ℕ × γ) → γ → List (ℕ × γ) → Prop
  | keep (r : List (ℕ × γ)) : AbsorbsNext K a r a r
  | absorb (k : ℕ) (b : γ) (r : List (ℕ × γ)) (hm : K.canMerge a b = .ok true) :
      AbsorbsNext K a ((k, b) :: r) (K.join a b) r

/-- What `mergePrev` leaves of the nodes `l` in front of the node `(h, a)`. -/
inductive AbsorbsPrev (K : Segments ε γ) (h : ℕ) (a : γ) :
    List (ℕ × γ) → List (ℕ × γ) → ℕ → γ → Prop
  | keep (l : List (ℕ × γ)) : AbsorbsPrev K h a l l h a
  | absorb (l : List (ℕ × γ)) (k : ℕ) (b : γ) (hm : K.canMerge b a = .ok true) :
      AbsorbsPrev K h a (l ++ [(k, b)]) l k (K.join b a)

theorem mergeNext_shape (hm : Sorted m) {h : ℕ} {a : γ} (ha : Around m l (h, a) r)
    (hs : K.mergeNext m h a = .ok (m', a')) :
    ∃ r', Around m' l (h, a') r' ∧ AbsorbsNext K a r a' r' ∧ Sorted m' := by
  have hnext := ha.next
  simp only at hnext
  unfold mergeNext at hs
  cases r with
  | nil =>
    simp only [hnext, List.head?_nil, Except.ok.injEq, Prod.mk.injEq] at hs
    obtain ⟨rfl, rfl⟩ := hs
    exact ⟨[], ha, .keep [], hm⟩
  | cons n r =>
    obtain ⟨k, b⟩ := n
    simp only [hnext, List.head?_cons] at hs
    cases hc : K.canMerge a b with
    | error e => simp [hc, bind, Except.bind] at hs
    | ok v =>
      cases v with
      | false =>
        simp only [hc, bind, Except.bind, pure, Except.pure, Bool.false_eq_true, ↓reduceIte,
          Except.ok.injEq, Prod.mk.injEq] at hs
        obtain ⟨rfl, rfl⟩ := hs
        exact ⟨_, ha, .keep _, hm⟩
      | true =>
        simp only [hc, bind, Except.bind, pure, Except.pure, ↓reduceIte, Except.ok.injEq,
          Prod.mk.injEq] at hs
        obtain ⟨rfl, rfl⟩ := hs
        have hk := (ha.assign_around (K.join a b)).succ (ha.sorted_assign hm _)
        have herase := hk.erase
        simp only [List.append_assoc, List.singleton_append] at herase
        refine ⟨r, ⟨herase, ha.left, fun f hf => ha.right f (by simp [hf])⟩, .absorb k b r hc, ?_⟩
        exact (ha.sorted_assign hm _).sublist List.filter_sublist

theorem mergePrev_shape (hm : Sorted m) {h h' : ℕ} {a : γ} (ha : Around m l (h, a) r)
    (hs : K.mergePrev m h a = .ok (m', h')) :
    ∃ l' a', Around m' l' (h', a') r ∧ AbsorbsPrev K h a l l' h' a' := by
  have hprev := ha.prev
  simp only at hprev
  unfold mergePrev at hs
  rcases List.eq_nil_or_concat l with rfl | ⟨l, n, rfl⟩
  · simp only [hprev, List.getLast?_nil, Except.ok.injEq, Prod.mk.injEq] at hs
    obtain ⟨rfl, rfl⟩ := hs
    exact ⟨[], a, ha, .keep []⟩
  · obtain ⟨k, b⟩ := n
    simp only [hprev, List.concat_eq_append, List.getLast?_append, List.getLast?_singleton,
      Option.some_or] at hs
    cases hc : K.canMerge b a with
    | error e => simp [hc, bind, Except.bind] at hs
    | ok v =>
      cases v with
      | false =>
        simp only [hc, bind, Except.bind, pure, Except.pure, Bool.false_eq_true, ↓reduceIte,
          Except.ok.injEq, Prod.mk.injEq] at hs
        obtain ⟨rfl, rfl⟩ := hs
        exact ⟨_, a, ha, .keep _⟩
      | true =>
        simp only [hc, bind, Except.bind, pure, Except.pure, ↓reduceIte, Except.ok.injEq,
          Prod.mk.injEq] at hs
        obtain ⟨rfl, rfl⟩ := hs
        rw [List.concat_eq_append] at ha
        have hp := ha.pred hm
        have hk := (hp.assign_around (K.join b a)).succ (hp.sorted_assign hm _)
        have herase := hk.erase
        simp only [List.append_assoc, List.singleton_append] at herase
        refine ⟨l, K.join b a, ⟨herase, hp.left, fun f hf => hp.right f (by simp [hf])⟩, ?_⟩
        rw [List.concat_eq_append]
        exact .absorb l k b hc

/-- The shape of a map after merging the node `(h, a)` with its neighbours. -/
theorem mergeAdjacent_shape (hm : Sorted m) {h h' : ℕ} {a : γ} (ha : Around m l (h, a) r)
    (hs : K.mergeAdjacent m h = .ok (m', h')) :
    ∃ l' b a' r', Around m' l' (h', a') r' ∧ AbsorbsNext K a r b r' ∧
      AbsorbsPrev K h b l l' h' a' := by
  unfold mergeAdjacent at hs
  simp only [node_eq ha, bind, Except.bind] at hs
  cases hn : K.mergeNext m h a with
  | error e => simp [hn] at hs
  | ok p =>
    obtain ⟨m₁, b⟩ := p
    simp only [hn] at hs
    obtain ⟨r', ha₁, hnext, hm₁⟩ := mergeNext_shape hm ha hn
    obtain ⟨l', a', ha', hprev⟩ := mergePrev_shape hm₁ ha₁ hs
    exact ⟨l', b, a', r', ha', hnext, hprev⟩

theorem AbsorbsNext.recut {h : ℕ} {a b : γ} {r' : List (ℕ × γ)} (hn : AbsorbsNext K a r b r')
    (hv : K.Valid Wf (l ++ (h, a) :: r)) : K.Recut Wf (l ++ (h, a) :: r) (l ++ (h, b) :: r') := by
  cases hn with
  | keep => exact .refl _
  | absorb k b r' hm =>
    have := Recut.join l r' (hv.wf (h, a) (by simp)) (hv.wf (k, b) (by simp))
      (hv.keyed (h, a) (by simp)) (hv.keyed (k, b) (by simp)) hm
    simpa using this

theorem AbsorbsPrev.recut {h h' : ℕ} {a : γ} {l' : List (ℕ × γ)}
    (hp : AbsorbsPrev K h a l l' h' a') (hv : K.Valid Wf (l ++ (h, a) :: r)) :
    K.Recut Wf (l ++ (h, a) :: r) (l' ++ (h', a') :: r) := by
  cases hp with
  | keep => exact .refl _
  | absorb l' _ b hm =>
    have := Recut.join l' r (hv.wf (h', b) (by simp)) (hv.wf (h, a) (by simp))
      (hv.keyed (h', b) (by simp)) (hv.keyed (h, a) (by simp)) hm
    simpa using this

theorem mergeAdjacent_recut (L : K.Lawful Wf) (hv : K.Valid Wf m) {h h' : ℕ}
    (hs : K.mergeAdjacent m h = .ok (m', h')) : K.Recut Wf m m' := by
  cases hn : K.node m h with
  | error e => simp [mergeAdjacent, hn, bind, Except.bind] at hs
  | ok a =>
    obtain ⟨l, r, ha⟩ := node_around hv.sorted hn
    obtain ⟨l', b, a', r', ha', hnext, hprev⟩ := mergeAdjacent_shape hv.sorted ha hs
    rw [ha.eq] at hv ⊢
    rw [ha'.eq]
    have hrecut := hnext.recut hv
    exact hrecut.trans (hprev.recut (hrecut.valid L hv))

/-- Merging succeeds as soon as the merge tests with the neighbours do. -/
theorem mergeAdjacent_total (hm : Sorted m) {h : ℕ} {a : γ} (ha : Around m l (h, a) r)
    (hnext : ∀ n ∈ r, ∃ v, K.canMerge a n.2 = .ok v)
    (hprev : ∀ p ∈ l, ∀ b r', AbsorbsNext K a r b r' → ∃ v, K.canMerge p.2 b = .ok v) :
    ∃ m' h', K.mergeAdjacent m h = .ok (m', h') := by
  have hn : ∃ p, K.mergeNext m h a = .ok p := by
    have := ha.next
    simp only at this
    rw [mergeNext, this]
    cases r with
    | nil => exact ⟨_, rfl⟩
    | cons n r =>
      obtain ⟨v, hv⟩ := hnext n (by simp)
      cases v <;> simp [hv, bind, Except.bind, pure, Except.pure]
  obtain ⟨⟨m₁, b⟩, hn⟩ := hn
  obtain ⟨r', ha₁, habs, -⟩ := mergeNext_shape hm ha hn
  have hp : ∃ p, K.mergePrev m₁ h b = .ok p := by
    have := ha₁.prev
    simp only at this
    rw [mergePrev, this]
    cases hl : l.getLast? with
    | none => exact ⟨_, rfl⟩
    | some n =>
      obtain ⟨v, hv⟩ := hprev n (List.mem_of_getLast? hl) b r' habs
      cases v <;> simp [hv, bind, Except.bind, pure, Except.pure]
  obtain ⟨⟨m', h'⟩, hp⟩ := hp
  refine ⟨m', h', ?_⟩
  simp [mergeAdjacent, node_eq ha, bind, Except.bind, hn, hp]

theorem mergeAdjacent_ok (L : K.Lawful Wf) (hv : K.Valid Wf m) {h : ℕ} {a : γ}
    (ha : Around m l (h, a) r) (hc : ∀ a b, Wf a → Wf b → ∃ v, K.canMerge a b = .ok v) :
    ∃ m' h', K.mergeAdjacent m h = .ok (m', h') := by
  refine mergeAdjacent_total hv.sorted ha ?_ ?_
  · intro n hn
    exact hc a n.2 (hv.wf _ ha.mem) (hv.wf n (by simp [ha.eq, hn]))
  · intro p hp b r' habs
    rw [ha.eq] at hv
    have hv' := (habs.recut hv).valid L hv
    exact hc p.2 b (hv'.wf p (by simp [hp])) (hv'.wf (h, b) (by simp))

/-- A node behind that can be merged leaves the map. -/
theorem mergeAdjacent_next_gone {h h' k : ℕ} {a b : γ} (hm : Sorted m)
    (ha : Around m l (h, a) ((k, b) :: r))
    (hc : K.canMerge a b = .ok true) (hs : K.mergeAdjacent m h = .ok (m', h')) :
    ∀ e ∈ m', e.1 ≠ k := by
  have hnext := ha.next
  simp only at hnext
  have hmerged : K.mergeNext m h a = .ok (erase (assign m h (K.join a b)) k, K.join a b) := by
    simp [mergeNext, hnext, hc, bind, Except.bind, pure, Except.pure]
  obtain ⟨r', ha', habs, hm'⟩ := mergeNext_shape hm ha hmerged
  simp only [mergeAdjacent, node_eq ha, hmerged, bind, Except.bind] at hs
  obtain ⟨l', a', ha'', hprev⟩ := mergePrev_shape hm' ha' hs
  have hgone : ∀ e ∈ l ++ (h, K.join a b) :: r', e.1 ≠ k := by
    rw [← ha'.eq]
    exact fun e he => (mem_erase_iff.mp he).2
  rw [ha''.eq]
  intro e he
  cases hprev with
  | keep => exact hgone e he
  | absorb l' k' b' hm =>
    rcases List.mem_append.mp he with he | he
    · exact hgone e (by simp [he])
    · rcases List.mem_cons.mp he with rfl | he
      · exact hgone (h', b') (by simp)
      · exact hgone e (by simp [he])

/-- A node that can be merged into the one in front of it leaves the map. -/
theorem mergeAdjacent_gone {h h' k : ℕ} {a b : γ} (hm : Sorted m)
    (ha : Around m (l ++ [(k, b)]) (h, a) r)
    (hc : ∀ a' r', AbsorbsNext K a r a' r' → K.canMerge b a' = .ok true)
    (hs : K.mergeAdjacent m h = .ok (m', h')) : ∀ e ∈ m', e.1 ≠ h := by
  simp only [mergeAdjacent, node_eq ha, bind, Except.bind] at hs
  cases hn : K.mergeNext m h a with
  | error e => simp [hn] at hs
  | ok p =>
    obtain ⟨m₁, a'⟩ := p
    simp only [hn] at hs
    obtain ⟨r', ha₁, habs, -⟩ := mergeNext_shape hm ha hn
    have hprev := ha₁.prev
    simp only [List.getLast?_append, List.getLast?_singleton, Option.some_or] at hprev
    simp only [mergePrev, hprev, hc a' r' habs, bind, Except.bind, pure, Except.pure, ↓reduceIte,
      Except.ok.injEq, Prod.mk.injEq] at hs
    obtain ⟨rfl, rfl⟩ := hs
    exact fun e he => (mem_erase_iff.mp he).2

/-! ### Rewriting one node -/

section Rewrite

variable {h : ℕ} {a b : γ}

theorem Valid.rewrite (hv : K.Valid Wf (l ++ (h, a) :: r)) (hb : K.base b = K.base a)
    (hs : K.size b = K.size a) (hw : Wf b) : K.Valid Wf (l ++ (h, b) :: r) := by
  have hpos : 0 < K.size a := hv.tiling.pos (h, a) (by simp)
  have hk : K.base a = h := hv.keyed (h, a) (by simp)
  have hv' : K.Valid Wf (l ++ [(h, a)] ++ r) := by simpa using hv
  have hb' : K.Valid Wf [(h, b)] := Valid.singleton (by omega) (hb.trans hk) hw
  have hcover : ∀ x, Covers K.size [(h, b)] x → Covers K.size [(h, a)] x := by
    intro x
    rw [covers_singleton, covers_singleton, hs]
    exact id
  simpa using hv'.splice hb' hcover

theorem covers_rewrite (hs : K.size b = K.size a) (x : ℕ) :
    Covers K.size (l ++ (h, b) :: r) x ↔ Covers K.size (l ++ (h, a) :: r) x := by
  simp [Within, hs]

theorem viewAt_rewrite (hv : K.Valid Wf (l ++ (h, a) :: r)) (hs : K.size b = K.size a) (x : ℕ) :
    viewAt K.size view (l ++ (h, b) :: r) x = if h ≤ x ∧ x < h + K.size a then some (view b (x - h))
      else viewAt K.size view (l ++ (h, a) :: r) x := by
  have hsplit : ∀ c, l ++ (h, c) :: r = l ++ ([(h, c)] ++ r) := by simp
  rw [hsplit a, hsplit b]
  simp only [viewAt_append, viewAt_singleton, hs]
  by_cases hx : h ≤ x ∧ x < h + K.size a
  · have hl : viewAt K.size view l x = none := by
      rw [viewAt_eq_none]
      rintro ⟨e, he, hex⟩
      have := hv.tiling.mem_left_lt he (by simp : (h, a) ∈ (h, a) :: r)
      unfold Within at hex
      simp only at this
      omega
    simp [hl, hx]
  · simp [hx]

/-- `m'` results from `m` by making `[k, k + n)` a node of its own with the value `a`, giving it
the value `b`, and cutting and joining. -/
structure Rewritten (K : Segments ε γ) (Wf : γ → Prop) (m : List (ℕ × γ)) (k n : ℕ) (a b : γ)
    (m' : List (ℕ × γ)) : Prop where
  size_eq : K.size a = n
  base_eq : K.base a = k
  wf : Wf a
  size_new : K.size b = n
  base_new : K.base b = k
  wf_new : Wf b
  steps : ∃ l r, K.Recut Wf m (l ++ (k, a) :: r) ∧ K.Recut Wf (l ++ (k, b) :: r) m'

namespace Rewritten

variable {k n : ℕ}

theorem valid (L : K.Lawful Wf) (h : Rewritten K Wf m k n a b m') (hv : K.Valid Wf m) :
    K.Valid Wf m' := by
  obtain ⟨l, r, hcut, hjoin⟩ := h.steps
  exact hjoin.valid L ((hcut.valid L hv).rewrite (h.base_new.trans h.base_eq.symm)
    (h.size_new.trans h.size_eq.symm) h.wf_new)

theorem covers (L : K.Lawful Wf) (h : Rewritten K Wf m k n a b m') (x : ℕ) :
    Covers K.size m' x ↔ Covers K.size m x := by
  obtain ⟨l, r, hcut, hjoin⟩ := h.steps
  rw [hjoin.covers L, covers_rewrite (h.size_new.trans h.size_eq.symm), hcut.covers L]

/-- Before the change the range is read through the old value. -/
theorem viewAt_old (L : K.Lawful Wf) (V : K.LawfulView Wf view)
    (h : Rewritten K Wf m k n a b m') (hv : K.Valid Wf m) {x : ℕ} (hx : k ≤ x ∧ x < k + n) :
    viewAt K.size view m x = some (view a (x - k)) := by
  obtain ⟨l, r, hcut, hjoin⟩ := h.steps
  rw [← hcut.viewAt_eq L V]
  refine IntervalMap.viewAt_eq view (hcut.valid L hv).tiling (e := (k, a)) (by simp) ?_
  simpa [Within, h.size_eq] using hx

theorem viewAt_new (L : K.Lawful Wf) (V : K.LawfulView Wf view)
    (h : Rewritten K Wf m k n a b m') (hv : K.Valid Wf m) (x : ℕ) : viewAt K.size view m' x =
      if k ≤ x ∧ x < k + n then some (view b (x - k)) else viewAt K.size view m x := by
  obtain ⟨l, r, hcut, hjoin⟩ := h.steps
  rw [hjoin.viewAt_eq L V, viewAt_rewrite (hcut.valid L hv) (h.size_new.trans h.size_eq.symm),
    hcut.viewAt_eq L V, h.size_eq]

theorem trans_recut (h : Rewritten K Wf m k n a b m') {m'' : List (ℕ × γ)}
    (hr : K.Recut Wf m' m'') : Rewritten K Wf m k n a b m'' := by
  obtain ⟨l, r, hcut, hjoin⟩ := h.steps
  exact { h with steps := ⟨l, r, hcut, hjoin.trans hr⟩ }

end Rewritten

end Rewrite

end Segments
