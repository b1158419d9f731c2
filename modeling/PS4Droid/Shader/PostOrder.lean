import Mathlib.Data.Fintype.Card
import Mathlib.Data.List.Chain

/-!
# Post order

`PostOrder` walks the block graph with an explicit stack. A block stays on the stack while one of
its successors is visited, and is listed when it has no successor left that has not been seen.
-/

namespace PS4Droid.Shader.IR

/-- The kinds of syntax nodes; only a block carries one. -/
inductive AbstractSyntaxNode (Block : Type)
  | block (block : Block)
  | if_ | endIf | loop | repeat_ | break_ | return_ | unreachable

inductive PostOrderFault
  | firstNodeIsNotABlock
  | outOfFuel
  deriving DecidableEq

/-- The back of `block_stack` is the head of `blockStack`. -/
structure PostOrderState (Block : Type) where
  blockStack : List Block
  visited : Finset Block
  postOrderBlocks : List Block

section Walk

variable {Block : Type} [DecidableEq Block] (immSuccessors : Block → List Block)

/-- A turn of the loop: `none_of` stops at the first successor that was not visited. -/
def visitTop (s : PostOrderState Block) (block : Block) (rest : List Block) :
    PostOrderState Block :=
  match (immSuccessors block).find? (· ∉ s.visited) with
  | some branch =>
      { s with blockStack := branch :: block :: rest, visited := insert branch s.visited }
  | none => { s with blockStack := rest, postOrderBlocks := s.postOrderBlocks ++ [block] }

def postOrderLoop : ℕ → PostOrderState Block → Except PostOrderFault (List Block)
  | fuel, s =>
    match s.blockStack, fuel with
    | [], _ => .ok s.postOrderBlocks
    | _ :: _, 0 => .error .outOfFuel
    | block :: rest, fuel + 1 => postOrderLoop fuel (visitTop immSuccessors s block rest)

def postOrder (fuel : ℕ) (root : AbstractSyntaxNode Block) : Except PostOrderFault (List Block) :=
  match root with
  | .block first => postOrderLoop immSuccessors fuel ⟨[first], {first}, []⟩
  | _ => .error .firstNodeIsNotABlock

/-- The states of the loop. -/
inductive Walked (first : Block) : PostOrderState Block → Prop
  | init : Walked first ⟨[first], {first}, []⟩
  | turn {s block rest} (h : Walked first s) (hs : s.blockStack = block :: rest) :
      Walked first (visitTop immSuccessors s block rest)

/-- There is a path of edges from the first block. -/
def Reachable (first block : Block) : Prop :=
  Relation.ReflTransGen (fun u v => v ∈ immSuccessors u) first block

/-- When `u` was listed, behind `before`, each successor was listed already or on the stack, which
is a path to `u`. -/
def ListedAfter (first u : Block) (before : List Block) : Prop :=
  ∃ s ancestors, Walked immSuccessors first s ∧ s.blockStack = u :: ancestors ∧
    s.postOrderBlocks = before ∧ (u :: ancestors).IsChain (fun b a => b ∈ immSuccessors a) ∧
    ∀ v ∈ immSuccessors u, v ∈ before ∨ v ∈ u :: ancestors

/-- What holds in every turn. -/
structure WalkInvariant (first : Block) (s : PostOrderState Block) : Prop where
  nodup : (s.blockStack ++ s.postOrderBlocks).Nodup
  visited : ∀ x, x ∈ s.visited ↔ x ∈ s.blockStack ∨ x ∈ s.postOrderBlocks
  root : first ∈ s.visited
  reachable : ∀ x ∈ s.visited, Reachable immSuccessors first x
  path : s.blockStack.IsChain fun b a => b ∈ immSuccessors a
  listed : ∀ before u behind, s.postOrderBlocks = before ++ u :: behind →
    ListedAfter immSuccessors first u before ∧ ∀ v ∈ immSuccessors u, v ∈ s.visited

variable {immSuccessors} {first block : Block} {s : PostOrderState Block} {rest : List Block}

theorem WalkInvariant.push {branch : Block} (h : WalkInvariant immSuccessors first s)
    (hs : s.blockStack = block :: rest)
    (hedge : branch ∈ immSuccessors block) (hnew : branch ∉ s.visited) :
    WalkInvariant immSuccessors first
      { s with blockStack := branch :: block :: rest, visited := insert branch s.visited } := by
  have hblock : block ∈ s.visited := (h.visited block).mpr (.inl (by simp [hs]))
  have hout : ¬(branch ∈ s.blockStack ∨ branch ∈ s.postOrderBlocks) :=
    fun hmem => hnew ((h.visited branch).mpr hmem)
  refine ⟨?_, ?_, Finset.mem_insert_of_mem h.root, ?_, ?_, ?_⟩
  · rw [← hs, List.cons_append, List.nodup_cons, List.mem_append]
    exact ⟨hout, h.nodup⟩
  · intro x
    rw [Finset.mem_insert, h.visited, ← hs, List.mem_cons, or_assoc]
  · intro x hx
    rcases Finset.mem_insert.mp hx with rfl | hx
    · exact (h.reachable block hblock).tail hedge
    · exact h.reachable x hx
  · exact List.isChain_cons_cons.mpr ⟨hedge, hs ▸ h.path⟩
  · intro before u behind heq
    obtain ⟨hlisted, hclosed⟩ := h.listed before u behind heq
    exact ⟨hlisted, fun v hv => Finset.mem_insert_of_mem (hclosed v hv)⟩

theorem WalkInvariant.list (h : WalkInvariant immSuccessors first s)
    (hw : Walked immSuccessors first s)
    (hs : s.blockStack = block :: rest) (hseen : ∀ v ∈ immSuccessors block, v ∈ s.visited) :
    WalkInvariant immSuccessors first
      { s with blockStack := rest, postOrderBlocks := s.postOrderBlocks ++ [block] } := by
  have hperm : (rest ++ (s.postOrderBlocks ++ [block])).Perm
    (s.blockStack ++ s.postOrderBlocks) := by
    rw [hs, ← List.append_assoc]
    exact List.perm_append_singleton block _
  refine ⟨hperm.nodup_iff.mpr h.nodup, ?_, h.root, h.reachable, ?_, ?_⟩
  · intro x
    rw [h.visited, hs, List.mem_cons, List.mem_append, List.mem_singleton]
    tauto
  · have hpath := h.path
    rw [hs] at hpath
    exact hpath.tail
  · intro before u behind heq
    dsimp only at heq
    rcases List.eq_nil_or_concat behind with rfl | ⟨behind, last, rfl⟩
    · obtain ⟨rfl, hu⟩ := List.append_inj' heq rfl
      obtain rfl := List.singleton_inj.mp hu
      refine ⟨⟨s, rest, hw, hs, rfl, hs ▸ h.path, fun v hv => ?_⟩, hseen⟩
      rw [← hs, or_comm]
      exact (h.visited v).mp (hseen v hv)
    · rw [List.concat_eq_append, ← List.cons_append, ← List.append_assoc] at heq
      obtain ⟨heq, -⟩ := List.append_inj' heq rfl
      exact h.listed before u behind heq

theorem Walked.invariant (h : Walked immSuccessors first s) :
    WalkInvariant immSuccessors first s := by
  induction h with
  | init =>
    refine ⟨by simp, by simp, by simp, ?_, by simp, by simp⟩
    intro x hx
    rw [Finset.mem_singleton.mp hx]
    exact .refl
  | @turn s block rest hw hs ih =>
    unfold visitTop
    split
    next branch hfind =>
      have hnew : branch ∉ s.visited := by simpa using List.find?_some hfind
      exact ih.push hs (List.mem_of_find?_eq_some hfind) hnew
    next hfind =>
      refine ih.list hw hs fun v hv => ?_
      simpa using List.find?_eq_none.mp hfind v hv

/-- The turns that are left: each block is pushed once and listed once. -/
def turnsLeft [Fintype Block] (s : PostOrderState Block) : ℕ :=
  2 * (Fintype.card Block - s.visited.card) + s.blockStack.length

theorem turnsLeft_visitTop [Fintype Block] (hs : s.blockStack = block :: rest) :
    turnsLeft (visitTop immSuccessors s block rest) < turnsLeft s := by
  unfold visitTop turnsLeft
  split
  next branch hfind =>
    have hnew : branch ∉ s.visited := by simpa using List.find?_some hfind
    have hcard := Finset.card_insert_of_notMem hnew
    have hle := Finset.card_le_univ (insert branch s.visited)
    simp only [hs, List.length_cons]
    omega
  next =>
    simp only [hs, List.length_cons]
    omega

theorem postOrderLoop_ends [Fintype Block] {fuel : ℕ} (hw : Walked immSuccessors first s)
    (hfuel : turnsLeft s ≤ fuel) :
    ∃ t, Walked immSuccessors first t ∧ t.blockStack = [] ∧
      postOrderLoop immSuccessors fuel s = .ok t.postOrderBlocks := by
  induction fuel generalizing s with
  | zero =>
    have hs : s.blockStack = [] := List.length_eq_zero_iff.mp (by unfold turnsLeft at hfuel; omega)
    exact ⟨s, hw, hs, by simp [postOrderLoop, hs]⟩
  | succ fuel ih =>
    cases hs : s.blockStack with
    | nil => exact ⟨s, hw, hs, by simp [postOrderLoop, hs]⟩
    | cons block rest =>
      have hless : turnsLeft (visitTop immSuccessors s block rest) < turnsLeft s :=
        turnsLeft_visitTop hs
      obtain ⟨t, ht, hempty, hrun⟩ := ih (hw.turn hs) (by omega)
      unfold postOrderLoop
      simp only [hs]
      exact ⟨t, ht, hempty, hrun⟩

/-- When the stack is empty, exactly the blocks that can be reached are listed. -/
theorem mem_listed (h : WalkInvariant immSuccessors first s) (hs : s.blockStack = []) (x : Block) :
    x ∈ s.postOrderBlocks ↔ Reachable immSuccessors first x := by
  have hvisited : ∀ x, x ∈ s.visited ↔ x ∈ s.postOrderBlocks := by
    intro x
    simp [h.visited, hs]
  constructor
  · exact fun hx => h.reachable x ((hvisited x).mpr hx)
  · intro hreach
    induction hreach with
    | refl => exact (hvisited first).mp h.root
    | tail _ hedge ih =>
      obtain ⟨before, behind, heq⟩ := List.append_of_mem ih
      exact (hvisited _).mp ((h.listed before _ behind heq).2 _ hedge)

/-- `PostOrder` lists every block that can be reached once, and behind its successors, but for those
that were on the stack when it was listed: these are its ancestors. -/
theorem postOrder_lists [Fintype Block] (first : Block) {fuel : ℕ}
    (hfuel : 2 * Fintype.card Block ≤ fuel) :
    ∃ blocks, postOrder immSuccessors fuel (.block first) = .ok blocks ∧ blocks.Nodup ∧
      (∀ x, x ∈ blocks ↔ Reachable immSuccessors first x) ∧
      ∀ before u behind, blocks = before ++ u :: behind →
        ListedAfter immSuccessors first u before := by
  have hpos : 0 < Fintype.card Block := Fintype.card_pos_iff.mpr ⟨first⟩
  have hinit : Walked immSuccessors first ⟨[first], {first}, []⟩ := .init
  have hturns : turnsLeft (⟨[first], {first}, []⟩ : PostOrderState Block) ≤ fuel := by
    simp only [turnsLeft, Finset.card_singleton, List.length_singleton]
    omega
  obtain ⟨t, ht, hempty, hrun⟩ := postOrderLoop_ends hinit hturns
  have hinv := ht.invariant
  refine ⟨t.postOrderBlocks, hrun, ?_, mem_listed hinv hempty,
    fun before u behind heq => (hinv.listed before u behind heq).1⟩
  have hnodup := hinv.nodup
  rwa [hempty, List.nil_append] at hnodup

/-- A loop of three blocks with an exit. -/
theorem postOrder_lists_loop :
    ∃ blocks, postOrder (fun b : Fin 4 => if b = 2 then [0, 3] else if b = 3 then [] else [b + 1]) 8
      (.block 0) = .ok blocks ∧ blocks = [3, 2, 1, 0] ∧ blocks.Nodup := by
  obtain ⟨blocks, hrun, hnodup, -⟩ := @postOrder_lists (Fin 4) _
    (fun b => if b = 2 then [0, 3] else if b = 3 then [] else [b + 1]) _ 0 8 (by decide)
  refine ⟨blocks, hrun, ?_, hnodup⟩
  have heval : postOrder (fun b : Fin 4 => if b = 2 then [0, 3] else if b = 3 then []
    else [b + 1]) 8 (.block 0) = .ok [3, 2, 1, 0] := by rfl
  rw [heval] at hrun
  exact (Except.ok.inj hrun).symm

end Walk

end PS4Droid.Shader.IR
