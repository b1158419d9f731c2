import Mathlib.Data.List.TakeWhile
import PS4Droid.Foundations.BreadthFirst
import PS4Droid.Foundations.Fences
import PS4Droid.Shader.Ir

/-!
# Barriers for shared memory

`SharedMemoryBarrierPass`: where the guest relies on its 64 threads running in lockstep, barriers
are put between writes and reads of shared memory, within blocks, at their ends and behind divergent
conditions.
-/

namespace PS4Droid.Shader.IR

/-- `Shader::Stage`, as far as the pass tells them apart. -/
inductive Stage
  | compute
  | other
  deriving DecidableEq

/-- `IR::AbstractSyntaxNode` with the fields that the pass reads. -/
inductive SyntaxNode
  | block (block : ℕ)
  | ifNode (cond : Value) (merge : ℕ)
  | endIf (merge : ℕ)
  | other
  deriving DecidableEq

/-- A program; blocks hold their instructions, and branch to their successors. -/
structure Program where
  stage : Stage
  pool : Pool
  syntaxList : List SyntaxNode
  blocks : ℕ → List Inst
  immSuccessors : ℕ → List ℕ

structure ComputeRuntimeInfo where
  sharedMemorySize : UInt32
  workgroupSize : UInt32 × UInt32 × UInt32
  deriving DecidableEq

/-- `Profile::needs_lds_barriers`. -/
structure Profile where
  needsLdsBarriers : Bool
  deriving DecidableEq

def isLoadShared (inst : Inst) : Bool :=
  inst.opcode == .loadSharedU16 || inst.opcode == .loadSharedU32 || inst.opcode == .loadSharedU64

def isWriteShared (inst : Inst) : Bool :=
  inst.opcode == .writeSharedU16 || inst.opcode == .writeSharedU32 || inst.opcode == .writeSharedU64

def isPhi (inst : Inst) : Bool := inst.opcode == .phi

def barrier : Inst := ⟨.barrier, [], []⟩

inductive BarrierAction
  | none
  | barrierOnWrite
  | barrierOnRead
  deriving DecidableEq

/-- The loop over the instructions of a block, with the action it ends in. -/
def insertBarriers : BarrierAction → List Inst → List Inst × BarrierAction
  | action, [] => ([], action)
  | action, inst :: rest =>
    if isLoadShared inst then
      let (rest, last) := insertBarriers .barrierOnWrite rest
      (if action = .barrierOnRead then barrier :: inst :: rest else inst :: rest, last)
    else if isWriteShared inst then
      let (rest, last) := insertBarriers .barrierOnRead rest
      (if action = .barrierOnWrite then barrier :: inst :: rest else inst :: rest, last)
    else
      let (rest, last) := insertBarriers action rest
      (inst :: rest, last)

def emitBarrierInBlock (block : List Inst) : List Inst :=
  let (insts, action) := insertBarriers .none block
  if action ≠ .none then insts.dropLast ++ barrier :: insts.getLast?.toList else insts

/-- The insertion behind the phis of a merge block. -/
def emitBarrierBehindPhis (block : List Inst) : List Inst :=
  block.takeWhile isPhi ++ barrier :: block.dropWhile isPhi

/-- The predicate of the search for a divergent condition. -/
def readsLocalInvocationId (pool : Pool) (id : ℕ) : Option Bool :=
  if (pool.insts id).opcode = .getAttributeU32 ∧
    (pool.insts id).arg 0 = .attr .localInvocationId then some true
  else none

/-- `BreadthFirstSearch` from a value; no more instructions are visited than there are. -/
def breadthFirstSearch {β : Type} (pool : Pool) (value : Value) (pred : ℕ → Option β) : Option β :=
  match pool.instRecursive value with
  | none => none
  | some id => BreadthFirst.search pool.argInsts pred (pool.size + 1) [id] []

def isDivergentCond (pool : Pool) (cond : Value) : Bool :=
  (breadthFirstSearch pool cond (readsLocalInvocationId pool)).isSome

/-- The merge blocks of the divergent conditions met, and how many of these are open. -/
structure Divergence where
  divergenceEnd : List ℕ
  divergenceDepth : UInt32

/-- What a syntax node does to the divergence. -/
def Divergence.step (pool : Pool) (d : Divergence) : SyntaxNode → Divergence
  | .endIf merge => if merge ∈ d.divergenceEnd then
      { d with divergenceDepth := d.divergenceDepth - 1 } else d
  | .ifNode cond merge =>
    if isDivergentCond pool cond then ⟨merge :: d.divergenceEnd, d.divergenceDepth + 1⟩ else d
  | _ => d

/-- What a syntax node does to the blocks. -/
def emitBarriers (pool : Pool) (d : Divergence) (blocks : ℕ → List Inst) :
    SyntaxNode → ℕ → List Inst
  | .ifNode cond merge =>
    if isDivergentCond pool cond ∧ d.divergenceDepth = 0 then
      Function.update blocks merge (emitBarrierBehindPhis (blocks merge))
    else blocks
  | .block block =>
    if d.divergenceDepth = 0 then Function.update blocks block (emitBarrierInBlock (blocks block))
      else blocks
  | _ => blocks

/-- The loop over the syntax list. -/
def emitBarriersFrom (pool : Pool) : List SyntaxNode → Divergence → (ℕ → List Inst) → ℕ → List Inst
  | [], _, blocks => blocks
  | node :: rest, d, blocks =>
      emitBarriersFrom pool rest (d.step pool node) (emitBarriers pool d blocks node)

def gcnSubgroupSize : UInt32 := 64

/-- The checks in front of the pass. -/
def sharedMemoryBarriersApply (program : Program) (info : ComputeRuntimeInfo) (profile : Profile) :
    Bool :=
  let (x, y, z) := info.workgroupSize
  program.stage == .compute && info.sharedMemorySize != 0 && x * y * z == gcnSubgroupSize &&
    profile.needsLdsBarriers

def sharedMemoryBarrierPass (program : Program) (info : ComputeRuntimeInfo) (profile : Profile) :
    Program :=
  if sharedMemoryBarriersApply program info profile then
    { program with
      blocks := emitBarriersFrom program.pool program.syntaxList ⟨[], 0⟩ program.blocks }
  else program

/-!
### Accesses that conflict

What the pass makes of a block, in terms of what can be seen from outside: the access that is
pending behind it and the one that is met first. Between accesses in different blocks a barrier may
be missing if the first one is the last instruction of its block. Atomics read and write, but the
pass does not look at them.
-/

open Fences

inductive SharedKind
  | load
  | write
  | atomic
  deriving DecidableEq

namespace SharedKind

def reads (kind : SharedKind) : Bool := kind != .write

def writes (kind : SharedKind) : Bool := kind != .load

/-- One of the accesses writes, and the other one reads. -/
instance : Conflicts SharedKind where
  conflict a b := (a.writes && b.reads || a.reads && b.writes) = true
  of_ne {a b} hne := by
    cases a <;> cases b <;> first | rfl | exact absurd rfl hne

end SharedKind

def sharedEvent (inst : Inst) : Event SharedKind :=
  match inst.opcode with
  | .loadSharedU16 | .loadSharedU32 | .loadSharedU64 => .access .load
  | .writeSharedU16 | .writeSharedU32 | .writeSharedU64 => .access .write
  | .sharedAtomic _ _ => .access .atomic
  | .barrier => .fence
  | _ => .other

/-- The kind of a load or a write. -/
def plainKind (inst : Inst) : Option SharedKind :=
  match sharedEvent inst with
  | .access .load => some .load
  | .access .write => some .write
  | _ => none

def hasPlain (l : List Inst) : Bool := l.any fun x => (plainKind x).isSome

/-- The instructions of a block in front of the place at its end that gets a barrier, if it gets
one. -/
def front (l : List Inst) : List Inst := if hasPlain l then l.dropLast else l

/-- The kind of access that is pending behind a block; if it has a load or a write, of its last
instruction. -/
def lastAccess (l : List Inst) : Option SharedKind :=
  pending sharedEvent none (if hasPlain l then l.getLast?.toList else l)

/-- The first access, unless a barrier comes first. -/
def earlyAccess (l : List Inst) : Option SharedKind := entry sharedEvent (front l)

/-- No access follows the pending one `p` with which it conflicts, unless it is a load or a write of
another kind than the `last` of these. -/
def Fenced : Option SharedKind → Option SharedKind → List Inst → Prop
  | _, _, [] => True
  | last, p, x :: l =>
    (∀ a b, p = some a → sharedEvent x = .access b → Conflicts.conflict a b →
      ∃ c, last = some c ∧ plainKind x = some b ∧ c ≠ b) ∧
    Fenced ((plainKind x).or last) (pend sharedEvent p x) l

def BarrierAction.kind : BarrierAction → Option SharedKind
  | .none => Option.none
  | .barrierOnWrite => some .load
  | .barrierOnRead => some .write

theorem sharedEvent_of_isPhi {inst : Inst} (h : isPhi inst = true) : sharedEvent inst = .other := by
  have hop : inst.opcode = .phi := by simpa [isPhi] using h
  simp [sharedEvent, hop]

/-! ### Within a block -/

section Block

variable {action : BarrierAction} {l l' : List Inst} {inst x : Inst} {k : SharedKind}
  {last p : Option SharedKind}

theorem event_of_plainKind (h : plainKind inst = some k) : sharedEvent inst = .access k := by
  unfold plainKind at h
  split at h <;> cases h <;> assumption

theorem plainKind_of_load (h : isLoadShared inst = true) : plainKind inst = some .load := by
  simp only [isLoadShared, Bool.or_eq_true, beq_iff_eq] at h
  rcases h with (h | h) | h <;> simp [plainKind, sharedEvent, h]

theorem plainKind_of_write (h : isWriteShared inst = true) : plainKind inst = some .write := by
  simp only [isWriteShared, Bool.or_eq_true, beq_iff_eq] at h
  rcases h with (h | h) | h <;> simp [plainKind, sharedEvent, h]

theorem plainKind_eq_none (hload : ¬isLoadShared inst = true)
    (hwrite : ¬isWriteShared inst = true) :
    plainKind inst = none := by
  simp only [isLoadShared, isWriteShared, Bool.or_eq_true, beq_iff_eq, not_or] at hload hwrite
  unfold plainKind sharedEvent
  cases hop : inst.opcode <;> simp_all

/-- What the loop puts in front of an instruction, and the action it goes on with. -/
inductive Inserts (action : BarrierAction) (inst : Inst) : List Inst → BarrierAction → Prop
  | other (h : plainKind inst = none) : Inserts action inst [] action
  | access {k : SharedKind} {next : BarrierAction} (h : plainKind inst = some k)
      (hsame : ∀ a, action.kind = some a → a = k)
        (hnext : next.kind = some k) : Inserts action inst [] next
  | conflict {a k : SharedKind} {next : BarrierAction} (h : plainKind inst = some k)
      (haction : action.kind = some a)
      (hne : a ≠ k) (hnext : next.kind = some k) : Inserts action inst [barrier] next

/-- What comes behind the instruction makes no difference. -/
theorem exists_inserts (action : BarrierAction) (inst : Inst) :
    ∃ front next, Inserts action inst front next ∧ ∀ l, insertBarriers action (inst :: l) =
      (front ++ inst :: (insertBarriers next l).1, (insertBarriers next l).2) := by
  by_cases hload : isLoadShared inst = true
  · have hk := plainKind_of_load hload
    cases action with
    | none | barrierOnWrite =>
      refine ⟨[], .barrierOnWrite, .access hk (fun a ha => by cases ha <;> rfl) rfl, fun l => ?_⟩
      rw [insertBarriers, if_pos hload]
      rfl
    | barrierOnRead =>
      refine ⟨[barrier], .barrierOnWrite, .conflict hk rfl nofun rfl, fun l => ?_⟩
      rw [insertBarriers, if_pos hload]
      rfl
  · by_cases hwrite : isWriteShared inst = true
    · have hk := plainKind_of_write hwrite
      cases action with
      | none | barrierOnRead =>
        refine ⟨[], .barrierOnRead, .access hk (fun a ha => by cases ha <;> rfl) rfl, fun l => ?_⟩
        rw [insertBarriers, if_neg hload, if_pos hwrite]
        rfl
      | barrierOnWrite =>
        refine ⟨[barrier], .barrierOnRead, .conflict hk rfl nofun rfl, fun l => ?_⟩
        rw [insertBarriers, if_neg hload, if_pos hwrite]
        rfl
    · refine ⟨[], action, .other (plainKind_eq_none hload hwrite), fun l => ?_⟩
      rw [insertBarriers, if_neg hload, if_neg hwrite]
      rfl

theorem insertBarriers_append : ∃ front, (front = [] ∨ front = [barrier]) ∧
    (insertBarriers action (l ++ [x])).1 = (insertBarriers action l).1 ++ front ++ [x] := by
  induction l generalizing action with
  | nil =>
    obtain ⟨front, next, hinserts, heq⟩ := exists_inserts action x
    refine ⟨front, ?_, by rw [List.nil_append, heq]; rfl⟩
    cases hinserts with
    | other | access => exact .inl rfl
    | conflict => exact .inr rfl
  | cons inst l ih =>
    obtain ⟨front, next, -, heq⟩ := exists_inserts action inst
    obtain ⟨front', hfront', ih⟩ := @ih next
    refine ⟨front', hfront', ?_⟩
    rw [List.cons_append, heq, heq, ih]
    simp only [List.append_assoc, List.cons_append]

theorem hasPlain_append : hasPlain (l ++ l') = (hasPlain l || hasPlain l') := List.any_append

theorem hasPlain_cons : hasPlain (inst :: l) = ((plainKind inst).isSome || hasPlain l) :=
  List.any_cons

theorem hasPlain_insertBarriers : hasPlain (insertBarriers action l).1 = hasPlain l := by
  induction l generalizing action with
  | nil => rfl
  | cons inst l ih =>
    obtain ⟨front, next, hinserts, heq⟩ := exists_inserts action inst
    have hfront : hasPlain front = false := by
      cases hinserts with
      | other | access | conflict => rfl
    rw [heq, hasPlain_append, hfront, Bool.false_or, hasPlain_cons, hasPlain_cons, ih]

/-- The loop ends without an action exactly if it has met no load and no write. -/
theorem insertBarriers_action : (insertBarriers action l).2 = .none ↔ action = .none ∧
    hasPlain l = false := by
  induction l generalizing action with
  | nil => exact (and_iff_left rfl).symm
  | cons inst l ih =>
    obtain ⟨front, next, hinserts, heq⟩ := exists_inserts action inst
    rw [heq, ih, hasPlain_cons]
    cases hinserts with
    | other h => rw [h, Option.isSome_none, Bool.false_or]
    | access h _ hnext | conflict h _ _ hnext =>
      rw [h, Option.isSome_some, Bool.true_or]
      exact iff_of_false (fun hnone => by rw [hnone.1] at hnext; cases hnext) fun hnone =>
        nomatch hnone.2

theorem insertBarriers_of_none (h : hasPlain l = false) : (insertBarriers .none l).1 = l := by
  induction l with
  | nil => rfl
  | cons inst l ih =>
    obtain ⟨front, next, hinserts, heq⟩ := exists_inserts .none inst
    rw [hasPlain_cons, Bool.or_eq_false_iff] at h
    cases hinserts with
    | other =>
      rw [heq, ih h.2]
      rfl
    | access hk => rw [hk] at h; cases h.1
    | conflict hk => rw [hk] at h; cases h.1

/-- A block meets the same access first as before. -/
theorem entry_insertBarriers :
    entry sharedEvent (insertBarriers .none l).1 = entry sharedEvent l := by
  induction l with
  | nil => rfl
  | cons inst l ih =>
    obtain ⟨front, next, hinserts, heq⟩ := exists_inserts .none inst
    rw [heq]
    cases hinserts with
    | other => rw [List.nil_append, entry, entry, ih]
    | access h => rw [List.nil_append, entry, entry, event_of_plainKind h]
    | conflict _ haction => cases haction

/-- The barriers of the loop are in front of the loads and writes that change the kind. -/
theorem safe_insertBarriers : Safe sharedEvent p (insertBarriers action l).1 ↔
    Fenced action.kind p l := by
  induction l generalizing action p with
  | nil => exact Iff.rfl
  | cons inst l ih =>
    obtain ⟨front, next, hinserts, heq⟩ := exists_inserts action inst
    rw [heq, Fenced]
    cases hinserts with
    | other h =>
      rw [List.nil_append, Safe, ih, h, Option.none_or]
      refine and_congr_left' (forall₄_congr fun a b _ _ => ?_)
      simp
    | access h hsame hnext =>
      rw [List.nil_append, Safe, ih, h, hnext]
      refine and_congr_left' (forall₄_congr fun a b _ hb => ?_)
      rw [event_of_plainKind h] at hb
      cases hb
      refine ⟨fun hnot hconflict => absurd hconflict hnot, fun himp hconflict => ?_⟩
      obtain ⟨c, hc, -, hne⟩ := himp hconflict
      exact hne (hsame c hc)
    | @conflict a k next h haction hne hnext =>
      have hk := event_of_plainKind h
      have hpend (q : Option SharedKind) : pend sharedEvent q inst = some k := by rw [pend, hk]
      rw [List.singleton_append, Safe, Safe, ih, h, hnext, hpend, hpend, hk]
      refine ⟨fun hsafe => ⟨fun a b _ hb _ => ?_, hsafe.2.2⟩, fun hfenced =>
        ⟨fun _ _ _ hb => (by cases hb), fun _ _ ha => (by cases ha), hfenced.2⟩⟩
      cases hb
      exact ⟨_, haction, rfl, hne⟩

theorem fenced_insertBarriers : Fenced action.kind p (insertBarriers action l).1 ↔
    Fenced action.kind p l := by
  induction l generalizing action p with
  | nil => exact Iff.rfl
  | cons inst l ih =>
    obtain ⟨front, next, hinserts, heq⟩ := exists_inserts action inst
    rw [heq]
    cases hinserts with
    | other h => rw [List.nil_append, Fenced, Fenced, h, Option.none_or, ih]
    | access h hsame hnext =>
      rw [List.nil_append, Fenced, Fenced, h, Option.some_or, ← hnext, ih]
    | @conflict a k next h haction hne hnext =>
      have hk := event_of_plainKind h
      have hpend (q : Option SharedKind) : pend sharedEvent q inst = some k := by rw [pend, hk]
      rw [List.singleton_append, Fenced, Fenced, Fenced, h, Option.some_or, Option.some_or, ← hnext,
        ih, hpend, hpend, hk]
      refine ⟨fun hfenced => ⟨fun a b _ hb _ => ?_, hfenced.2.2⟩, fun hfenced =>
        ⟨fun _ _ _ hb => (by cases hb), fun _ _ ha => (by cases ha), hfenced.2⟩⟩
      cases hb
      rw [hnext]
      exact ⟨_, haction, rfl, hne⟩

theorem fenced_append_barrier : Fenced last p (l ++ [barrier]) ↔ Fenced last p l := by
  induction l generalizing last p with
  | nil => exact ⟨fun _ => trivial, fun _ => ⟨nofun, trivial⟩⟩
  | cons inst l ih => rw [List.cons_append, Fenced, Fenced, ih]

/-- Among loads and writes alone every change of the kind gets its barrier. -/
theorem fenced_of_no_atomic (h : ∀ x ∈ l, sharedEvent x ≠ .access .atomic)
    (hp : ∀ a, p = some a → last = some a) :
    Fenced last p l := by
  induction l generalizing last p with
  | nil => trivial
  | cons x l ih =>
    obtain ⟨hx, hl⟩ := List.forall_mem_cons.mp h
    refine ⟨fun a b ha hb hconflict => ?_, ih hl fun a ha => ?_⟩
    · have hplain : plainKind x = some b := by
        cases b with
        | atomic => exact absurd hb hx
        | load | write => rw [plainKind, hb]
      refine ⟨a, hp a ha, hplain, ?_⟩
      rintro rfl
      cases a with
      | atomic => exact hx hb
      | load | write => cases hconflict
    · unfold pend at ha
      unfold plainKind
      cases hevent : sharedEvent x with
      | access b =>
        rw [hevent] at ha
        cases ha
        cases a with
        | atomic => exact absurd hevent hx
        | load | write => rfl
      | fence =>
        rw [hevent] at ha
        cases ha
      | other =>
        rw [hevent] at ha
        exact hp a ha

end Block

/-! ### What a block shows -/

/-- The atomics of a block are apart from the other accesses. -/
def AtomicsFenced (l : List Inst) : Prop := Fenced none none (front l)

/-- A block after the insertions so far, against the block it was: `merged` says that a barrier was
put behind its phis, `reached` that the loop over its instructions was run. -/
structure Shows (block : List Inst) (merged reached : Prop) (l : List Inst) : Prop where
  plain : hasPlain l = hasPlain block
  last : lastAccess l = lastAccess block
  early : ¬merged → earlyAccess l = earlyAccess block
  guarded : merged → earlyAccess l = none
  settles : Settles sharedEvent l ↔ Settles sharedEvent block ∨ merged
  fenced : AtomicsFenced l ↔ AtomicsFenced block
  separated : reached → (Separated sharedEvent l ↔ AtomicsFenced block)
  pending : reached → pending sharedEvent none l = lastAccess l
  entry : reached → entry sharedEvent l = earlyAccess l

theorem Shows.refl (block : List Inst) : Shows block False False block :=
  ⟨rfl, rfl, fun _ => rfl, False.elim, (or_iff_left id).symm, Iff.rfl, False.elim, False.elim,
    False.elim⟩

section Insertions

variable {block l l' : List Inst} {merged reached : Prop} {last p : Option SharedKind}

/-- Phis make no difference. -/
theorem fenced_append_phis (h : ∀ x ∈ l, sharedEvent x = .other) :
    Fenced last p (l ++ l') ↔ Fenced last p l' := by
  induction l with
  | nil => exact Iff.rfl
  | cons x l ih =>
    obtain ⟨hx, hl⟩ := List.forall_mem_cons.mp h
    rw [List.cons_append, Fenced, plainKind, pend, hx]
    exact (and_iff_right fun _ _ _ hb => by cases hb).trans (ih hl)

theorem emitBarrierBehindPhis_split (l : List Inst) :
    ∃ phis rest rest', (∀ x ∈ phis, sharedEvent x = .other) ∧
    l = phis ++ rest ∧ emitBarrierBehindPhis l = phis ++ barrier :: rest ∧ front l = phis ++ rest' ∧
    front (emitBarrierBehindPhis l) = phis ++ barrier :: rest' ∧
      (hasPlain l = true → rest ≠ []) := by
  have hphis : ∀ x ∈ l.takeWhile isPhi, sharedEvent x = .other := fun x hx =>
    sharedEvent_of_isPhi (List.mem_takeWhile_imp hx)
  have hsplit : l = l.takeWhile isPhi ++ l.dropWhile isPhi := List.takeWhile_append_dropWhile.symm
  have hnone : hasPlain (l.takeWhile isPhi) = false := by
    rw [hasPlain, List.any_eq_false]
    intro x hx
    rw [plainKind, hphis x hx]
    exact nofun
  have hplain : hasPlain (emitBarrierBehindPhis l) = hasPlain l := by
    conv_rhs => rw [hsplit]
    rw [emitBarrierBehindPhis, hasPlain_append, hasPlain_append]
    rfl
  have hne : hasPlain l = true → l.dropWhile isPhi ≠ [] := by
    intro h hnil
    rw [hsplit, hasPlain_append, hnone, hnil] at h
    cases h
  by_cases h : hasPlain l = true
  · refine ⟨_, _, (l.dropWhile isPhi).dropLast, hphis, hsplit, rfl, ?_, ?_, hne⟩
    · rw [front, if_pos h]
      conv_lhs => rw [hsplit]
      exact List.dropLast_append_of_ne_nil (hne h)
    · rw [front, if_pos (hplain.trans h), emitBarrierBehindPhis,
        List.dropLast_append_of_ne_nil (List.cons_ne_nil _ _), List.dropLast_cons_of_ne_nil (hne h)]
  · refine ⟨_, _, l.dropWhile isPhi, hphis, hsplit, rfl, ?_, ?_, hne⟩
    · rw [front, if_neg h]
      exact hsplit
    · rw [front, if_neg (by rw [hplain]; exact h)]
      rfl

theorem Shows.behindPhis (h : Shows block merged reached l) :
    Shows block True reached (emitBarrierBehindPhis l) := by
  obtain ⟨phis, rest, rest', hphis, hl, hemit, hfront, hfront', hne⟩ :=
    emitBarrierBehindPhis_split l
  have hunsettled : ¬Settles sharedEvent phis := fun ⟨x, hx, hne⟩ => hne (hphis x hx)
  have hplain : hasPlain (emitBarrierBehindPhis l) = hasPlain l := by
    rw [hemit, hl, hasPlain_append, hasPlain_append]
    rfl
  have hpending : Fences.pending sharedEvent none (emitBarrierBehindPhis l) =
    Fences.pending sharedEvent none l := by
    rw [hemit, hl, pending_append, pending_append, pending_of_not_settles hunsettled]
    rfl
  have hlast : lastAccess (emitBarrierBehindPhis l) = lastAccess l := by
    rw [lastAccess, lastAccess, hplain]
    split_ifs with hp
    · obtain ⟨x, rest, rfl⟩ := List.exists_cons_of_ne_nil (hne hp)
      rw [hemit, hl, List.getLast?_append_of_ne_nil _ (List.cons_ne_nil _ _),
        List.getLast?_cons_cons, List.getLast?_append_of_ne_nil _ (List.cons_ne_nil _ _)]
    · exact hpending
  have hearly : earlyAccess (emitBarrierBehindPhis l) = none := by
    rw [earlyAccess, hfront', entry_of_not_settles hunsettled]
    rfl
  refine ⟨hplain.trans h.plain, hlast.trans h.last, fun hnot => absurd trivial hnot,
    fun _ => hearly, ?_, ?_, fun hr => ?_, fun hr => ?_, fun _ => ?_⟩
  · refine iff_of_true ⟨barrier, ?_, nofun⟩ (.inr trivial)
    rw [hemit]
    simp
  · rw [← h.fenced, AtomicsFenced, AtomicsFenced, hfront, hfront', fenced_append_phis hphis,
      fenced_append_phis hphis]
    exact and_iff_right nofun
  · rw [← h.separated hr, separated_iff, separated_iff, hemit, hl, safe_append, safe_append,
      pending_of_not_settles hunsettled]
    exact and_congr_right' (and_iff_right nofun)
  · rw [hpending, hlast, h.pending hr]
  · rw [hearly, hemit, entry_of_not_settles hunsettled]
    rfl

/-- The loop over the instructions, with the barrier in front of the last one. -/
theorem Shows.inBlock (h : Shows block merged reached l) :
    Shows block merged True (emitBarrierInBlock l) := by
  have hout : emitBarrierInBlock l = if (insertBarriers .none l).2 ≠ .none then
      (insertBarriers .none l).1.dropLast ++ barrier :: (insertBarriers .none l).1.getLast?.toList
    else (insertBarriers .none l).1 := rfl
  by_cases hplain : hasPlain l = true
  · have hne : l ≠ [] := by
      rintro rfl
      cases hplain
    obtain ⟨l, x, rfl⟩ := (List.eq_nil_or_concat' l).resolve_left hne
    obtain ⟨inserted, hinserted, heq⟩ := @insertBarriers_append .none l x
    have haction : (insertBarriers .none (l ++ [x])).2 ≠ .none := fun hnone => by
      rw [(insertBarriers_action.mp hnone).2] at hplain
      cases hplain
    rw [if_pos haction, heq, List.dropLast_concat, List.getLast?_concat] at hout
    have hplain' : hasPlain (emitBarrierInBlock (l ++ [x])) = true := by
      rw [← hplain, ← @hasPlain_insertBarriers .none (l ++ [x]), heq, hout, hasPlain_append]
      conv_rhs => rw [hasPlain_append]
      rfl
    have hfront : front (l ++ [x]) = l := by rw [front, if_pos hplain, List.dropLast_concat]
    have hfront' : front (emitBarrierInBlock (l ++ [x])) = (insertBarriers .none l).1 ++ inserted ++
      [barrier] := by
      rw [front, if_pos hplain', hout, List.dropLast_append_of_ne_nil (List.cons_ne_nil _ _)]
      rfl
    have hlast : lastAccess (emitBarrierInBlock (l ++ [x])) = lastAccess (l ++ [x]) := by
      rw [lastAccess, lastAccess, if_pos hplain, if_pos hplain', hout, List.getLast?_concat,
        List.getLast?_append_of_ne_nil _ (List.cons_ne_nil _ _)]
      rfl
    have hentry : Fences.entry sharedEvent ((insertBarriers .none l).1 ++ inserted) =
      Fences.entry sharedEvent l := by
      rw [entry_append (by rcases hinserted with rfl | rfl <;> rfl), entry_insertBarriers]
    have hearly : earlyAccess (emitBarrierInBlock (l ++ [x])) = earlyAccess (l ++ [x]) := by
      rw [earlyAccess, earlyAccess, hfront, hfront', entry_append rfl, hentry]
    have hfenced : AtomicsFenced (emitBarrierInBlock (l ++ [x])) ↔ AtomicsFenced (l ++ [x]) := by
      rw [AtomicsFenced, AtomicsFenced, hfront, hfront', fenced_append_barrier]
      rcases hinserted with rfl | rfl
      · rw [List.append_nil]
        exact @fenced_insertBarriers .none _ _
      · rw [fenced_append_barrier]
        exact @fenced_insertBarriers .none _ _
    refine ⟨hplain'.trans (hplain.symm.trans h.plain), hlast.trans h.last,
      fun hm => hearly.trans (h.early hm),
      fun hm => hearly.trans (h.guarded hm), ?_, hfenced.trans h.fenced, fun _ => ?_, fun _ => ?_,
        fun _ => ?_⟩
    · rw [← h.settles]
      obtain ⟨y, hy, hsome⟩ := List.any_eq_true.mp hplain
      obtain ⟨k, hk⟩ := Option.isSome_iff_exists.mp hsome
      refine iff_of_true ⟨barrier, ?_, nofun⟩ ⟨y, hy, ?_⟩
      · rw [hout]
        simp
      · rw [event_of_plainKind hk]
        exact nofun
    · rw [← h.fenced, AtomicsFenced, hfront, separated_iff, hout, safe_append, safe_append,
        safe_insertBarriers]
      refine (and_iff_left ⟨nofun, nofun, trivial⟩).trans (and_iff_left ?_)
      rcases hinserted with rfl | rfl
      · trivial
      · exact ⟨nofun, trivial⟩
    · rw [lastAccess, if_pos hplain', hout, pending_append,
        List.getLast?_append_of_ne_nil _ (List.cons_ne_nil _ _)]
      rfl
    · rw [hearly, earlyAccess, hfront, hout, entry_append rfl, hentry]
  · -- Nothing is inserted.
    rw [Bool.not_eq_true] at hplain
    rw [if_neg (not_not.mpr (insertBarriers_action.mpr ⟨rfl, hplain⟩)),
      insertBarriers_of_none hplain] at hout
    have hfront : front l = l := if_neg (by rw [hplain]; exact nofun)
    rw [hout]
    refine ⟨h.plain, h.last, h.early, h.guarded, h.settles, h.fenced, fun _ => ?_, fun _ => ?_,
      fun _ => ?_⟩
    · rw [← h.fenced, AtomicsFenced, hfront, separated_iff]
      conv_lhs => rw [← insertBarriers_of_none hplain]
      exact safe_insertBarriers
    · rw [lastAccess, hplain]
      rfl
    · rw [earlyAccess, hfront]

end Insertions

/-! ### The pass -/

section Pass

variable {program : Program} {pool : Pool} {nodes : List SyntaxNode} {d : Divergence}
  {blocks : ℕ → List Inst} {x : ℕ}

/-- The pass meets the block where no divergent condition is open. -/
def ReachedIn (pool : Pool) (nodes : List SyntaxNode) (d : Divergence) (x : ℕ) : Prop :=
  ∃ before behind, nodes = before ++ .block x :: behind ∧
    (before.foldl (Divergence.step pool) d).divergenceDepth = 0

/-- The block is the merge block of a divergent condition that is not within another. -/
def MergedIn (pool : Pool) (nodes : List SyntaxNode) (d : Divergence) (x : ℕ) : Prop :=
  ∃ before cond behind, nodes = before ++ .ifNode cond x :: behind ∧
    isDivergentCond pool cond = true ∧ (before.foldl (Divergence.step pool) d).divergenceDepth = 0

variable {node : SyntaxNode}

theorem reachedIn_cons : ReachedIn pool (node :: nodes) d x ↔
    (node = .block x ∧ d.divergenceDepth = 0) ∨ ReachedIn pool nodes (d.step pool node) x := by
  constructor
  · rintro ⟨before, behind, heq, hdepth⟩
    cases before with
    | nil => exact .inl ⟨(List.cons.inj heq).1, hdepth⟩
    | cons node' before =>
      obtain ⟨rfl, rfl⟩ := List.cons.inj heq
      exact .inr ⟨before, behind, rfl, hdepth⟩
  · rintro (⟨rfl, hdepth⟩ | ⟨before, behind, rfl, hdepth⟩)
    · exact ⟨[], nodes, rfl, hdepth⟩
    · exact ⟨node :: before, behind, rfl, hdepth⟩

theorem mergedIn_cons : MergedIn pool (node :: nodes) d x ↔
    (∃ cond, node = .ifNode cond x ∧ isDivergentCond pool cond = true ∧ d.divergenceDepth = 0) ∨
      MergedIn pool nodes (d.step pool node) x := by
  constructor
  · rintro ⟨before, cond, behind, heq, hcond, hdepth⟩
    cases before with
    | nil => exact .inl ⟨cond, (List.cons.inj heq).1, hcond, hdepth⟩
    | cons node' before =>
      obtain ⟨rfl, rfl⟩ := List.cons.inj heq
      exact .inr ⟨before, cond, behind, rfl, hcond, hdepth⟩
  · rintro (⟨cond, rfl, hcond, hdepth⟩ | ⟨before, cond, behind, rfl, hcond, hdepth⟩)
    · exact ⟨[], cond, nodes, rfl, hcond, hdepth⟩
    · exact ⟨node :: before, cond, behind, rfl, hcond, hdepth⟩

theorem Shows.step {block : List Inst} {merged reached : Prop}
    (h : Shows block merged reached (blocks x)) :
    Shows block (merged ∨ ∃ cond, node = .ifNode cond x ∧ isDivergentCond pool cond = true ∧
      d.divergenceDepth = 0)
      (reached ∨ node = .block x ∧ d.divergenceDepth = 0) (emitBarriers pool d blocks node x) := by
  have hsame (hm : ¬∃ cond, node = .ifNode cond x ∧ isDivergentCond pool cond = true ∧
    d.divergenceDepth = 0)
      (hr : ¬(node = .block x ∧ d.divergenceDepth = 0))
        (hblocks : emitBarriers pool d blocks node x = blocks x) :
      Shows block (merged ∨ ∃ cond, node = .ifNode cond x ∧ isDivergentCond pool cond = true ∧
        d.divergenceDepth = 0)
        (reached ∨ node = .block x ∧ d.divergenceDepth = 0)
          (emitBarriers pool d blocks node x) := by
    rwa [or_iff_left hm, or_iff_left hr, hblocks]
  cases node with
  | block y =>
    have hm : ¬∃ cond, SyntaxNode.block y = .ifNode cond x ∧ isDivergentCond pool cond = true ∧
      d.divergenceDepth = 0 := by
      rintro ⟨cond, heq, -⟩
      cases heq
    by_cases hr : SyntaxNode.block y = .block x ∧ d.divergenceDepth = 0
    · obtain ⟨heq, hdepth⟩ := hr
      obtain rfl := SyntaxNode.block.inj heq
      rw [or_iff_left hm, or_iff_right_of_imp (fun _ => ⟨heq, hdepth⟩),
        iff_true_intro (And.intro heq hdepth), emitBarriers, if_pos hdepth, Function.update_self]
      exact h.inBlock
    · refine hsame hm hr ?_
      by_cases hdepth : d.divergenceDepth = 0
      · rw [emitBarriers, if_pos hdepth]
        exact Function.update_of_ne (fun heq => hr ⟨by rw [heq], hdepth⟩) _ _
      · rw [emitBarriers, if_neg hdepth]
  | ifNode cond y =>
    have hr : ¬(SyntaxNode.ifNode cond y = .block x ∧ d.divergenceDepth = 0) :=
      fun hr => by cases hr.1
    by_cases hm : y = x ∧ isDivergentCond pool cond = true ∧ d.divergenceDepth = 0
    · obtain ⟨rfl, hcond⟩ := hm
      have hm : ∃ cond', SyntaxNode.ifNode cond y = .ifNode cond' y ∧
        isDivergentCond pool cond' = true ∧ d.divergenceDepth = 0 := ⟨cond, rfl, hcond⟩
      rw [or_iff_left hr, or_iff_right_of_imp (fun _ => hm), iff_true_intro hm, emitBarriers,
        if_pos hcond, Function.update_self]
      exact h.behindPhis
    · refine hsame ?_ hr ?_
      · rintro ⟨cond', heq, hcond⟩
        obtain ⟨rfl, rfl⟩ := SyntaxNode.ifNode.inj heq
        exact hm ⟨rfl, hcond⟩
      · by_cases hcond : isDivergentCond pool cond = true ∧ d.divergenceDepth = 0
        · rw [emitBarriers, if_pos hcond]
          exact Function.update_of_ne (fun heq => hm ⟨heq.symm, hcond⟩) _ _
        · rw [emitBarriers, if_neg hcond]
  | endIf | other => exact hsame (fun ⟨_, heq, _⟩ => by cases heq) (fun hr => by cases hr.1) rfl

theorem emitBarriersFrom_shows {block : List Inst} {merged reached : Prop}
    (h : Shows block merged reached (blocks x)) :
    Shows block (merged ∨ MergedIn pool nodes d x) (reached ∨ ReachedIn pool nodes d x)
      (emitBarriersFrom pool nodes d blocks x) := by
  induction nodes generalizing d blocks merged reached with
  | nil =>
    have hmerged : ¬MergedIn pool [] d x := by
      rintro ⟨before, cond, behind, heq, -⟩
      exact absurd heq.symm (by simp)
    have hreached : ¬ReachedIn pool [] d x := by
      rintro ⟨before, behind, heq, -⟩
      exact absurd heq.symm (by simp)
    rwa [or_iff_left hmerged, or_iff_left hreached]
  | cons node nodes ih =>
    rw [mergedIn_cons, reachedIn_cons, ← or_assoc, ← or_assoc]
    exact ih h.step

/-- The block is at divergence depth zero. -/
def Program.AtDepthZero (program : Program) (x : ℕ) : Prop :=
  ReachedIn program.pool program.syntaxList ⟨[], 0⟩ x

/-- The merge block of an outermost divergent condition. -/
def Program.EndsDivergence (program : Program) (x : ℕ) : Prop :=
  MergedIn program.pool program.syntaxList ⟨[], 0⟩ x

/-- A path through blocks at divergence depth zero. -/
def Program.IsUniformPath (program : Program) : List ℕ → Prop :=
  IsPath (fun a b => b ∈ program.immSuccessors a) program.AtDepthZero

/-- On every path at divergence depth zero, there is a barrier between any two accesses that
conflict. -/
def Program.LdsSeparated (program program' : Program) : Prop :=
  ∀ path, program.IsUniformPath path → Separated sharedEvent (path.flatMap program'.blocks)

/-- From the access that is pending behind a block no path without barriers and accesses leads to
one that it conflicts with. -/
def Program.EndsFenced (program : Program) : Prop :=
  ∀ A between B, program.IsUniformPath (A :: (between ++ [B])) →
    (∀ m ∈ between, ¬Settles sharedEvent (program.blocks m) ∧ ¬program.EndsDivergence m) →
      ¬program.EndsDivergence B →
    ∀ a b, lastAccess (program.blocks A) = some a → earlyAccess (program.blocks B) = some b →
      ¬Conflicts.conflict a b

/-- The atomics within blocks are apart from other accesses, and so are the accesses at the ends of
blocks. -/
def Program.AccessesFenced (program : Program) : Prop :=
  (∀ b, program.AtDepthZero b → AtomicsFenced (program.blocks b)) ∧ program.EndsFenced

theorem sharedMemoryBarrierPass_shows {info : ComputeRuntimeInfo} {profile : Profile}
    (happly : sharedMemoryBarriersApply program info profile = true) (x : ℕ) :
    Shows (program.blocks x) (program.EndsDivergence x) (program.AtDepthZero x)
      ((sharedMemoryBarrierPass program info profile).blocks x) := by
  have h := @emitBarriersFrom_shows program.pool program.syntaxList ⟨[],
    0⟩ _ x _ _ _ (Shows.refl (program.blocks x))
  rw [false_or, false_or] at h
  rwa [sharedMemoryBarrierPass, if_pos happly]

/-- The pass separates accesses on all paths exactly if no atomic, and no access at the end of a
block, meets another one unfenced. -/
theorem ldsSeparated_iff_fenced {info : ComputeRuntimeInfo} {profile : Profile}
    (happly : sharedMemoryBarriersApply program info profile = true) :
    program.LdsSeparated (sharedMemoryBarrierPass program info profile) ↔
      program.AccessesFenced := by
  have hshows := sharedMemoryBarrierPass_shows happly
  have hpaths :=
    @separated_paths_iff Inst ℕ SharedKind sharedEvent _ (fun a b => b ∈ program.immSuccessors a)
    program.AtDepthZero (sharedMemoryBarrierPass program info profile).blocks
  have hsettles (m : ℕ) :
    ¬Settles sharedEvent ((sharedMemoryBarrierPass program info profile).blocks m) ↔
      ¬Settles sharedEvent (program.blocks m) ∧ ¬program.EndsDivergence m := by
    rw [(hshows m).settles, not_or]
  refine hpaths.trans (and_congr (forall₂_congr fun b hb => (hshows b).separated hb)
    ⟨fun h A between B hpath hbetween hB a b ha hb => ?_, fun h => ?_⟩)
  · have hA : program.AtDepthZero A := hpath.inside A (.head _)
    have hB' : program.AtDepthZero B := hpath.inside B (by simp)
    refine h A between B hpath (fun m hm => (hsettles m).mpr (hbetween m hm)) a b ?_ ?_
    · rw [(hshows A).pending hA, (hshows A).last, ha]
    · rw [(hshows B).entry hB', (hshows B).early hB, hb]
  · intro A between B hpath hbetween a b ha hb
    have hA : program.AtDepthZero A := hpath.inside A (.head _)
    have hB' : program.AtDepthZero B := hpath.inside B (by simp)
    rw [(hshows A).pending hA, (hshows A).last] at ha
    rw [(hshows B).entry hB'] at hb
    by_cases hB : program.EndsDivergence B
    · rw [(hshows B).guarded hB] at hb
      cases hb
    · rw [(hshows B).early hB] at hb
      exact h A between B hpath (fun m hm => (hsettles m).mp (hbetween m hm)) hB a b ha hb

end Pass

/-! ### Two blocks in a row -/

def writeThenRead (writer : List Inst) : Program where
  stage := .compute
  pool := ⟨fun _ => ⟨.void, [], []⟩, 0⟩
  syntaxList := [.block 0, .block 1]
  blocks x := if x = 0 then writer else [⟨.loadSharedU32, [.u32 0], []⟩, ⟨.other 0, [], []⟩]
  immSuccessors x := if x = 0 then [1] else []

def wave64 : ComputeRuntimeInfo := ⟨1024, 64, 1, 1⟩

/-- An atomic, and behind a barrier a write that is not the last instruction. -/
def atomicThenWrite : List Inst :=
  [⟨.sharedAtomic .iAdd false, [.u32 0, .u32 1], []⟩, barrier,
    ⟨.writeSharedU32, [.u32 0, .u32 7], []⟩, ⟨.other 0, [], []⟩]

theorem ldsSeparated_writeThenRead : (writeThenRead atomicThenWrite).LdsSeparated
    (sharedMemoryBarrierPass (writeThenRead atomicThenWrite) wave64 ⟨true⟩) := by
  refine (ldsSeparated_iff_fenced (by decide)).mpr ⟨fun b _ => ?_, fun A _ _ _ _ _ a _ ha => ?_⟩
  · unfold writeThenRead
    dsimp only
    split_ifs
    · exact ⟨nofun, by rintro _ _ - ⟨⟩, nofun, trivial⟩
    · refine fenced_of_no_atomic (fun x hx => ?_) nofun
      obtain rfl := List.mem_singleton.mp hx
      exact nofun
  · unfold writeThenRead at ha
    dsimp only at ha
    split_ifs at ha
    · cases ha
    · cases ha

/-- A write at the end of a block gets its barrier in front, and the read in the next block follows
it directly. -/
theorem not_ldsSeparated :
    ¬∀ program info profile, sharedMemoryBarriersApply program info profile = true →
    program.LdsSeparated (sharedMemoryBarrierPass program info profile) := by
  intro h
  have hpath : (writeThenRead [⟨.writeSharedU32, [.u32 0, .u32 7], []⟩]).IsUniformPath [0, 1] := by
    refine ⟨.cons_cons (by decide) (.singleton 1), fun b hb => ?_⟩
    obtain rfl | rfl : b = 0 ∨ b = 1 := by simpa using hb
    · exact ⟨[], [.block 1], rfl, rfl⟩
    · exact ⟨[.block 0], [], rfl, rfl⟩
  obtain ⟨z, hz, -⟩ :=
    h _ wave64 ⟨true⟩ (by decide) [0, 1] hpath [barrier] ⟨.writeSharedU32, [.u32 0, .u32 7], []⟩ []
    ⟨.loadSharedU32, [.u32 0], []⟩ [barrier, ⟨.other 0, [], []⟩] .write .load
      (by decide) rfl rfl rfl
  cases hz

end PS4Droid.Shader.IR
