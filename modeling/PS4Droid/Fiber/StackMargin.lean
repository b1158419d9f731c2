import PS4Droid.Fiber.Contexts
import Mathlib.Algebra.Ring.Nat
import Mathlib.Data.List.TakeWhile

/-!
# The margin of a stack

`sceFiberGetInfo` looks for the end of the words that still hold the fill. Its loop goes on to the
next word only when a word does hold it.
-/

namespace PS4Droid.Fiber

structure OrbisFiberInfo where
  size : ℕ
  entry : ℕ
  argOnInitialize : UInt64
  addrContext : ℕ
  sizeContext : ℕ
  name : List UInt8
  sizeContextMargin : ℕ

/-- What is copied from the fiber. -/
def OrbisFiberInfo.filled (info : OrbisFiberInfo) (f : OrbisFiber) (margin : ℕ) : OrbisFiberInfo :=
  { info with
    entry := f.entry, argOnInitialize := f.argOnInitialize, addrContext := f.addrContext,
    sizeContext := f.sizeContext, name := f.name.take fiberMaxNameLength, sizeContextMargin :=
      margin }

/-- `sizeof(OrbisFiberInfo)`. -/
def sizeofFiberInfo : ℕ := 128

/-- The loop of `sceFiberGetInfo`; `none` when it has not ended after `fuel` turns. -/
def scanStack (memory : Memory) (stop : ℕ) : ℕ → ℕ → Option ℕ
  | fuel, ptr =>
    if ptr < stop then
      match fuel with
      | 0 => none
      | fuel + 1 =>
        if memory ptr = fiberStackSizeCheck then scanStack memory stop fuel (ptr + 8)
          else scanStack memory stop fuel ptr
    else some ptr

/-- `size_context_margin`; `-1` when no margin is kept. -/
def stackMargin (fuel : ℕ) (f : OrbisFiber) (memory : Memory) : Option ℕ :=
  if hasFlag f.flags FiberFlags.contextSizeCheck ∧ f.addrContext ≠ 0 then
    if memory f.contextStart = fiberStackSignature then
      (scanStack memory f.contextEnd fuel (f.contextStart + 8)).map (· - (f.contextStart + 8))
    else some 0
  else some (2 ^ 64 - 1)

def sceFiberGetInfo (fuel fiber fiberInfo : ℕ) (f : OrbisFiber) (memory : Memory)
    (info : OrbisFiberInfo) :
    Option (Except OrbisFiberError OrbisFiberInfo) :=
  if fiber = 0 ∨ fiberInfo = 0 then some (.error .null)
  else if fiber % 8 ≠ 0 ∨ fiberInfo % 8 ≠ 0 then some (.error .alignment)
  else if info.size ≠ sizeofFiberInfo then some (.error .invalid)
  else if f.magicStart ≠ fiberSignature0 ∨ f.magicEnd ≠ fiberSignature1 then some (.error .invalid)
  else
    (stackMargin fuel f memory).map fun margin => .ok (info.filled f margin)

/-- A call of `sceFiberGetInfo` that passes the checks of its arguments. -/
structure ValidCall (fiber fiberInfo : ℕ) (info : OrbisFiberInfo) : Prop where
  fiber_ne : fiber ≠ 0
  info_ne : fiberInfo ≠ 0
  aligned : fiber % 8 = 0 ∧ fiberInfo % 8 = 0
  size_eq : info.size = sizeofFiberInfo

/-- Initialised or attached with a stack, with the flag stored; running changes the state and the
context only. -/
inductive Checked : OrbisFiber → Memory → Prop
  | initialised {check old memory fiber name text entry arg addr size opt flags buildVer f memory'}
      (h : sceFiberInitializeImpl check old memory fiber name text entry arg addr size opt flags
        buildVer = .ok (f, memory'))
      (haddr : addr ≠ 0) (hflag : hasFlag f.flags FiberFlags.contextSizeCheck) : Checked f memory'
  | attached {w w' addr size} (h : attachContext w addr size = .ok w')
      (hmagic : w.fiber.magicStart = fiberSignature0 ∧ w.fiber.magicEnd = fiberSignature1)
      (hflag : hasFlag w.fiber.flags FiberFlags.contextSizeCheck) : Checked w'.fiber w'.memory
  | used {f memory} (h : Checked f memory) (state : FiberState) (context : ℕ) (memory' : Memory) :
      Checked { f with state, context } memory'

/-- The words behind the signature. -/
def stackWords (f : OrbisFiber) (memory : Memory) : List UInt64 :=
  (List.range (f.sizeContext / 8 - 1)).map fun i => memory (f.contextStart + 8 + 8 * i)

/-- The words from the signature on that still hold the fill. -/
def heldWords (f : OrbisFiber) (memory : Memory) : ℕ :=
  ((stackWords f memory).takeWhile (· = fiberStackSizeCheck)).length

/-- `sceFiberGetInfo` ends and reports `margin`. -/
def Reports (fiber fiberInfo : ℕ) (f : OrbisFiber) (memory : Memory) (info : OrbisFiberInfo)
    (margin : ℕ) : Prop :=
  ∃ fuel i, sceFiberGetInfo fuel fiber fiberInfo f memory info = some (.ok i) ∧
    i.sizeContextMargin = margin

def AllHeld (f : OrbisFiber) (memory : Memory) : Prop :=
  ∀ w ∈ stackWords f memory, w = fiberStackSizeCheck

/-! ### The fill and the scan -/

section Scan

variable {memory : Memory} {base m i n fuel p : ℕ}

theorem fillStack_of_lt {a : ℕ} (memory : Memory) (hi : i ≤ m) (ha : a < base + 8 * i) :
    fillStack memory (base + 8 * i) (base + 8 * m) a = memory a := by
  induction hn : m - i generalizing i memory with
  | zero =>
    obtain rfl : i = m := by omega
    rw [fillStack, if_neg (by omega)]
  | succ n ih =>
    rw [fillStack, if_pos (by omega), show base + 8 * i + 8 = base + 8 * (i + 1) by omega,
      ih _ (by omega) (by omega) (by omega), Function.update_of_ne (by omega)]

theorem fillStack_word (memory : Memory) {j : ℕ} (hi : i ≤ j) (hj : j < m) :
    fillStack memory (base + 8 * i) (base + 8 * m) (base + 8 * j) = fiberStackSizeCheck := by
  induction hn : m - i generalizing i memory with
  | zero => omega
  | succ n ih =>
    rw [fillStack, if_pos (by omega), show base + 8 * i + 8 = base + 8 * (i + 1) by omega]
    rcases Nat.eq_or_lt_of_le hi with rfl | hlt
    · rw [fillStack_of_lt _ (by omega) (by omega), Function.update_self]
    · exact ih _ hlt (by omega)

/-- A scan that has ended has seen the fill in every word. -/
theorem held_of_scan (h : scanStack memory (base + 8 * m) fuel (base + 8 * i) = some p) :
    ∀ j, i ≤ j → j < m → memory (base + 8 * j) = fiberStackSizeCheck := by
  induction fuel generalizing i with
  | zero =>
    intro j hj hlt
    rw [scanStack, if_pos (by omega)] at h
    cases h
  | succ fuel ih =>
    intro j hj hlt
    rw [scanStack, if_pos (by omega)] at h
    split_ifs at h with hheld
    · rw [show base + 8 * i + 8 = base + 8 * (i + 1) by omega] at h
      rcases Nat.eq_or_lt_of_le hj with rfl | hj
      · exact hheld
      · exact ih h j hj hlt
    · exact absurd (ih h i (Nat.le_refl i) (by omega)) hheld

theorem scan_of_held (hi : i ≤ m)
    (h : ∀ j, i ≤ j → j < m → memory (base + 8 * j) = fiberStackSizeCheck) :
    scanStack memory (base + 8 * m) (m - i) (base + 8 * i) = some (base + 8 * m) := by
  induction hn : m - i generalizing i with
  | zero =>
    obtain rfl : i = m := by omega
    rw [scanStack, if_neg (by omega)]
  | succ n ih =>
    rw [scanStack, if_pos (by omega), if_pos (h i (Nat.le_refl i) (by omega)),
      show base + 8 * i + 8 = base + 8 * (i + 1) by omega]
    exact ih (by omega) (fun j hj => h j (by omega)) (by omega)

theorem scan_end (hi : i ≤ m) (h : scanStack memory (base + 8 * m) fuel (base + 8 * i) = some p) :
    p = base + 8 * m := by
  have hheld := held_of_scan h
  induction fuel generalizing i with
  | zero =>
    rw [scanStack] at h
    split_ifs at h
    have := Option.some.inj h
    omega
  | succ fuel ih =>
    rw [scanStack] at h
    split_ifs at h with hlt hword
    · rw [show base + 8 * i + 8 = base + 8 * (i + 1) by omega] at h
      exact ih (by omega) h fun j hj => hheld j (by omega)
    · exact absurd (hheld i (Nat.le_refl i) (by omega)) hword
    · have := Option.some.inj h
      omega

end Scan

/-! ### Checked stacks -/

/-- A fiber with a stack whose margin is kept. -/
structure HasStack (f : OrbisFiber) : Prop where
  magic : f.magicStart = fiberSignature0 ∧ f.magicEnd = fiberSignature1
  flag : hasFlag f.flags FiberFlags.contextSizeCheck
  addr_ne : f.addrContext ≠ 0
  start_eq : f.contextStart = f.addrContext
  end_eq : f.contextEnd = f.addrContext + f.sizeContext
  size_ge : fiberContextMinimumSize ≤ f.sizeContext
  size_mod : f.sizeContext % 16 = 0

section Margin

variable {f : OrbisFiber} {memory memory' : Memory} {fiber fiberInfo addr size : ℕ}
  {info : OrbisFiberInfo}

theorem initialize_ok {check : Bool} {old : OrbisFiber} {name entry : ℕ} {text : List UInt8}
    {arg : UInt64} {opt : Option OptParam} {flags buildVer : UInt32}
    (h : sceFiberInitializeImpl check old memory fiber name text entry arg addr size opt flags
      buildVer = .ok (f, memory'))
    (haddr : addr ≠ 0) :
    f.magicStart = fiberSignature0 ∧ f.magicEnd = fiberSignature1 ∧ f.addrContext = addr ∧
      f.sizeContext = size ∧
      f.contextStart = addr ∧ f.contextEnd = addr + size ∧ fiberContextMinimumSize ≤ size ∧
        size % 16 = 0 ∧
      memory' = prepareStack memory addr (addr + size)
      (hasFlag flags FiberFlags.contextSizeCheck) := by
  unfold sceFiberInitializeImpl at h
  cases hcheck : checkInitialize fiber name entry addr size opt with
  | some e => simp [hcheck] at h
  | none =>
    have hsize : fiberContextMinimumSize ≤ size ∧ size % 16 = 0 := by
      unfold checkInitialize at hcheck
      split_ifs at hcheck
      omega
    simp only [hcheck, if_pos haddr] at h
    cases h
    exact ⟨rfl, rfl, rfl, rfl, rfl, rfl, hsize.1, hsize.2, rfl⟩

theorem Checked.hasStack (h : Checked f memory) : HasStack f := by
  induction h with
  | initialised h haddr hflag =>
    obtain ⟨hs, he, ha, hsize, hstart, hend, hge, hmod, -⟩ := initialize_ok h haddr
    exact ⟨⟨hs, he⟩, hflag, ha ▸ haddr, hstart.trans ha.symm, by rw [hend, ha, hsize], hsize ▸ hge,
      hsize ▸ hmod⟩
  | attached h hmagic hflag =>
    obtain ⟨haddr, hge, hmod, -, hfiber, -⟩ := attachContext_ok h
    rw [hfiber]
    exact ⟨hmagic, hflag, haddr, rfl, rfl, hge, hmod⟩
  | used _ _ _ _ ih =>
      exact ⟨ih.magic, ih.flag, ih.addr_ne, ih.start_eq, ih.end_eq, ih.size_ge, ih.size_mod⟩

/-- The stack behind the signature, in words. -/
theorem HasStack.words (h : HasStack f) :
    f.contextEnd = f.contextStart + 8 + 8 * (f.sizeContext / 8 - 1) ∧
      8 * (f.sizeContext / 8 - 1) = f.sizeContext - 8 := by
  have hge := h.size_ge
  have hmod := h.size_mod
  rw [h.end_eq, h.start_eq]
  unfold fiberContextMinimumSize at hge
  omega

theorem allHeld_iff : AllHeld f memory ↔
    ∀ j, 0 ≤ j → j < f.sizeContext / 8 - 1 →
      memory (f.contextStart + 8 + 8 * j) = fiberStackSizeCheck := by
  simp [AllHeld, stackWords]

/-- With the signature in place the call ends exactly when every word holds the fill; it then
reports the whole stack. -/
theorem reports_iff (h : HasStack f) (hcall : ValidCall fiber fiberInfo info)
    (hsig : memory f.contextStart = fiberStackSignature) (margin : ℕ) :
    Reports fiber fiberInfo f memory info margin ↔ AllHeld f memory ∧
      margin = f.sizeContext - 8 := by
  obtain ⟨hend, hsize⟩ := h.words
  have hargs : ∀ fuel, sceFiberGetInfo fuel fiber fiberInfo f memory info =
      (scanStack memory f.contextEnd fuel (f.contextStart + 8 + 8 * 0)).map fun p =>
        .ok (info.filled f (p - (f.contextStart + 8))) := by
    intro fuel
    have hne := hcall.fiber_ne
    have hne' := hcall.info_ne
    have haligned := hcall.aligned
    unfold sceFiberGetInfo stackMargin
    rw [if_neg (by omega), if_neg (by omega), if_neg (by simp [hcall.size_eq]),
      if_neg (by simp [h.magic]), if_pos ⟨h.flag, h.addr_ne⟩, if_pos hsig, Option.map_map]
    rfl
  rw [allHeld_iff]
  constructor
  · rintro ⟨fuel, i, hrun, rfl⟩
    rw [hargs, hend] at hrun
    obtain ⟨p, hp, hi⟩ := Option.map_eq_some_iff.mp hrun
    have hheld := held_of_scan hp
    refine ⟨hheld, ?_⟩
    -- The scan of a filled stack stops at its end, however much fuel there is.
    have hlast : p = f.contextStart + 8 + 8 * (f.sizeContext / 8 - 1) := scan_end (Nat.zero_le _) hp
    cases hi
    change p - (f.contextStart + 8) = f.sizeContext - 8
    omega
  · rintro ⟨hheld, rfl⟩
    refine ⟨f.sizeContext / 8 - 1 - 0,
      info.filled f (f.contextStart + 8 + 8 * (f.sizeContext / 8 - 1) - (f.contextStart + 8)), ?_,
        ?_⟩
    · rw [hargs, hend, scan_of_held (Nat.zero_le _) hheld, Option.map_some]
    · change f.contextStart + 8 + 8 * (f.sizeContext / 8 - 1) - (f.contextStart + 8) =
        f.sizeContext - 8
      omega

theorem heldWords_of_allHeld (h : HasStack f) (hheld : AllHeld f memory) :
    8 * heldWords f memory = f.sizeContext - 8 := by
  have hall : (stackWords f memory).takeWhile (· = fiberStackSizeCheck) = stackWords f memory :=
    List.takeWhile_eq_self_iff.mpr fun w hw => decide_eq_true (hheld w hw)
  rw [heldWords, hall, stackWords, List.length_map, List.length_range]
  exact h.words.2

/-- What a stack holds after it has been prepared. -/
theorem prepareStack_word (memory : Memory) {start m j : ℕ} (fill : Bool) (hj : j < m) :
    prepareStack memory start (start + 8 + 8 * m) fill (start + 8 + 8 * j) =
      if fill then fiberStackSizeCheck else memory (start + 8 + 8 * j) := by
  unfold prepareStack
  cases fill with
  | true => exact fillStack_word (i := 0) _ (Nat.zero_le _) hj
  | false => exact Function.update_of_ne (by omega) _ _

theorem prepareStack_start (memory : Memory) (start m : ℕ) (fill : Bool) :
    prepareStack memory start (start + 8 + 8 * m) fill start = fiberStackSignature := by
  unfold prepareStack
  cases fill with
  | true =>
    refine (fillStack_of_lt (i := 0) _ (Nat.zero_le _) (by omega)).trans ?_
    exact Function.update_self ..
  | false => exact Function.update_self ..

theorem prepared_reports (h : HasStack f) (hcall : ValidCall fiber fiberInfo info) (fill : Bool) :
    Reports fiber fiberInfo f (prepareStack memory f.contextStart f.contextEnd fill) info
      (f.sizeContext - 8) ↔ fill = true ∨ AllHeld f memory := by
  obtain ⟨hend, -⟩ := h.words
  have hsig := prepareStack_start memory f.contextStart (f.sizeContext / 8 - 1) fill
  rw [← hend] at hsig
  rw [reports_iff h hcall hsig, and_iff_left rfl, allHeld_iff, allHeld_iff, hend]
  constructor
  · intro hheld
    cases fill with
    | true => exact .inl rfl
    | false =>
      refine .inr fun j hj hlt => ?_
      rw [← hheld j hj hlt, prepareStack_word memory false hlt]
      rfl
  · intro hor j hj hlt
    rw [prepareStack_word memory fill hlt]
    split_ifs with hfill
    · rfl
    · exact hor.resolve_left hfill j hj hlt

/-- For a checked stack whose signature is in place `sceFiberGetInfo` ends with the margin of the
words that hold the fill exactly when all of them do. Right after initialisation they do when the
caller has asked for the check, or the memory was filled before; right after an attachment they
always do. -/
theorem margin_reported (hcall : ValidCall fiber fiberInfo info) :
    (∀ f memory, Checked f memory → memory f.contextStart = fiberStackSignature →
      (Reports fiber fiberInfo f memory info (8 * heldWords f memory) ↔ AllHeld f memory)) ∧
    (∀ check old memory name text entry arg addr size opt flags buildVer f memory',
      sceFiberInitializeImpl check old memory fiber name text entry arg addr size opt flags
        buildVer = .ok (f, memory') →
      addr ≠ 0 → hasFlag f.flags FiberFlags.contextSizeCheck →
      (Reports fiber fiberInfo f memory' info (f.sizeContext - 8) ↔
        hasFlag flags FiberFlags.contextSizeCheck = true ∨ AllHeld f memory)) ∧
    ∀ w w' addr size, attachContext w addr size = .ok w' →
      w.fiber.magicStart = fiberSignature0 ∧ w.fiber.magicEnd = fiberSignature1 →
      hasFlag w.fiber.flags FiberFlags.contextSizeCheck →
      Reports fiber fiberInfo w'.fiber w'.memory info (w'.fiber.sizeContext - 8) := by
  refine ⟨fun f memory hf hsig => ?_, ?_, ?_⟩
  · rw [reports_iff hf.hasStack hcall hsig]
    exact ⟨And.left, fun hheld => ⟨hheld, heldWords_of_allHeld hf.hasStack hheld⟩⟩
  · intro check old memory name text entry arg addr size opt flags buildVer f memory' h haddr hflag
    have hstack := (Checked.initialised h haddr hflag).hasStack
    obtain ⟨-, -, -, -, hstart, hend, -, -, rfl⟩ := initialize_ok h haddr
    have hreports :=
      @prepared_reports _ memory _ _ _ hstack hcall (hasFlag flags FiberFlags.contextSizeCheck)
    rwa [hstart, hend] at hreports
  · intro w w' addr size h hmagic hflag
    have hstack := (Checked.attached h hmagic hflag).hasStack
    obtain ⟨-, -, -, -, hfiber, hmemory⟩ := attachContext_ok h
    have hreports := (@prepared_reports _ w.memory _ _ _ hstack hcall true).mpr (.inl rfl)
    rw [show w'.fiber.contextStart = addr by rw [hfiber],
      show w'.fiber.contextEnd = addr + size by rw [hfiber]]
      at hreports
    rw [hmemory, hflag]
    exact hreports

end Margin

/-- A fiber with a stack of 64 words, initialised while the check is on for all fibers. -/
def checkedFiber : OrbisFiber :=
  { magicStart := fiberSignature0, state := .idle, entry := 0x1000, argOnInitialize :=
    0, addrContext := 0x4000,
    sizeContext := 0x200, name := [], context := 0, flags :=
      FiberFlags.contextSizeCheck, contextStart := 0x4000,
    contextEnd := 0x4200, magicEnd := fiberSignature1 }

def marginInfo : OrbisFiberInfo :=
  { size := sizeofFiberInfo, entry := 0, argOnInitialize := 0, addrContext := 0, sizeContext :=
    0, name := [], sizeContextMargin := 0 }

/-- The check asked for by `sceFiberStartContextSizeCheck` alone leaves a zeroed stack unfilled, and
the call does not end. -/
theorem unfilled_stack_hangs :
    (sceFiberInitializeImpl true checkedFiber (fun _ => 0) 0x2000 0x3000
      [] 0x1000 0 0x4000 0x200 none 0 0).toOption.map
        (fun r => (r.1.flags, r.1.sizeContext, r.2 0x4000, r.2 0x4008)) =
      some (FiberFlags.contextSizeCheck, 0x200, fiberStackSignature, 0) ∧
    ∀ fuel, sceFiberGetInfo fuel 0x2000 0x5000 checkedFiber
      (Function.update (fun _ => 0) 0x4000 fiberStackSignature)
      marginInfo = none := by
  refine ⟨by decide, fun fuel => ?_⟩
  have hscan : scanStack (Function.update (fun _ => 0) 0x4000 fiberStackSignature) 0x4200 fuel
    0x4008 = none := by
    induction fuel with
    | zero => rfl
    | succ fuel ih =>
      rw [scanStack, if_pos (by decide), if_neg (by decide)]
      exact ih
  have hmargin : stackMargin fuel checkedFiber
    (Function.update (fun _ => 0) 0x4000 fiberStackSignature) = none := by
    unfold stackMargin
    rw [if_pos (by decide), if_pos (by decide)]
    exact congrArg _ hscan
  unfold sceFiberGetInfo
  rw [if_neg (by decide), if_neg (by decide), if_neg (by decide), if_neg (by decide), hmargin]
  rfl

theorem margin_reported_sample :
    ∃ w', attachContext ⟨{ checkedFiber with addrContext := 0 }, fun _ => 0, 0⟩ 0x4000 0x200 =
      .ok w' ∧ Reports 0x2000 0x5000 w'.fiber w'.memory marginInfo (w'.fiber.sizeContext - 8) ∧
      (Reports 0x2000 0x5000 { w'.fiber with state := .run, context := 0 }
          (Function.update (fun _ => 0) w'.fiber.contextStart fiberStackSignature) marginInfo
          (8 * heldWords { w'.fiber with state := .run, context := 0 }
            (Function.update (fun _ => 0) w'.fiber.contextStart fiberStackSignature)) ↔
        AllHeld { w'.fiber with state := .run, context := 0 }
          (Function.update (fun _ => 0) w'.fiber.contextStart fiberStackSignature)) :=
  let ⟨w', h⟩ : ∃ w',
    attachContext ⟨{ checkedFiber with addrContext := 0 }, fun _ => 0, 0⟩ 0x4000 0x200 = .ok w' :=
    attachContext_of (by decide) (by decide) (by decide) rfl
  let hspec := @margin_reported 0x2000 0x5000 marginInfo ⟨by decide, by decide, by decide, rfl⟩
  ⟨w', h, hspec.2.2 _ w' _ _ h ⟨rfl, rfl⟩ (by decide),
    hspec.1 _ _ ((Checked.attached h ⟨rfl, rfl⟩ (by decide)).used .run 0 _)
      (Function.update_self ..)⟩

end PS4Droid.Fiber
