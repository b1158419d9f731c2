import Mathlib.Algebra.Order.Ring.Int
import PS4Droid.Np.Signaling

/-!
# The budget for activations

Each activation takes a part of a budget that fills up again with time. A refused activation takes
nothing, but the budget is filled up to its time.
-/

namespace PS4Droid.Np

variable {ctx : Context} {now since upTo : ℤ} {times : List ℤ}

/-- The budget at an attempt. -/
def Context.available (ctx : Context) (now : ℤ) : ℤ :=
  if ctx.activateLastUpdateUs = 0 then activateBudgetMaxUs
  else min activateBudgetMaxUs (ctx.activateBudgetUs + max 0 (now - ctx.activateLastUpdateUs))

/-- Attempts at these times, with their answers. -/
def Context.attempts (ctx : Context) : List ℤ → List (ℤ × Bool)
  | [] => []
  | now :: times =>
    (now, (ctx.consumeActivationBudgetGated now).1) ::
      (ctx.consumeActivationBudgetGated now).2.attempts times

def Context.afterAttempts (ctx : Context) (times : List ℤ) : Context :=
  times.foldl (fun ctx now => (ctx.consumeActivationBudgetGated now).2) ctx

/-- How many attempts succeed from one time to another. -/
def Context.granted (ctx : Context) (times : List ℤ) (since upTo : ℤ) : ℕ :=
  (ctx.attempts times).countP fun attempt => attempt.2 ∧ since ≤ attempt.1 ∧ attempt.1 ≤ upTo

/-- The context of a title that is limited. -/
structure Context.Limited (ctx : Context) : Prop where
  sdk : 0x16fffff < ctx.compiledSdkVersion
  nonneg : 0 ≤ ctx.activateBudgetUs
  le_max : ctx.activateBudgetUs ≤ activateBudgetMaxUs

/-- The context that is made for such a title. -/
theorem limited_createContext {s : State} {input : Input} {npid : NpId} {callback : Bool}
    {flags : ℕ} {id : ℤ} (hsdk : 0x16fffff < input.sdkVersion) (hold : s.contexts id ≠ some ctx)
    (hnew : (createContext s input npid callback flags).contexts id = some ctx) : ctx.Limited := by
  rw [createContext, State.allocateContextId] at hnew
  cases hid : ((List.range 8).map fun i => (s.lastAssignedContextId + i) % 8 + 1).find?
      fun (id : ℕ) => (s.contexts id).isNone with
  | none =>
    rw [hid] at hnew
    exact absurd hnew hold
  | some ctxId =>
    simp only [hid, Function.update_apply] at hnew
    split_ifs at hnew
    · cases hnew
      exact ⟨hsdk, (by decide : (0 : ℤ) ≤ activateBudgetMaxUs), le_refl _⟩
    · exact absurd hnew hold

/-! ### One attempt -/

theorem Context.Limited.available_bounds (h : ctx.Limited) (now : ℤ) :
    0 ≤ ctx.available now ∧ ctx.available now ≤ activateBudgetMaxUs := by
  have hnonneg := h.nonneg
  have hmax : (0 : ℤ) ≤ activateBudgetMaxUs := by decide
  rw [Context.available]
  split_ifs
  · exact ⟨hmax, le_refl _⟩
  · omega

/-- An attempt is refused if there is less than an activation takes. -/
theorem Context.Limited.consume (h : ctx.Limited) (now : ℤ) : ctx.consumeActivationBudgetGated now =
    (decide (activateCooldownUs ≤ ctx.available now), { ctx with
      activateLastUpdateUs := now
      activateBudgetUs :=
        if activateCooldownUs ≤ ctx.available now then ctx.available now - activateCooldownUs
        else ctx.available now }) := by
  rw [Context.consumeActivationBudgetGated, if_neg (Nat.not_le.mpr h.sdk),
    Context.consumeActivationBudget]
  have havailable : (if ctx.activateLastUpdateUs = 0 then activateBudgetMaxUs
      else min activateBudgetMaxUs
        (ctx.activateBudgetUs + max 0 (now - ctx.activateLastUpdateUs))) = ctx.available now := rfl
  rw [havailable]
  by_cases hcooldown : activateCooldownUs ≤ ctx.available now
  · simp [hcooldown, not_lt.mpr hcooldown]
  · simp [hcooldown, not_le.mp hcooldown]

theorem Context.Limited.next (h : ctx.Limited) (now : ℤ) :
    (ctx.consumeActivationBudgetGated now).2.Limited := by
  obtain ⟨hlow, hhigh⟩ := h.available_bounds now
  have hcooldown : (0 : ℤ) ≤ activateCooldownUs := by decide
  rw [h.consume]
  refine ⟨h.sdk, ?_, ?_⟩
  · dsimp only
    split_ifs <;> omega
  · dsimp only
    split_ifs <;> omega

/-! ### Runs of attempts -/

theorem Context.Limited.afterAttempts (h : ctx.Limited) (times : List ℤ) :
    (ctx.afterAttempts times).Limited := by
  induction times generalizing ctx with
  | nil => exact h
  | cons now times ih => exact ih (h.next now)

theorem Context.granted_cons (ctx : Context) (now : ℤ) (times : List ℤ) (since upTo : ℤ) :
    ctx.granted (now :: times) since upTo =
      (ctx.consumeActivationBudgetGated now).2.granted times since upTo +
      if (ctx.consumeActivationBudgetGated now).1 = true ∧ since ≤ now ∧ now ≤ upTo then 1
        else 0 := by
  rw [Context.granted, Context.attempts, List.countP_cons]
  simp only [decide_eq_true_eq]
  rfl

theorem Context.granted_of_late (ctx : Context) (h : ∀ now ∈ times, upTo < now) :
    ctx.granted times since upTo = 0 := by
  induction times generalizing ctx with
  | nil => rfl
  | cons now times ih =>
    rw [Context.granted_cons, ih _ fun now hnow => h now (List.mem_cons_of_mem _ hnow), if_neg]
    rintro ⟨-, -, hle⟩
    exact absurd (h now List.mem_cons_self) (not_lt.mpr hle)

/-- What succeeds up to a time was there after the last attempt or was filled up since. -/
theorem Context.Limited.granted_le (h : ctx.Limited) (hlast : ctx.activateLastUpdateUs ≠ 0)
    (hsorted : (ctx.activateLastUpdateUs :: times).Pairwise (· ≤ ·)) (hpos : ∀ now ∈ times, 0 < now)
    (hupTo : ctx.activateLastUpdateUs ≤ upTo) (since : ℤ) :
    activateCooldownUs * ctx.granted times since upTo ≤
      ctx.activateBudgetUs + (upTo - ctx.activateLastUpdateUs) := by
  induction times generalizing ctx with
  | nil =>
    have hnonneg := h.nonneg
    rw [show ctx.granted [] since upTo = 0 from rfl]
    omega
  | cons now times ih =>
    obtain ⟨hfirst, hrest⟩ := List.pairwise_cons.mp hsorted
    have hle : ctx.activateLastUpdateUs ≤ now := hfirst now List.mem_cons_self
    have hnow : 0 < now := hpos now List.mem_cons_self
    have havailable : ctx.available now ≤
      ctx.activateBudgetUs + (now - ctx.activateLastUpdateUs) := by
      rw [Context.available, if_neg hlast]
      omega
    have hnext := h.next now
    rw [Context.granted_cons]
    by_cases hlate : upTo < now
    · rw [Context.granted_of_late, if_neg fun hcond => absurd hcond.2.2 (not_le.mpr hlate)]
      · have hnonneg := h.nonneg
        push_cast
        omega
      · intro later hlater
        exact lt_of_lt_of_le hlate ((List.pairwise_cons.mp hrest).1 later hlater)
    · rw [h.consume] at hnext ⊢
      have hbound :=
        ih hnext (ne_of_gt hnow) hrest (fun now hnow => hpos now (List.mem_cons_of_mem _ hnow))
        (not_lt.mp hlate)
      dsimp only at hbound ⊢
      have hin : ((decide (activateCooldownUs ≤ ctx.available now)) = true ∧ since ≤ now ∧
        now ≤ upTo) →
          activateCooldownUs ≤ ctx.available now := fun hcond => of_decide_eq_true hcond.1
      rw [Nat.cast_add, mul_add]
      by_cases hcooldown : activateCooldownUs ≤ ctx.available now
      · rw [if_pos hcooldown] at hbound ⊢
        have hcooldown_pos : (0 : ℤ) ≤ activateCooldownUs := by decide
        split_ifs
        · rw [Nat.cast_one, mul_one]
          omega
        · rw [Nat.cast_zero, mul_zero]
          omega
      · rw [if_neg hcooldown] at hbound ⊢
        rw [if_neg fun hcond => hcooldown (hin hcond), Nat.cast_zero, mul_zero]
        omega

/-- In any window no more attempts succeed than a full budget and the time of the window allow. -/
theorem Context.Limited.granted_window (h : ctx.Limited) (hsorted : times.Pairwise (· ≤ ·))
    (hpos : ∀ now ∈ times, 0 < now) {length : ℤ} (hlength : 0 ≤ length) (since : ℤ) :
    activateCooldownUs * ctx.granted times since (since + length) ≤
      activateBudgetMaxUs + length := by
  induction times generalizing ctx with
  | nil =>
    have hmax : (0 : ℤ) ≤ activateBudgetMaxUs := by decide
    rw [show ctx.granted [] since (since + length) = 0 from rfl]
    omega
  | cons now times ih =>
    obtain ⟨hfirst, hrest⟩ := List.pairwise_cons.mp hsorted
    have hpos' : ∀ now ∈ times, 0 < now := fun now hnow => hpos now (List.mem_cons_of_mem _ hnow)
    have hnext := h.next now
    rw [Context.granted_cons]
    by_cases hin : since ≤ now ∧ now ≤ since + length
    · have hnow : 0 < now := hpos now List.mem_cons_self
      have havailable := (h.available_bounds now).2
      rw [h.consume] at hnext ⊢
      have hbound := hnext.granted_le (ne_of_gt hnow) hsorted hpos' hin.2 since
      dsimp only at hbound ⊢
      rw [Nat.cast_add, mul_add]
      by_cases hcooldown : activateCooldownUs ≤ ctx.available now
      · rw [if_pos hcooldown] at hbound ⊢
        rw [if_pos ⟨decide_eq_true hcooldown, hin⟩, Nat.cast_one, mul_one]
        omega
      · rw [if_neg hcooldown] at hbound ⊢
        rw [if_neg fun hcond => hcooldown (of_decide_eq_true hcond.1), Nat.cast_zero, mul_zero]
        omega
    · rw [if_neg fun hcond => hin hcond.2, Nat.add_zero]
      exact ih hnext hrest hpos'

/-- Whatever the attempts are: the budget stays between nothing and its maximum, an attempt is
refused exactly if there is less than an activation takes, and no window sees more activations than
its length allows. -/
theorem activations_limited (h : ctx.Limited) (hpos : ∀ now ∈ times, 0 < now)
    (hsorted : times.Pairwise (· ≤ ·)) :
    (0 ≤ (ctx.afterAttempts times).activateBudgetUs ∧
      (ctx.afterAttempts times).activateBudgetUs ≤ activateBudgetMaxUs) ∧
      (∀ now, ((ctx.afterAttempts times).consumeActivationBudgetGated now).1 = false ↔
        (ctx.afterAttempts times).available now < activateCooldownUs) ∧
      ∀ since length, 0 ≤ length →
        (ctx.granted times since (since + length) : ℤ) ≤
          (activateBudgetMaxUs + length) / activateCooldownUs := by
  have hafter := h.afterAttempts times
  refine ⟨⟨hafter.nonneg, hafter.le_max⟩, fun now => ?_, fun since length hlength => ?_⟩
  · rw [hafter.consume, decide_eq_false_iff_not, not_le]
  · have hbound := h.granted_window hsorted hpos hlength since
    refine (Int.le_ediv_iff_mul_le (by decide)).mpr ?_
    rw [mul_comm]
    exact hbound

/-- A context that has a second of its budget left, at ten seconds and twice at fifteen. -/
def sampleContext : Context :=
  { callback := true, active := true, flags := 2, accountId := 0, platformType :=
    0, compiledSdkVersion := 0x5000000,
    ownerNpid := .zero, ownerOnlineId := .zero, activateBudgetUs := 1000000, activateLastUpdateUs :=
      9000000 }

theorem activations_limited_sample : sampleContext.Limited ∧
    (0 ≤ (sampleContext.afterAttempts [10000000, 15000000, 15000000]).activateBudgetUs ∧
      (sampleContext.afterAttempts [10000000, 15000000, 15000000]).activateBudgetUs ≤
        activateBudgetMaxUs) ∧
    sampleContext.attempts [10000000, 15000000, 15000000] = [(10000000, false), (15000000, true),
      (15000000, false)] := by
  have h : sampleContext.Limited := ⟨by decide, by decide, by decide⟩
  exact ⟨h, (activations_limited h (by decide) (by decide)).1, rfl⟩

end PS4Droid.Np
