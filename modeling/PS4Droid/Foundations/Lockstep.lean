import Mathlib.Data.Nat.Basic

/-!
# Measuring runs and working runs

A program in stages is run twice: once it only measures what it would use, once it works with a
limit. Both are in lockstep as long as the working run is not starved. A run is none at a fault.
-/

namespace PS4Droid

/-!
### Outcomes of fallible programs

What a program in `Except` may end with: a result that satisfies the postcondition, or one of the
errors that are not excluded.
-/

variable {ε α β : Type} {E : ε → Prop} {P Q : α → Prop} {x : Except ε α} {b : β}

theorem bind_ok {f : α → Except ε β} (h : (x >>= f) = .ok b) :
    ∃ a, x = .ok a ∧ f a = .ok b := by
  cases x with
  | error e => cases h
  | ok a => exact ⟨a, rfl, h⟩

theorem map_ok {f : α → β} (h : f <$> x = .ok b) : ∃ a, x = .ok a ∧ f a = b := by
  cases x with
  | error e => cases h
  | ok a => exact ⟨a, rfl, Except.ok.inj h⟩

theorem pure_ok {a b : α} (h : (pure a : Except ε α) = .ok b) : a = b := Except.ok.inj h

/-- A result, from its evaluation. -/
theorem ok_of_any {p : α → Prop} [DecidablePred p]
    (h : (x.toOption.any fun a => p a) = true) : ∃ a, x = .ok a ∧ p a := by
  cases x with
  | error e => cases h
  | ok a => exact ⟨a, rfl, of_decide_eq_true h⟩

/-- The program ends with a result in `Q` or with an error in `E`. -/
def Outcome (E : ε → Prop) (x : Except ε α) (Q : α → Prop) : Prop :=
  match x with
  | .ok a => Q a
  | .error e => E e

namespace Outcome

variable {x : Except ε α}

theorem mono (h : Outcome E x P) (hPQ : ∀ a, P a → Q a) : Outcome E x Q := by
  cases x with
  | ok a => exact hPQ a h
  | error e => exact h

theorem errors {E' : ε → Prop} (h : Outcome E x P) (hE : ∀ e, E e → E' e) :
    Outcome E' x P := by
  cases x with
  | ok a => exact h
  | error e => exact hE e h

theorem bind {f : α → Except ε β} {R : β → Prop} (h : Outcome E x P)
    (hf : ∀ a, P a → Outcome E (f a) R) : Outcome E (x >>= f) R := by
  cases x with
  | ok a => exact hf a h
  | error e => exact h

theorem exists_ok (h : Outcome E x P) (hE : ∀ e, ¬ E e) : ∃ a, x = .ok a ∧ P a := by
  cases x with
  | ok a => exact ⟨a, rfl, h⟩
  | error e => exact absurd h (hE e)

theorem foldlM {σ : Type} {f : σ → α → Except ε σ} {R : σ → Prop} {xs : List α}
    (hf : ∀ s, ∀ x ∈ xs, R s → Outcome E (f s x) R) {s : σ} (h : R s) :
    Outcome E (xs.foldlM f s) R := by
  induction xs generalizing s with
  | nil => exact h
  | cons x xs ih =>
    rw [List.foldlM_cons]
    exact (hf s x (.head _) h).bind fun s' h' => ih (fun s y hy => hf s y (.tail _ hy)) h'

end Outcome

end PS4Droid

/-! ### Stages -/

namespace Lockstep

/-- A stage stops with a status or goes on. -/
inductive Step (ε σ : Type*) where
  | stopped (status : ε) (state : σ)
  | goesOn (state : σ)

variable {ε σ τ : Type*}

def andThen (run : Option (Step ε σ)) (next : σ → Option (Step ε σ)) : Option (Step ε σ) :=
  match run with
  | none => none
  | some (.stopped status s) => some (.stopped status s)
  | some (.goesOn s) => next s

/-- The working run goes on with the measuring run in related states, or stops with it, or is
starved; it is only starved where the measuring run stops too, or uses more than the limit up to
`slack`. -/
inductive InStep (size : σ → ℕ) (limit : ℕ) (starved : ε) (frame : τ → Prop) (slack : ℕ)
    (related : σ → τ → Prop) :
    Option (Step ε σ) → Option (Step ε τ) → Prop
  | stopped {status : ε} {m : σ} {w : τ} (kept : frame w) :
      InStep size limit starved frame slack related (some (.stopped status m))
        (some (.stopped status w))
  | starvedStopped {status : ε} {m : σ} {w : τ} (kept : frame w) :
      InStep size limit starved frame slack related (some (.stopped status m))
        (some (.stopped starved w))
  | starvedGoesOn {m : σ} {w : τ} (kept : frame w) (short : limit < size m + slack) :
      InStep size limit starved frame slack related (some (.goesOn m)) (some (.stopped starved w))
  | goesOn {m : σ} {w : τ} (goes : related m w) :
      InStep size limit starved frame slack related (some (.goesOn m)) (some (.goesOn w))

/-- Two runs stop alike or go on in related states. -/
inductive Alike (related : σ → τ → Prop) : Option (Step ε σ) → Option (Step ε τ) → Prop
  | stopped {status : ε} {m : σ}
      {w : τ} : Alike related (some (.stopped status m)) (some (.stopped status w))
  | goesOn {m : σ} {w : τ}
      (goes : related m w) : Alike related (some (.goesOn m)) (some (.goesOn w))

/-- A measuring stage has no fault and, if it goes on, has used enough. -/
def Grows (size : σ → ℕ) (slack slack' : ℕ) (next : σ → Option (Step ε σ)) : Prop :=
  ∀ m, (∃ status m', next m = some (.stopped status m')) ∨
    ∃ m', next m = some (.goesOn m') ∧ size m + slack ≤ size m' + slack'

variable {size : σ → ℕ} {limit slack slack' : ℕ} {starved : ε} {frame : τ → Prop}
  {related related' : σ → τ → Prop}
  {measuring : Option (Step ε σ)} {working : Option (Step ε τ)} {next : σ → Option (Step ε σ)}
  {next' : τ → Option (Step ε τ)}

/-- Stages behind each other are in lockstep if each is. -/
theorem InStep.andThen (h : InStep size limit starved frame slack related measuring working)
    (hgrows : Grows size slack slack' next)
    (hnext : ∀ m w, related m w →
      InStep size limit starved frame slack' related' (next m) (next' w)) :
    InStep size limit starved frame slack' related' (andThen measuring next)
    (andThen working next') := by
  cases h with
  | stopped kept => exact .stopped kept
  | starvedStopped kept => exact .starvedStopped kept
  | goesOn goes => exact hnext _ _ goes
  | @starvedGoesOn m w kept short =>
    obtain ⟨status, m', hstop⟩ | ⟨m', hgo, hsize⟩ := hgrows m
    · simp only [Lockstep.andThen, hstop]
      exact .starvedStopped kept
    · simp only [Lockstep.andThen, hgo]
      exact .starvedGoesOn kept (by omega)

variable {run : Option (Step ε σ)}

/-- Stages behind each other are alike if each is. -/
theorem Alike.andThen {run' : Option (Step ε τ)} (h : Alike related run run')
    (hnext : ∀ m w, related m w → Alike related' (next m) (next' w)) :
    Alike related' (Lockstep.andThen run next) (Lockstep.andThen run' next') := by
  cases h with
  | stopped => exact .stopped
  | goesOn goes => exact hnext _ _ goes

/-- The stages stop with certain statuses only. -/
def StopsWith (P : ε → Prop) (run : Option (Step ε σ)) : Prop :=
  ∀ status s, run = some (.stopped status s) → P status

theorem StopsWith.andThen {P : ε → Prop} (h : StopsWith P run) (hnext : ∀ s, StopsWith P (next s)) :
    StopsWith P (Lockstep.andThen run next) := by
  intro status s hrun
  rw [Lockstep.andThen.eq_def] at hrun
  split at hrun
  · cases hrun
  · obtain ⟨rfl, rfl⟩ := Step.stopped.inj (Option.some.inj hrun)
    exact h _ _ rfl
  · exact hnext _ _ _ hrun

end Lockstep
