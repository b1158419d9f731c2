import Mathlib.Data.List.Basic

/-!
# Threads that run critical sections

A thread holds the list of sections it still has to run. A section takes an input from outside,
changes the shared state and puts further sections in front of the list. Sections of different
threads interleave in every order; what may be started depends on the number of the thread.
-/

namespace PS4Droid.Sections

structure Machine (State Task Input : Type) where
  exec : Input → Task → State → State × List Task
  allowed : State → Input → Task → Prop
  entry : ℕ → Task → Prop

structure Config (State Task : Type) where
  state : State
  threads : List (List Task)

variable {State Task Input : Type} (machine : Machine State Task Input)

/-- The sections that some thread still has to run. -/
def Config.held (config : Config State Task) : List Task := config.threads.flatten

/-- One section is run, or a thread without sections starts a call. The condition `ok` is on the
state before the section, on all sections held and on the section. -/
inductive Machine.Step (ok : State → List Task → Input → Task → Prop) :
    Config State Task → Config State Task → Prop
  | start {state : State} {before after : List (List Task)} {task : Task} :
    machine.entry before.length task →
    Step ok ⟨state, before ++ [] :: after⟩ ⟨state, before ++ [task] :: after⟩
  | run {state : State} {before after : List (List Task)} {task : Task} {rest : List Task}
      {input : Input} :
    machine.allowed state input task →
    ok state (before ++ (task :: rest) :: after).flatten input task →
    Step ok ⟨state, before ++ (task :: rest) :: after⟩
      ⟨(machine.exec input task state).1,
        before ++ ((machine.exec input task state).2 ++ rest) :: after⟩

/-- What a run reaches from an initial state with idle threads. -/
inductive Machine.Reachable (ok : State → List Task → Input → Task → Prop) (initial : State) :
    Config State Task → Prop
  | start (count : ℕ) : Reachable ok initial ⟨initial, List.replicate count []⟩
  | step {config config' : Config State Task} :
    Reachable ok initial config → machine.Step ok config config' → Reachable ok initial config'

variable {before after tasks rest : List Task} {task task' : Task} {config : Config State Task}
  {state state' : State}

/-- A section that was held is held after a thread has started another. -/
theorem mem_of_start (h : task' ∈ before ++ after) :
    task' ∈ before ++ task :: after :=
  List.mem_append.mpr ((List.mem_append.mp h).imp_right (List.mem_cons_of_mem task))

/-- A section that was held is held after another was run. -/
theorem mem_of_run (h : task' ∈ before ++ task :: after)
    (hne : task' ≠ task) : task' ∈ before ++ (tasks ++ after) := by
  simp only [List.mem_append, List.mem_cons] at h ⊢
  rcases h with h | h | h
  · exact .inl h
  · exact absurd h hne
  · exact .inr (.inr h)

/-- A section that follows is held. -/
theorem mem_of_follows (h : task' ∈ tasks) :
    task' ∈ before ++ (tasks ++ after) :=
  List.mem_append_right _ (List.mem_append_left _ h)

/-- No condition. -/
def anyRun : State → List Task → Input → Task → Prop := fun _ _ _ _ => True

variable {machine} {ok : State → List Task → Input → Task → Prop} {initial : State}

/-- An invariant of the state and of the sections held. -/
theorem Machine.Reachable.held_invariant {P : State → List Task → Prop} (hinitial : P initial [])
    (hstart : ∀ state before after task number, machine.entry number task →
      P state (before ++ after) → P state (before ++ task :: after))
    (hrun : ∀ state before after task input, machine.allowed state input task →
      ok state (before ++ task :: after) input task → P state (before ++ task :: after) →
      P (machine.exec input task state).1 (before ++ ((machine.exec input task state).2 ++ after)))
    (h : machine.Reachable ok initial config) : P config.state config.held := by
  induction h with
  | start count =>
    have hnil : (List.replicate count ([] : List Task)).flatten = [] := by simp
    rw [Config.held, hnil]
    exact hinitial
  | step _ hstep ih =>
    cases hstep with
    | start hentry =>
      simp only [Config.held, List.flatten_append, List.flatten_cons, List.nil_append] at ih
      simp only [Config.held, List.flatten_append, List.flatten_cons, List.singleton_append]
      exact hstart _ _ _ _ _ hentry ih
    | run hallowed hok =>
      simp only [Config.held, List.flatten_append, List.flatten_cons, List.cons_append] at ih hok
      simp only [Config.held, List.flatten_append, List.flatten_cons, List.append_assoc]
      exact hrun _ _ _ _ _ hallowed hok ih

/-- An invariant of the state alone. -/
theorem Machine.Reachable.state_invariant {P : State → Prop} (hinitial : P initial)
    (hrun : ∀ state held task input, machine.allowed state input task → ok state held input task →
      P state → P (machine.exec input task state).1)
    (h : machine.Reachable ok initial config) : P config.state := by
  induction h with
  | start count => exact hinitial
  | step _ hstep ih =>
    cases hstep with
    | start hentry => exact ih
    | run hallowed hok => exact hrun _ _ _ _ hallowed hok ih

/-! ## A thread that is not interrupted -/

/-- One thread runs its sections to the end. -/
inductive Machine.Alone (machine : Machine State Task Input) : List Task → State → State → Prop
  | done {state : State} : Alone machine [] state state
  | run {task : Task} {rest : List Task} {state state' : State} {input : Input} :
    machine.allowed state input task →
    Alone machine ((machine.exec input task state).2 ++ rest)
      (machine.exec input task state).1 state' →
    Alone machine (task :: rest) state state'

theorem Machine.alone_cons :
    machine.Alone (task :: rest) state state' ↔ ∃ input, machine.allowed state input task ∧
        machine.Alone ((machine.exec input task state).2 ++ rest)
        (machine.exec input task state).1 state' := by
  constructor
  · intro h
    cases h with
    | run hallowed hrest => exact ⟨_, hallowed, hrest⟩
  · rintro ⟨input, hallowed, hrest⟩
    exact .run hallowed hrest

/-- A section that takes nothing from outside. -/
theorem Machine.alone_cons_of_exec [Nonempty Input]
    {state₁ : State} (hallowed : ∀ input, machine.allowed state input task)
    (hexec : ∀ input, machine.exec input task state = (state₁, tasks)) :
    machine.Alone (task :: rest) state state' ↔ machine.Alone (tasks ++ rest) state₁ state' := by
  simp only [Machine.alone_cons, hexec]
  constructor
  · rintro ⟨-, -, hrest⟩
    exact hrest
  · intro hrest
    obtain ⟨input⟩ := ‹Nonempty Input›
    exact ⟨input, hallowed input, hrest⟩

theorem Machine.alone_nil : machine.Alone [] state state' ↔ state' = state := by
  constructor
  · intro h
    cases h
    rfl
  · rintro rfl
    exact .done

/-! ## Runs given move by move -/

inductive Move (Task Input : Type) where
  | start (thread : ℕ) (task : Task)
  | run (thread : ℕ) (input : Input)

/-- The configuration after a move. -/
def Machine.play (machine : Machine State Task Input) (config : Config State Task) :
    Move Task Input → Config State Task
  | .start thread task => ⟨config.state, config.threads.set thread [task]⟩
  | .run thread input =>
    match config.threads[thread]? with
    | some (task :: rest) =>
      ⟨(machine.exec input task config.state).1,
        config.threads.set thread ((machine.exec input task config.state).2 ++ rest)⟩
    | _ => config

/-- The moves that are steps. -/
def Machine.Legal (machine : Machine State Task Input)
    (ok : State → List Task → Input → Task → Prop)
    (config : Config State Task) : Move Task Input → Prop
  | .start thread task => config.threads[thread]? = some [] ∧ machine.entry thread task
  | .run thread input => ∃ task rest, config.threads[thread]? = some (task :: rest) ∧
      machine.allowed config.state input task ∧ ok config.state config.held input task

theorem set_eq_of_getElem? {α : Type} {xs : List α} {i : ℕ} {x : α} (h : xs[i]? = some x) :
    ∃ before after, xs = before ++ x :: after ∧ before.length = i ∧
      ∀ y, xs.set i y = before ++ y :: after := by
  obtain ⟨hi, rfl⟩ := List.getElem?_eq_some_iff.mp h
  refine ⟨xs.take i, xs.drop (i + 1), ?_, ?_, ?_⟩
  · rw [← List.drop_eq_getElem_cons hi, List.take_append_drop]
  · exact List.length_take_of_le (Nat.le_of_lt hi)
  · intro y
    rw [List.set_eq_take_append_cons_drop, if_pos hi]

theorem Machine.Legal.step {move : Move Task Input} (hlegal : machine.Legal ok config move) :
    machine.Step ok config (machine.play config move) := by
  obtain ⟨state, threads⟩ := config
  cases move with
  | start thread task =>
    obtain ⟨hthread, hentry⟩ := hlegal
    obtain ⟨before, after, rfl, rfl, hset⟩ := set_eq_of_getElem? hthread
    rw [Machine.play, hset]
    exact .start hentry
  | run thread input =>
    obtain ⟨task, rest, hthread, hallowed, hok⟩ := hlegal
    obtain ⟨before, after, rfl, rfl, hset⟩ := set_eq_of_getElem? hthread
    rw [Machine.play]
    dsimp only at hthread ⊢
    rw [hthread]
    dsimp only
    rw [hset]
    exact .run hallowed hok

/-- A test for a move, from tests for the tasks with which threads start and for the sections. -/
def testMove (isEntry : ℕ → Task → Bool) (mayRun : State → List Task → Input → Task → Bool)
    (config : Config State Task) : Move Task Input → Bool
  | .start thread task =>
    match config.threads[thread]? with
    | some [] => isEntry thread task
    | _ => false
  | .run thread input =>
    match config.threads[thread]? with
    | some (task :: _) => mayRun config.state config.held input task
    | _ => false

theorem Machine.legal_of_testMove {isEntry : ℕ → Task → Bool}
    {mayRun : State → List Task → Input → Task → Bool}
    (hentry : ∀ thread task, isEntry thread task = true → machine.entry thread task)
    (hrun : ∀ state held input task, mayRun state held input task = true →
      machine.allowed state input task ∧ ok state held input task)
    (config : Config State Task) (move : Move Task Input)
    (h : testMove isEntry mayRun config move = true) :
    machine.Legal ok config move := by
  cases move with
  | start thread task =>
    rw [testMove] at h
    split at h
    · exact ⟨‹_›, hentry _ _ h⟩
    · cases h
  | run thread input =>
    rw [testMove] at h
    split at h
    · exact ⟨_, _, ‹_›, hrun _ _ _ _ h⟩
    · cases h

/-- A run whose moves pass a test. -/
def Machine.checkRun (machine : Machine State Task Input)
    (check : Config State Task → Move Task Input → Bool) :
    Config State Task → List (Move Task Input) → Bool
  | _, [] => true
  | config, move :: moves =>
      check config move && machine.checkRun check (machine.play config move) moves

theorem Machine.Reachable.of_checkRun {check : Config State Task → Move Task Input → Bool}
    (hcheck : ∀ config move, check config move = true → machine.Legal ok config move)
    (h : machine.Reachable ok initial config) (moves : List (Move Task Input))
    (hmoves : machine.checkRun check config moves = true) :
    machine.Reachable ok initial (moves.foldl machine.play config) := by
  induction moves generalizing config with
  | nil => exact h
  | cons move moves ih =>
    rw [Machine.checkRun, Bool.and_eq_true] at hmoves
    exact ih (.step h (hcheck config move hmoves.1).step) hmoves.2

end PS4Droid.Sections
