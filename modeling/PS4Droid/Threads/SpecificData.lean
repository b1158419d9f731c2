import PS4Droid.Foundations.Counting

/-!
# Thread-specific data

The keys of `pthread_spec.cpp` and the values that threads keep under them. A key that is deleted
and created again is a new incarnation of its slot: the values set under the old one stay in the
slots of the threads and are told apart by a sequence number.

The calls of all threads interleave. The cleanup of an exiting thread is cut at every iteration of
its loop and at every destructor, which runs without the lock and may make calls of its own. A step
of a run records what its call answered in a history beside the program's state, and what the calls
are for is said in terms of that history.
-/

namespace PS4Droid.Threads.SpecificData

def pthreadKeysMax : ℕ := 256

def pthreadDestructorIterations : ℕ := 4

variable {ι α δ : Type} [DecidableEq ι]

structure PthreadKey (δ : Type) where
  allocated : Bool
  seqno : ℕ
  destructor : Option δ

structure PthreadSpecificElem (α : Type) where
  data : Option α
  seqno : ℕ

/-- Where a thread is: at the head of the cleanup loop for a pass and a key, inside the destructor
called for it, or gone. -/
inductive Phase where
  | running
  | cleaning (pass key : ℕ)
  | destructing (pass key : ℕ)
  | exited
  deriving DecidableEq

/-- A thread makes calls while it runs and from within a destructor. -/
def Phase.Calls : Phase → Prop
  | .running => True
  | .destructing _ _ => True
  | _ => False

def Phase.Exited : Phase → Prop
  | .exited => True
  | _ => False

structure Pthread (α : Type) where
  specific : Option (ℕ → PthreadSpecificElem α)
  specificDataCount : ℤ
  phase : Phase

/-- The slots of a thread, null where none are allocated. -/
def Pthread.slots (thread : Pthread α) : ℕ → PthreadSpecificElem α :=
  thread.specific.getD fun _ => ⟨none, 0⟩

inductive Event (ι α δ : Type) where
  | created (key : ℕ) (destructor : Option δ)
  | deleted (key : ℕ)
  | set (thread : ι) (key : ℕ) (value : Option α)
  | visited (thread : ι) (key : ℕ)

structure Call (ι α δ : Type) where
  thread : ι
  key : ℕ
  destructor : δ
  data : α

/-- The key table and the threads, with the history and the destructor calls so far, newest
first. -/
structure System (ι α δ : Type) where
  keytable : ℕ → PthreadKey δ
  threads : ι → Pthread α
  history : List (Event ι α δ)
  calls : List (Call ι α δ)

inductive Code where
  | ok
  | again
  | invalid
  | noMemory
  deriving DecidableEq

/-- The table index of a key argument, which is compared as an unsigned number. -/
def keyIndex (key : Int32) : ℕ := key.toUInt32.toNat

/-- The number of slots in use after one of them is set. -/
def countAfter (specificDataCount : ℤ) (data value : Option α) : ℤ :=
  match data, value with
  | none, some _ => specificDataCount + 1
  | some _, none => specificDataCount - 1
  | _, _ => specificDataCount

def System.initial : System ι α δ where
  keytable _ := ⟨false, 0, none⟩
  threads _ := ⟨none, 0, .running⟩
  history := []
  calls := []

namespace System

variable (s : System ι α δ)

def setThread (t : ι) (thread : Pthread α) : System ι α δ :=
  { s with threads := Function.update s.threads t thread }

def log (event : Event ι α δ) : System ι α δ :=
  { s with history := event :: s.history }

def posixPthreadKeyCreate (destructor : Option δ) : Code × Option ℕ × System ι α δ :=
  match (List.range pthreadKeysMax).find? fun k => !(s.keytable k).allocated with
  | some k =>
    let entry := s.keytable k
    (.ok, some k, { s with
      keytable := Function.update s.keytable k ⟨true, (entry.seqno + 1) % 2 ^ 32, destructor⟩ })
  | none => (.again, none, s)

def posixPthreadKeyDelete (key : Int32) : Code × System ι α δ :=
  let k := keyIndex key
  if pthreadKeysMax ≤ k then (.invalid, s)
  else if ¬ (s.keytable k).allocated then (.invalid, s)
  else (.ok, { s with
    keytable := Function.update s.keytable k { s.keytable k with allocated := false } })

/-- `posix_pthread_setspecific`; `memory` tells whether the slots of the thread can be allocated. -/
def posixPthreadSetspecific (t : ι) (key : Int32) (value : Option α) (memory : Bool) :
    Code × System ι α δ :=
  let thread := s.threads t
  if thread.specific.isNone ∧ ¬ memory then (.noMemory, s)
  else
    let specific := thread.slots
    let s := s.setThread t { thread with specific := some specific }
    let k := keyIndex key
    if pthreadKeysMax ≤ k then (.invalid, s)
    else if ¬ (s.keytable k).allocated then (.invalid, s)
    else
      (.ok, s.setThread t { thread with
        specific := some (Function.update specific k ⟨value, (s.keytable k).seqno⟩)
        specificDataCount := countAfter thread.specificDataCount (specific k).data value })

def posixPthreadGetspecific (t : ι) (key : Int32) : Option α :=
  match (s.threads t).specific with
  | none => none
  | some specific =>
    let k := keyIndex key
    if pthreadKeysMax ≤ k then none
    else if (s.keytable k).allocated ∧ (specific k).seqno = (s.keytable k).seqno then
      (specific k).data
    else none

/-- The start of `_thread_cleanupspecific`. -/
def beginCleanup (t : ι) : System ι α δ :=
  let thread := s.threads t
  match thread.specific with
  | none => s.setThread t { thread with phase := .exited }
  | some _ => s.setThread t { thread with phase := .cleaning 0 0 }

/-- The body of the cleanup loop for one key: the value is taken out of its slot, and its
destructor is called when the key is still the one it was set under. -/
def cleanupKey (t : ι) (pass key : ℕ) (specific : ℕ → PthreadSpecificElem α) :
    System ι α δ × Option (Call ι α δ) :=
  let thread := s.threads t
  match (specific key).data with
  | none => (s.setThread t { thread with phase := .cleaning pass (key + 1) }, none)
  | some data =>
    let entry := s.keytable key
    let destructor :=
      if entry.allocated ∧ (specific key).seqno = entry.seqno then entry.destructor else none
    let thread := { thread with
      specific := some (Function.update specific key { specific key with data := none })
      specificDataCount := thread.specificDataCount - 1 }
    match destructor with
    | none => (s.setThread t { thread with phase := .cleaning pass (key + 1) }, none)
    | some destructor =>
      (s.setThread t { thread with phase := .destructing pass key },
        some ⟨t, key, destructor, data⟩)

/-- One step of the two loops of `_thread_cleanupspecific`, with the destructor call it begins. -/
def cleanupStep (t : ι) : System ι α δ × Option (Call ι α δ) :=
  let thread := s.threads t
  match thread.phase, thread.specific with
  | .cleaning pass key, some specific =>
    if key = 0 ∧ ¬ (pass < pthreadDestructorIterations ∧ 0 < thread.specificDataCount) then
      (s.setThread t { thread with specific := none, phase := .exited }, none)
    else if ¬ (key < pthreadKeysMax ∧ 0 < thread.specificDataCount) then
      (s.setThread t { thread with phase := .cleaning (pass + 1) 0 }, none)
    else s.cleanupKey t pass key specific
  | _, _ => (s, none)

/-- A destructor returns. -/
def endDestructor (t : ι) : System ι α δ :=
  let thread := s.threads t
  match thread.phase with
  | .destructing pass key => s.setThread t { thread with phase := .cleaning pass (key + 1) }
  | _ => s

end System

/-! ## Runs -/

inductive Op (ι α δ : Type) where
  | keyCreate (thread : ι) (destructor : Option δ)
  | keyDelete (thread : ι) (key : Int32)
  | setspecific (thread : ι) (key : Int32) (value : Option α) (memory : Bool)
  | exit (thread : ι)
  | cleanup (thread : ι)
  | endDestructor (thread : ι)

/-- The key that the cleanup passed over, from where the thread was and where it is now. -/
def visited : Phase → Phase → Option ℕ
  | .cleaning _ key, .cleaning _ next => if next = key + 1 then some key else none
  | .cleaning _ key, .destructing _ _ => some key
  | _, _ => none

namespace System

def Enabled (s : System ι α δ) : Op ι α δ → Prop
  | .keyCreate t _ | .keyDelete t _ | .setspecific t _ _ _ => (s.threads t).phase.Calls
  | .exit t => (s.threads t).phase = .running
  | .cleanup _ | .endDestructor _ => True

/-- What a step of the cleanup did is recorded: the call it began, and the key it passed over. -/
def record (t : ι) (before : Phase) (result : System ι α δ × Option (Call ι α δ)) :
    System ι α δ :=
  let s : System ι α δ := { result.1 with calls := result.2.toList ++ result.1.calls }
  match visited before (s.threads t).phase with
  | some key => s.log (.visited t key)
  | none => s

def step (s : System ι α δ) : Op ι α δ → System ι α δ
  | .keyCreate _ destructor =>
    match s.posixPthreadKeyCreate destructor with
    | (_, some key, s') => s'.log (.created key destructor)
    | (_, none, s') => s'
  | .keyDelete _ key =>
    match s.posixPthreadKeyDelete key with
    | (.ok, s') => s'.log (.deleted (keyIndex key))
    | (_, s') => s'
  | .setspecific t key value memory =>
    match s.posixPthreadSetspecific t key value memory with
    | (.ok, s') => s'.log (.set t (keyIndex key) value)
    | (_, s') => s'
  | .exit t => s.beginCleanup t
  | .cleanup t => record t (s.threads t).phase (s.cleanupStep t)
  | .endDestructor t => s.endDestructor t

end System

/-- How often a slot of the key table was given out. -/
def creations : List (Event ι α δ) → ℕ → ℕ
  | [], _ => 0
  | .created k _ :: rest, key => if k = key then creations rest key + 1 else creations rest key
  | _ :: rest, key => creations rest key

/-- The states of all runs with fewer than `2 ^ 31` creations of each slot. -/
inductive Reachable : System ι α δ → Prop where
  | initial : Reachable .initial
  | step {s : System ι α δ} {op : Op ι α δ} : Reachable s → s.Enabled op →
      (∀ key, creations (s.step op).history key < 2 ^ 31) → Reachable (s.step op)

/-! ## What the calls are for -/

/-- The value a thread last set on a key since the key was created, in a history. -/
def valueAt : List (Event ι α δ) → ι → ℕ → Option α
  | [], _, _ => none
  | .created k _ :: rest, t, key => if k = key then none else valueAt rest t key
  | .deleted k :: rest, t, key => if k = key then none else valueAt rest t key
  | .set thread k value :: rest, t, key =>
    if thread = t ∧ k = key then value else valueAt rest t key
  | .visited thread k :: rest, t, key =>
    if thread = t ∧ k = key then none else valueAt rest t key

/-- The value a thread last set on a key, of whichever incarnation. -/
def slotAt : List (Event ι α δ) → ι → ℕ → Option α
  | [], _, _ => none
  | .set thread k value :: rest, t, key =>
    if thread = t ∧ k = key then value else slotAt rest t key
  | .visited thread k :: rest, t, key =>
    if thread = t ∧ k = key then none else slotAt rest t key
  | _ :: rest, t, key => slotAt rest t key

/-- Whether a key was created and not deleted since. -/
def liveAt : List (Event ι α δ) → ℕ → Bool
  | [], _ => false
  | .created k _ :: rest, key => if k = key then true else liveAt rest key
  | .deleted k :: rest, key => if k = key then false else liveAt rest key
  | _ :: rest, key => liveAt rest key

/-- The destructor that the last creation of a key gave it. -/
def destructorAt : List (Event ι α δ) → ℕ → Option δ
  | [], _ => none
  | .created k destructor :: rest, key =>
    if k = key then destructor else destructorAt rest key
  | _ :: rest, key => destructorAt rest key

/-- The destructor calls that a history asks for, newest first: one whenever the cleanup passes over
a key under which, as it is then, a value is set. -/
def callsOf : List (Event ι α δ) → List (Call ι α δ)
  | [] => []
  | .visited t key :: rest =>
    match valueAt rest t key, destructorAt rest key with
    | some data, some destructor => ⟨t, key, destructor, data⟩ :: callsOf rest
    | _, _ => callsOf rest
  | _ :: rest => callsOf rest

/-- How often a thread set a value other than null on a key. -/
def settings : List (Event ι α δ) → ι → ℕ → ℕ
  | [], _, _ => 0
  | .set thread k (some _) :: rest, t, key =>
    if thread = t ∧ k = key then settings rest t key + 1 else settings rest t key
  | _ :: rest, t, key => settings rest t key

/-- How often the cleanup of a thread passed over a key. -/
def visits : List (Event ι α δ) → ι → ℕ → ℕ
  | [], _, _ => 0
  | .visited thread k :: rest, t, key =>
    if thread = t ∧ k = key then visits rest t key + 1 else visits rest t key
  | _ :: rest, t, key => visits rest t key

/-- The slots of a thread that hold a value. -/
def nonNull (specific : ℕ → PthreadSpecificElem α) : ℕ :=
  ((Finset.range pthreadKeysMax).filter fun k => (specific k).data.isSome).card

end PS4Droid.Threads.SpecificData
