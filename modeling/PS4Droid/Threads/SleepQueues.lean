import Mathlib.Data.List.Nodup

/-!
# Sleep queues

`sleepq.cpp` and the calls of `PthreadCond` that wake threads, for any number of threads. A thread
lends its own queue object while it sleeps: the first sleeper of a channel links its object in the
hash chain, the others put theirs on the free list of that one. Each call runs under the lock of its
chain and is one step; a call that reads an empty list or a null pointer has no result.

The release of a removed thread is left out: it reads and writes no sleep queue.
-/

namespace PS4Droid.Threads.SleepQueues

/-- The address of the object that is waited on. -/
abbrev Wchan := UInt64

def hashShift : UInt64 := 9

def scHash (wchan : Wchan) : ℕ := (((wchan >>> 3) ^^^ (wchan >>> (hashShift + 3))) &&& 511).toNat

structure SleepQueue (ι ω : Type) where
  sqBlocked : List ι := []
  sqFreeq : List ω := []
  sqWchan : Option Wchan := none
  deriving DecidableEq

structure Pthread (ω : Type) where
  sleepqueue : Option ω
  wchan : Option Wchan
  deriving DecidableEq

structure State (ι ω : Type) where
  scTable : ℕ → List ω
  queues : ω → SleepQueue ι ω
  threads : ι → Pthread ω

/-- `found` is the answer of `FindThread`. -/
inductive Op (ι : Type) where
  | add (wchan : Wchan) (td : ι)
  | remove (wchan : Wchan) (td : ι)
  | drop (wchan : Wchan)
  | signal (wchan : Wchan) (thread : Option ι) (found : Bool)
  | broadcast (wchan : Wchan)

namespace State

variable {ι ω : Type} [DecidableEq ι] [DecidableEq ω] (s : State ι ω)

def setQueue (q : ω) (sq : SleepQueue ι ω) : State ι ω :=
  { s with queues := Function.update s.queues q sq }

def setThread (td : ι) (thread : Pthread ω) : State ι ω :=
  { s with threads := Function.update s.threads td thread }

/-- An object is taken out of the list that it is in. -/
def unlink (q : ω) : State ι ω :=
  { s with
    scTable := fun i => (s.scTable i).filter (· ≠ q)
    queues := fun p => { s.queues p with sqFreeq := (s.queues p).sqFreeq.filter (· ≠ q) } }

def sleepqLookup (wchan : Wchan) : Option ω :=
  (s.scTable (scHash wchan)).find? fun q => (s.queues q).sqWchan = some wchan

def sleepqAdd (wchan : Wchan) (td : ι) : Option (State ι ω) :=
  match (s.threads td).sleepqueue with
  | none => none
  | some own =>
    match s.sleepqLookup wchan with
    | some sq =>
      some ((s.setQueue sq { s.queues sq with
        sqFreeq := own :: (s.queues sq).sqFreeq
        sqBlocked := td :: (s.queues sq).sqBlocked }).setThread td ⟨none, some wchan⟩)
    | none =>
      some (({ s with
        scTable := Function.update s.scTable (scHash wchan) (own :: s.scTable (scHash wchan))
        }.setQueue own { s.queues own with
        sqWchan := some wchan, sqBlocked := td :: (s.queues own).sqBlocked }).setThread td
          ⟨none, some wchan⟩)

/-- The answer says whether threads are left in the queue. -/
def sleepqRemove (sq : ω) (td : ι) : Option (State ι ω × Bool) :=
  let blocked := (s.queues sq).sqBlocked.filter (· ≠ td)
  if blocked = [] then
    some (((s.setQueue sq { s.queues sq with sqBlocked := [] }).unlink sq).setThread td ⟨some sq,
      none⟩, false)
  else
    match (s.queues sq).sqFreeq with
    | [] => none
    | free :: rest =>
      some ((s.setQueue sq { s.queues sq with sqBlocked := blocked, sqFreeq := rest }).setThread td
        ⟨some free, none⟩, true)

/-- The loop over the threads of a queue and its free objects. -/
def handBack : List ι → List ω → (ι → Pthread ω) → Option (ι → Pthread ω)
  | [], _, threads => some threads
  | _ :: _, [], _ => none
  | td :: blocked, free :: freeq, threads =>
      handBack blocked freeq (Function.update threads td ⟨some free, none⟩)

def sleepqDrop (sq : ω) : Option (State ι ω) :=
  match (s.queues sq).sqBlocked with
  | [] => some s
  | td :: blocked =>
    let s := s.unlink sq
    (handBack blocked (s.queues sq).sqFreeq (Function.update s.threads td ⟨some sq, none⟩)).map
      fun threads =>
      { s.setQueue sq { s.queues sq with sqBlocked := [], sqFreeq := [] } with threads }

/-- `PthreadCond::Signal`. -/
def signal (wchan : Wchan) (thread : Option ι) (found : Bool) : Option (State ι ω) :=
  if thread.isSome ∧ ¬found then some s
  else
    match s.sleepqLookup wchan with
    | none => some s
    | some sq =>
      match thread.or (s.queues sq).sqBlocked.head? with
      | none => none
      | some td => (s.sleepqRemove sq td).map Prod.fst

/-- `PthreadCond::Broadcast`. -/
def broadcast (wchan : Wchan) : Option (State ι ω) :=
  match s.sleepqLookup wchan with
  | none => some s
  | some sq => s.sleepqDrop sq

def step : Op ι → Option (State ι ω)
  | .add wchan td => s.sleepqAdd wchan td
  | .remove wchan td => (s.sleepqLookup wchan).bind fun sq => (s.sleepqRemove sq td).map Prod.fst
  | .drop wchan => (s.sleepqLookup wchan).bind s.sleepqDrop
  | .signal wchan thread found => s.signal wchan thread found
  | .broadcast wchan => s.broadcast wchan

/-- What the callers of the three queue functions see to: a thread is added that is on no queue, and
removed from the queue of the channel it sleeps on; a queue is dropped that exists. -/
def Called : Op ι → Prop
  | .add _ td => (s.threads td).wchan = none
  | .remove wchan td => (s.threads td).wchan = some wchan
  | .drop wchan => (s.sleepqLookup wchan).isSome
  | _ => True

/-! ### Who has a queue object -/

/-- A thread, a hash chain, or the free list of another object. -/
inductive Place (ι ω : Type) where
  | thread (td : ι)
  | chain (i : ℕ)
  | free (sq : ω)

def Has (q : ω) : Place ι ω → Prop
  | .thread td => (s.threads td).sleepqueue = some q
  | .chain i => q ∈ s.scTable i
  | .free sq => q ∈ (s.queues sq).sqFreeq

def Linked (sq : ω) : Prop := ∃ i, sq ∈ s.scTable i

/-- The thread is in the queue of a linked object. -/
def Blocked (sq : ω) (td : ι) : Prop := s.Linked sq ∧ td ∈ (s.queues sq).sqBlocked

/-- Nothing is lost, nothing is there twice. -/
structure Conserved : Prop where
  hashed : ∀ i sq, sq ∈ s.scTable i → ∃ wchan, (s.queues sq).sqWchan = some wchan ∧ scHash wchan = i
  onePerChannel : ∀ sq sq', s.Linked sq → s.Linked sq' →
    (s.queues sq).sqWchan = (s.queues sq').sqWchan → sq = sq'
  counts : ∀ sq, s.Linked sq → (s.queues sq).sqFreeq.length + 1 = (s.queues sq).sqBlocked.length
  distinct : ∀ sq, s.Linked sq → (s.queues sq).sqBlocked.Nodup
  idle : ∀ sq, ¬s.Linked sq → (s.queues sq).sqBlocked = [] ∧ (s.queues sq).sqFreeq = []
  blocked : ∀ sq td, s.Blocked sq td → s.threads td = ⟨none, (s.queues sq).sqWchan⟩
  running : ∀ td, (∀ sq, ¬s.Blocked sq td) → (s.threads td).wchan = none ∧
    (s.threads td).sleepqueue.isSome
  chains : ∀ i, (s.scTable i).Nodup
  freeqs : ∀ sq, (s.queues sq).sqFreeq.Nodup
  place : ∀ q, ∃! p, s.Has q p

/-- Every thread has an object of its own, and every object has a thread. -/
structure Initial : Prop where
  table : ∀ i, s.scTable i = []
  queues : ∀ sq, (s.queues sq).sqBlocked = [] ∧ (s.queues sq).sqFreeq = []
  threads : ∀ td, (s.threads td).wchan = none ∧ (s.threads td).sleepqueue.isSome
  owned : ∀ q, ∃! td, (s.threads td).sleepqueue = some q

/-! ### Runs -/

/-- A signal for one thread that does not sleep on the channel. -/
def Stray : Op ι → Prop
  | .signal wchan (some td) _ => (s.threads td).wchan ≠ some wchan
  | _ => False

/-- The property holds of every state of a run, and no stray signal changes anything. -/
def ConservedRun (s : State ι ω) : List (Op ι) → Prop
  | [] => s.Conserved
  | op :: ops => s.Conserved ∧ ∃ s', s.step op = some s' ∧ (s.Stray op → s' = s) ∧
      ConservedRun s' ops

/-- A condition on each step of a run. -/
def Along (P : State ι ω → Op ι → Prop) (s : State ι ω) : List (Op ι) → Prop
  | [] => True
  | op :: ops => P s op ∧ ∀ s', s.step op = some s' → Along P s' ops

/-- A signal for one thread finds no such thread, or no sleeper on the channel, or this thread
sleeps on it. -/
def Targeted : Op ι → Prop
  | .signal wchan (some td) found => found = false ∨ s.sleepqLookup wchan = none ∨
      (s.threads td).wchan = some wchan
  | _ => True

end State

end PS4Droid.Threads.SleepQueues
