import DependencyResolution.Provider
import DependencyResolution.Solver.Priority
import DependencyResolution.Solver.State

/-!
# Sessions

A session is the solver at work: its state, the state of its client, what it remembers of the client's
answers, and everything that has happened, in order, which is what the client was asked and what the
solver noted. Operations act on a session; one that breaks off leaves the session as it was at that
point.
-/

namespace DependencyResolution

/-- Something the solver noted. -/
inductive Note (P V S M : Type) where
  | decided (package : P) (version : V) (level : Nat)
  | derived (package : P) (term : Term S) (level cause : Nat)
  /-- A version was not decided because an incompatibility stood in the way. -/
  | refused (package : P) (version : V) (id : Nat)
  /-- The solver went back to a level; so many packages were assigned above it. -/
  | backtracked (level affected : Nat)
  /-- An incompatibility shows that there is no solution. -/
  | terminal (id : Nat) (incompatibility : Incompatibility P V S M)
  /-- An incompatibility was learned from a conflict. -/
  | learned (id : Nat) (incompatibility : Incompatibility P V S M)
  /-- An incompatibility was derived by cases on a package. -/
  | resolved (id : Nat) (package : P) (incompatibility : Incompatibility P V S M)
  /-- A solution of so many packages was found. -/
  | solved (size : Nat)
  /-- The client has no version of the package in the set. -/
  | noVersions (package : P) (versions : S)
  | unavailable (package : P) (version : V) (reason : M)

/-- Something that happened in a session: a question to the client and its answer, or a note. -/
inductive Event (P V S M π E : Type) where
  | polled (answer : Except E Bool)
  | prioritized (package : P) (versions : S) (answer : Except E π)
  | chose (package : P) (versions : S) (answer : Except E (Option V))
  | retrieved (package : P) (version : V) (answer : Except E (Dependencies P S M))
  | noted (note : Note P V S M)

/-- Why an operation broke off. -/
inductive Failure (P V S E : Type) where
  /-- There is no solution, as the incompatibility with this number shows. -/
  | noSolution (id : Nat)
  /-- The client gave up, or failed when it was asked whether to. -/
  | cancelled (fault : Option E)
  | choosing (package : P) (fault : E)
  | retrieving (package : P) (version : V) (fault : E)
  | prioritizing (fault : E)
  | violation (v : Violation P V S)
  /-- The steps that were allowed are used up. -/
  | outOfSteps
  deriving DecidableEq

/-- The solver at work. -/
structure Session (σ P V S M π E : Type) where
  state : SolverState P V S M
  client : σ
  priorities : PriorityCache Unit P S π
  /-- The versions of each package whose dependencies have been asked. -/
  visited : OrderedMap P (List V)
  events : Array (Event P V S M π E)

def Session.start {σ P V S M π E : Type} (state : SolverState P V S M) (client : σ) :
    Session σ P V S M π E :=
  ⟨state, client, .empty, .empty, #[]⟩

/-- Operations on a session that may break off. -/
abbrev Solving (σ P V S M π E : Type) :=
  EStateM (Failure P V S E) (Session σ P V S M π E)

namespace Solving

variable {σ P V S M π E : Type}

/-! ## Access -/

def state : Solving σ P V S M π E (SolverState P V S M) := do return (← get).state

def modifyState (f : SolverState P V S M → SolverState P V S M) : Solving σ P V S M π E Unit :=
  modify fun s => { s with state := f s.state }

/-- The result of a step, or the rule that it broke. -/
def ofExcept {α : Type} : Except (Violation P V S) α → Solving σ P V S M π E α
  | .ok a => pure a
  | .error v => throw (.violation v)

def record (event : Event P V S M π E) : Solving σ P V S M π E Unit :=
  modify fun s => { s with events := s.events.push event }

def note (n : Note P V S M) : Solving σ P V S M π E Unit := record (.noted n)

/-- The client's answer to a question; the question and the answer are recorded. -/
def ask {α : Type} (question : σ → Except E α × σ) (event : Except E α → Event P V S M π E) :
    Solving σ P V S M π E (Except E α) := do
  let s ← get
  let (answer, client) := question s.client
  set { s with client }
  record (event answer)
  return answer

variable [DecidableEq P]

def incompatibility (id : Nat) : Solving σ P V S M π E (Incompatibility P V S M) := do
  ofExcept ((← state).store.get id)

/-! ## Assignments -/

variable [VersionSet S V]

def decide (package : P) (version : V) : Solving σ P V S M π E Unit := do
  let solution ← ofExcept ((← state).solution.decide package version)
  modifyState fun s => { s with solution }
  note (.decided package version solution.level)

def derive (package : P) (term : Term S) (cause : Nat) : Solving σ P V S M π E Unit := do
  let solution ← ofExcept ((← state).solution.derive package term cause)
  modifyState fun s => { s with solution }
  note (.derived package term solution.level cause)

def decideUnless [DecidableEq S] (package : P) (version : V) (ids : List Nat) :
    Solving σ P V S M π E Bool := do
  let s ← state
  let (solution, obstacle) ←
    ofExcept (s.solution.decideUnless s.store package version ids)
  modifyState fun s => { s with solution }
  match obstacle with
  | some id => note (.refused package version id)
  | none => note (.decided package version solution.level)
  return obstacle.isNone

def backtrack (target : Int) : Solving σ P V S M π E Unit := do
  let before := (← state).solution
  let solution ← ofExcept (before.backtrack target)
  modifyState fun s => { s with solution }
  note (.backtracked solution.level (before.touchedAbove solution.level).length)

/-! ## Adding knowledge -/

def alloc (i : Incompatibility P V S M) : Solving σ P V S M π E Nat := do
  let (store, id) := (← state).store.alloc i
  modifyState fun s => { s with store }
  return id

def register (id : Nat) : Solving σ P V S M π E Unit := do
  let store ← ofExcept ((← state).store.register id)
  modifyState fun s => { s with store }

def unregister (id : Nat) : Solving σ P V S M π E Unit := do
  let store ← ofExcept ((← state).store.unregister id)
  modifyState fun s => { s with store }

def setMerged (pair : P × P) (ids : List Nat) : Solving σ P V S M π E Unit :=
  modifyState fun s => { s with merged := s.merged.insert pair ids }

/-- Merges a dependency with those in `rest` that allow the same. `kept` are those that do not, newest
first. Gives the number of the dependency that stands for all that were merged. -/
def mergeInto [DecidableEq S] (pair : P × P) (kept : List Nat) :
    (id : Nat) → (rest : List Nat) → Solving σ P V S M π E Nat
  | id, [] => do
    setMerged pair (kept.reverse ++ [id])
    return id
  | id, old :: rest => do
    let other ← incompatibility old
    match ← ofExcept (other.mergeDependents (← incompatibility id)) with
    | none => mergeInto pair (old :: kept) id rest
    | some both =>
      unregister old
      setMerged pair (kept.reverse ++ rest)
      mergeInto pair kept (← alloc both) rest

/-- Adds an incompatibility. A dependency is merged with those that it agrees with; what the others
stood for is then found under the number that results. -/
def insert [DecidableEq S] (i : Incompatibility P V S M) : Solving σ P V S M π E Nat := do
  let id ← alloc i
  let id ←
    match i.asDependency with
    | none => pure id
    | some pair => do
      let ids := ((← state).merged.get? pair).getD []
      setMerged pair ids
      mergeInto pair [] id ids
  register id
  return id

/-- Adds what a version of a package depends on; gives the numbers of the incompatibilities. -/
def insertDependencies [DecidableEq S] (package : P) (version : V) :
    List (P × S) → Solving σ P V S M π E (List Nat)
  | [] => pure []
  | (needed, allowed) :: rest => do
    match Incompatibility.ofDependency package (VersionSet.singleton version) needed allowed with
    | none => insertDependencies package version rest
    | some i =>
      let id ← insert i
      return id :: (← insertDependencies package version rest)

end Solving

end DependencyResolution
