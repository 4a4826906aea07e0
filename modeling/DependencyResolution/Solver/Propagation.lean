import DependencyResolution.Explanation.Basic
import DependencyResolution.Solver.Session

/-!
# Propagation and conflicts

Propagation derives what the assignments imply. An incompatibility all of whose terms but one hold
makes the negation of that term hold; one all of whose terms hold is a conflict. A conflict is resolved
with the causes of the assignments that satisfy it until what has been learned says something at an
earlier decision level, to which the solver then goes back; or until it is terminal, which shows that
there is no solution.

All this goes in small steps. A phase says what the solver does next, and a step does it and gives the
next phase; `deduceUntil` takes steps until a phase is reached.
-/

namespace DependencyResolution

/-- What the solver does next. -/
inductive Phase (P : Type) where
  /-- Start a round; this package changed last. -/
  | round (changed : P)
  /-- Derive what the assignments of these packages imply, the first one first. -/
  | propagate (waiting : List P)
  /-- Look at these incompatibilities, and then go on with the waiting packages. -/
  | scan (ids : List Nat) (waiting : List P)
  /-- Resolve the conflict that an incompatibility shows; `changed` tells whether it is itself the
  result of a resolution. -/
  | conflict (id : Nat) (changed : Bool)
  /-- Derive what a learned incompatibility implies for a package. -/
  | learned (package : P) (id : Nat)
  /-- Decide a version of a package that waits for one. -/
  | decide
  deriving DecidableEq

namespace Solving

variable {σ P V S M π E : Type} [DecidableEq P] [DecidableEq S] [VersionSet S V]

/-! ## Propagation -/

/-- Derives the negation of an incompatibility's term for a package, which is the only one that does
not hold; the incompatibility is then contradicted. -/
def deriveFrom (package : P) (id : Nat) : Solving σ P V S M π E Unit := do
  match (← incompatibility id).get? package with
  | none => throw (.violation (.notMentioned package))
  | some term =>
    derive package term.negate id
    modifyState fun s => s.markContradicted id

/-- Turns to the next waiting package, newest incompatibility first. -/
def nextWaiting : (waiting : List P) → Solving σ P V S M π E (Phase P)
  | [] => return .decide
  | package :: waiting => return .scan ((← state).store.idsFor package).reverse waiting

/-- Looks at the next incompatibility and derives what it implies. -/
def nextId : (ids : List Nat) → (waiting : List P) → Solving σ P V S M π E (Phase P)
  | [], waiting => return .propagate waiting
  | id :: rest, waiting => do
    let s ← state
    if s.contradicted.contains id then return .scan rest waiting
    else
      match s.solution.standing (← incompatibility id) with
      | .satisfied => return .conflict id false
      | .almostSatisfied package =>
        deriveFrom package id
        return .scan rest (if package ∈ waiting then waiting else package :: waiting)
      | .contradicted _ =>
        modifyState fun s => s.markContradicted id
        return .scan rest waiting
      | .inconclusive => return .scan rest waiting

/-! ## Conflicts -/

/-- Goes back to a level with what was learned. A conflict that needed no resolution is registered
already. -/
def backjump (id : Nat) (changed : Bool) (level : Nat) : Solving σ P V S M π E Unit := do
  backtrack level
  modifyState fun s => s.forgetAbove level
  if changed then register id

/-- Takes a step towards the resolution of a conflict: breaks off if there is no solution, which is then
explained, learns the incompatibility and goes back if the satisfier is alone at its level, and else
resolves it with the satisfier's cause. -/
def nextConflict (id : Nat) (changed : Bool) : Solving σ P V S M π E (Phase P) := do
  let i ← incompatibility id
  let s ← state
  if i.isTerminal s.root s.rootVersion then
    note (.terminal id i)
    let _ ← ofExcept (Explanation.build s.store id)
    throw (.noSolution id)
  else
    match ← ofExcept (s.solution.satisfierSearch s.store i) with
    | (package, .differentLevels previous) =>
      backjump id changed previous
      note (.learned id i)
      return .learned package id
    | (package, .sameLevel cause) =>
      let prior ← ofExcept (s.store.resolvent id cause package)
      let new ← alloc prior
      note (.resolved new package prior)
      return .conflict new true

/-! ## Deduction -/

/-- A step of a phase that needs nothing of the client but to be asked whether to give up, by `poll`:
before a round, and before every step of a conflict. -/
def deduce (poll : Solving σ P V S M π E Unit) : Phase P → Solving σ P V S M π E (Phase P)
  | .round changed => do
    poll
    return .propagate [changed]
  | .propagate waiting => nextWaiting waiting
  | .scan ids waiting => nextId ids waiting
  | .conflict id changed => do
    poll
    nextConflict id changed
  | .learned package id => do
    deriveFrom package id
    return .propagate [package]
  | .decide => return .decide

/-- Takes steps until a phase is reached at which to stop. -/
def deduceUntil {α : Type} (stop : Phase P → Option α) (poll : Solving σ P V S M π E Unit) :
    (steps : Nat) → Phase P → Solving σ P V S M π E α
  | 0, _ => throw .outOfSteps
  | steps + 1, phase => do
    match stop phase with
    | some a => return a
    | none => deduceUntil stop poll steps (← deduce poll phase)

/-- Derives everything that the assignments of a package imply. -/
def propagate (poll : Solving σ P V S M π E Unit) (steps : Nat) (package : P) :
    Solving σ P V S M π E Unit :=
  deduceUntil (fun phase => if phase = .decide then some () else none) poll steps
    (.propagate [package])

/-- Learns from a satisfied incompatibility and goes back; gives the package whose term is now implied,
and what was learned. -/
def resolveConflict (poll : Solving σ P V S M π E Unit) (steps : Nat) (id : Nat) :
    Solving σ P V S M π E (P × Nat) :=
  deduceUntil (fun | .learned package id => some (package, id) | _ => none) poll steps
    (.conflict id false)

end Solving

end DependencyResolution
