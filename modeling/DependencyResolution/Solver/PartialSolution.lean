import DependencyResolution.Solver.Store

/-!
# The partial solution

What has been assumed and derived so far. A decision fixes a package to a version and opens a new
decision level; a derivation says that a term holds because of an incompatibility. Assignments are
kept by package, with the intersection of each package's terms up to every derivation, and are
numbered by one counter that never goes back.

`assignments` is the view: all live assignments in the order in which they were made. `backtrack`
restores the partial solution as it was before a level was opened, visiting only the packages that
were assigned above the level it goes back to. Operations that fail change nothing.
-/

namespace DependencyResolution

/-- A package fixed to a version. -/
structure Decision (P V S : Type) where
  package : P
  version : V
  term : Term S
  level : Nat
  index : Nat
  deriving DecidableEq

/-- A term that holds for a package because of an incompatibility. -/
structure Derivation (P S : Type) where
  package : P
  term : Term S
  /-- The number of the incompatibility. -/
  cause : Nat
  level : Nat
  index : Nat
  /-- The intersection of this term and those derived before it for the package. -/
  accumulated : Term S
  deriving DecidableEq

/-- A decision or a derivation. -/
inductive Assignment (P V S : Type) where
  | decision (d : Decision P V S)
  | derivation (d : Derivation P S)
  deriving DecidableEq

def Assignment.index {P V S : Type} : Assignment P V S → Nat
  | decision d => d.index
  | derivation d => d.index

def Assignment.level {P V S : Type} : Assignment P V S → Nat
  | decision d => d.level
  | derivation d => d.level

/-- The live assignments of one package. -/
structure PackageAssignments (P V S : Type) where
  /-- The level of the first derivation. -/
  smallestLevel : Nat
  /-- The level of the last assignment. -/
  highestLevel : Nat
  derived : Term S
  /-- The derivations, oldest first. -/
  derivations : Array (Derivation P S)
  decision : Option (Decision P V S)
  deriving DecidableEq

/-- Decisions and derivations so far. -/
structure PartialSolution (P V S : Type) where
  nextIndex : Nat
  level : Nat
  /-- The assignments of each package, in the order in which the packages were first assigned. -/
  packages : OrderedMap P (PackageAssignments P V S)
  /-- The packages assigned at each level, current level first. -/
  touched : List (List P)
  deriving DecidableEq

namespace PackageAssignments

variable {P V S : Type}

/-- What is known of the package. -/
def term (a : PackageAssignments P V S) : Term S :=
  match a.decision with
  | some d => d.term
  | none => a.derived

def assignments (a : PackageAssignments P V S) : List (Assignment P V S) :=
  a.derivations.toList.map .derivation ++ a.decision.toList.map .decision

/-- The assignments of a package after one more derivation, which may be the first. -/
def derive [VersionSet S V] (a : Option (PackageAssignments P V S)) (package : P) (term : Term S)
    (cause level index : Nat) : PackageAssignments P V S :=
  match a with
  | none => ⟨level, level, term, #[⟨package, term, cause, level, index, term⟩], none⟩
  | some a =>
    let accumulated := a.derived.intersection term
    { a with
      highestLevel := level
      derived := accumulated
      derivations := a.derivations.push ⟨package, term, cause, level, index, accumulated⟩ }

/-- The assignments up to a level, if a derivation is left. -/
def rollback (level : Nat) (a : PackageAssignments P V S) : Option (PackageAssignments P V S) :=
  let decision := a.decision.filter fun d => d.level ≤ level
  let derivations := a.derivations.popWhile fun d => level < d.level
  derivations.back?.map fun last =>
    { a with
      highestLevel := (decision.map (·.level)).getD last.level
      derived := last.accumulated
      derivations, decision }

end PackageAssignments

namespace PartialSolution

variable {P V S : Type} [DecidableEq P]

/-! ## Queries -/

/-- The partial solution in which nothing is assumed or derived. -/
def empty : PartialSolution P V S := ⟨0, 0, .empty, [[]]⟩

def term? (s : PartialSolution P V S) (package : P) : Option (Term S) :=
  (s.packages.get? package).map PackageAssignments.term

def isDecided (s : PartialSolution P V S) (package : P) : Bool :=
  match s.packages.get? package with
  | some a => a.decision.isSome
  | none => false

/-- The packages that must be selected and wait for a decision, with the versions still allowed. -/
def pending (s : PartialSolution P V S) : List (P × S) :=
  s.packages.entries.filterMap fun (package, a) =>
    match a.decision, a.derived with
    | none, .positive versions => some (package, versions)
    | _, _ => none

def solution (s : PartialSolution P V S) : OrderedMap P V :=
  .ofList (s.packages.entries.filterMap fun (package, a) =>
    a.decision.map fun d => (package, d.version))

def assignments (s : PartialSolution P V S) : List (Assignment P V S) :=
  (s.packages.entries.flatMap fun e => e.2.assignments).mergeSort fun a b => a.index ≤ b.index

def standing {M : Type} [DecidableEq S] [VersionSet S V] (s : PartialSolution P V S)
    (i : Incompatibility P V S M) : Standing P :=
  i.standing s.term?

/-! ## Assigning -/

/-- Fixes a package to a version at a new decision level. The package must have a positive derived
term that contains the version, and no decision yet. -/
def decide [VersionSet S V] (s : PartialSolution P V S) (package : P) (version : V) :
    Except (Violation P V S) (PartialSolution P V S) :=
  match s.packages.get? package with
  | none => .error (.notPending package)
  | some a =>
    if a.decision.isSome || !a.derived.isPositive then .error (.notPending package)
    else if !a.derived.contains version then .error (.decidedOutside package version a.derived)
    else
      let level := s.level + 1
      let decision : Decision P V S := ⟨package, version, .exact version, level, s.nextIndex⟩
      .ok {
        nextIndex := s.nextIndex + 1
        level
        packages := s.packages.insert package
          { a with decision := some decision, highestLevel := level }
        touched := [package] :: s.touched }

/-- Marks a package as assigned at the current level, which must be there. -/
def touch (s : PartialSolution P V S) (package : P) : Except (Violation P V S) (List (List P)) :=
  match s.touched with
  | [] => .error (.missingLevel s.level)
  | current :: below => .ok (current.insert package :: below)

/-- Records that a term holds for a package, which must not be decided, because of an
incompatibility. -/
def derive [VersionSet S V] (s : PartialSolution P V S) (package : P) (term : Term S) (cause : Nat) :
    Except (Violation P V S) (PartialSolution P V S) :=
  if s.isDecided package then .error (.alreadyDecided package)
  else do
    let touched ← s.touch package
    let a := PackageAssignments.derive (s.packages.get? package) package term cause s.level
      s.nextIndex
    .ok { s with
      nextIndex := s.nextIndex + 1
      packages := s.packages.insert package a
      touched }

/-- The first of some incompatibilities that deciding the package at the version would satisfy. -/
def firstConflict {M : Type} [DecidableEq S] [VersionSet S V] (s : PartialSolution P V S)
    (store : Store P V S M) (package : P) (version : V) :
    List Nat → Except (Violation P V S) (Option Nat)
  | [] => .ok none
  | id :: rest => do
    let i ← store.get id
    let lookup p := if p = package then some (Term.exact version) else s.term? p
    if i.standing lookup = .satisfied then .ok (some id)
    else firstConflict s store package version rest

/-- Fixes a package that something is known about to a version, unless that would satisfy one of the
given incompatibilities. Gives the partial solution and the incompatibility that stood in the way. -/
def decideUnless {M : Type} [DecidableEq S] [VersionSet S V] (s : PartialSolution P V S)
    (store : Store P V S M) (package : P) (version : V) (ids : List Nat) :
    Except (Violation P V S) (PartialSolution P V S × Option Nat) :=
  if s.packages.contains package then do
    match ← s.firstConflict store package version ids with
    | some id => .ok (s, some id)
    | none => .ok (← s.decide package version, none)
  else .error (.unknownPackage package)

/-! ## Going back -/

/-- The distinct packages assigned above a level. -/
def touchedAbove (s : PartialSolution P V S) (level : Nat) : List P :=
  (s.touched.take (s.level - level)).flatten.foldr List.insert []

/-- Drops the assignments of one package above a level. -/
def rollbackPackage (level : Nat) (packages : OrderedMap P (PackageAssignments P V S)) (package : P) :
    Except (Violation P V S) (OrderedMap P (PackageAssignments P V S)) :=
  match packages.get? package with
  | none => .ok packages
  | some a =>
    if level < a.smallestLevel then .ok (packages.erase package)
    else
      match a.rollback level with
      | some a => .ok (packages.insert package a)
      | none => .error (.lostDerivations package)

/-- Drops every assignment above a level, which must be one of the levels so far. -/
def backtrack (s : PartialSolution P V S) (target : Int) :
    Except (Violation P V S) (PartialSolution P V S) :=
  if target < 0 ∨ s.level < target then .error (.noSuchLevel target s.level)
  else do
    let level := target.toNat
    let packages ← (s.touchedAbove level).foldlM (rollbackPackage level) s.packages
    .ok { s with level, packages, touched := s.touched.drop (s.level - level) }

end PartialSolution

end DependencyResolution
