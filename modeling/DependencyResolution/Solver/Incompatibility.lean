import DependencyResolution.OrderedMap
import DependencyResolution.Solver.Violation

/-!
# Incompatibilities

An incompatibility is a set of terms, at most one a package, that never hold all at once:
`{a: ==1, b: Not ( >=2 )}` says that `a` at 1 depends on `b` from 2 on. They are all the solver knows.
What the client answers becomes an incompatibility whose cause is an external fact; conflict
resolution adds those that follow from two others.
-/

namespace DependencyResolution

/-- What the client said, or was asked for. -/
inductive Fact (P V S M : Type) where
  /-- The package is to be selected at this version: it is what is being resolved. -/
  | root (package : P) (version : V)
  /-- There is no version of the package in the set. -/
  | noVersions (package : P) (versions : S)
  /-- The package in the one set depends on the other package in the other set. -/
  | dependency (package : P) (versions : S) (needed : P) (allowed : S)
  /-- The package in the set cannot be used, for the reason given. -/
  | unusable (package : P) (versions : S) (reason : M)
  deriving DecidableEq

/-- Why an incompatibility holds. -/
inductive Cause (P V S M : Type) where
  /-- It restates a fact. -/
  | fact (f : Fact P V S M)
  /-- It follows from the two incompatibilities with these numbers. -/
  | derived (first second : Nat)
  deriving DecidableEq

/-- Terms that never hold all at once. -/
structure Incompatibility (P V S M : Type) where
  terms : OrderedMap P (Term S)
  cause : Cause P V S M
  deriving DecidableEq

/-- How an incompatibility relates to what is known. -/
inductive Standing (P : Type) where
  /-- All its terms hold. -/
  | satisfied
  /-- The term of this package, the first such one, cannot hold any more. -/
  | contradicted (package : P)
  /-- All its terms but the one of this package hold. -/
  | almostSatisfied (package : P)
  /-- Two terms at least are open. -/
  | inconclusive
  deriving DecidableEq

namespace Incompatibility

variable {P V S M : Type} [DecidableEq P] [DecidableEq S] [VersionSet S V]

/-! ## Constructors -/

/-- The root package is selected at no other version than this. -/
def notRoot (package : P) (version : V) : Incompatibility P V S M :=
  ⟨.single package (.negative (VersionSet.singleton version)), .fact (.root package version)⟩

/-- No version of the package satisfies the term, which must be positive. -/
def noVersions (package : P) (term : Term S) :
    Except (Violation P V S) (Incompatibility P V S M) := do
  let versions ← term.positiveVersions
  .ok ⟨.single package term, .fact (.noVersions package versions)⟩

/-- The package cannot be used where the term, which must be positive, holds. -/
def unusable (package : P) (term : Term S) (reason : M) :
    Except (Violation P V S) (Incompatibility P V S M) := do
  let versions ← term.positiveVersions
  .ok ⟨.single package term, .fact (.unusable package versions reason)⟩

/-- The package cannot be used at this version. -/
def unusableVersion (package : P) (version : V) (reason : M) : Incompatibility P V S M :=
  ⟨.single package (.exact version),
    .fact (.unusable package (VersionSet.singleton version) reason)⟩

/-- The package in `versions` depends on `needed` in `allowed`. Where nothing is allowed the package is
impossible by itself. A package that depends on itself is impossible in the versions that it does not
allow; if there are none the dependency always holds. -/
def ofDependency (package : P) (versions : S) (needed : P) (allowed : S) :
    Option (Incompatibility P V S M) :=
  let cause := Cause.fact (.dependency package versions needed allowed)
  if needed = package then
    let term := (Term.positive versions).intersection (.negative allowed)
    if term.isEmpty then none else some ⟨.single package term, cause⟩
  else
    let terms := OrderedMap.single package (Term.positive versions)
    if VersionSet.isEmpty allowed then some ⟨terms, cause⟩
    else some ⟨terms.insert needed (.negative allowed), cause⟩

/-! ## Queries -/

def get? (i : Incompatibility P V S M) (package : P) : Option (Term S) := i.terms.get? package

/-- The package and the one it depends on, for a dependency between two packages. -/
def asDependency (i : Incompatibility P V S M) : Option (P × P) :=
  match i.cause with
  | .fact (.dependency package _ needed _) =>
    if package = needed then none else some (package, needed)
  | _ => none

/-- Whether the incompatibility alone shows that the root cannot be selected. -/
def isTerminal (i : Incompatibility P V S M) (root : P) (version : V) : Bool :=
  match i.terms.entries with
  | [] => true
  | [(package, term)] => decide (package = root) && term.isPositive && term.contains version
  | _ => false

/-- The standing of a list of terms after some others whose standing is `found`. A term of a package
that nothing is known about is open. -/
def standingFrom (lookup : P → Option (Term S)) :
    (found : Standing P) → List (P × Term S) → Standing P
  | found, [] => found
  | found, (package, term) :: rest =>
    match (lookup package).elim Relation.inconclusive term.relationWith with
    | .satisfied => standingFrom lookup found rest
    | .contradicted => .contradicted package
    | .inconclusive =>
      match found with
      | .satisfied => standingFrom lookup (.almostSatisfied package) rest
      | _ => standingFrom lookup .inconclusive rest

/-- How the incompatibility relates to the terms known of each package. -/
def standing (i : Incompatibility P V S M) (lookup : P → Option (Term S)) : Standing P :=
  standingFrom lookup .satisfied i.terms.entries

/-! ## Combination -/

/-- Terms with one more term taken into account: what holds of a package is the intersection. -/
def conjoin (terms : OrderedMap P (Term S)) (entry : P × Term S) : OrderedMap P (Term S) :=
  match terms.get? entry.1 with
  | none => terms.insert entry.1 entry.2
  | some term => terms.insert entry.1 (term.intersection entry.2)

/-- What follows from two incompatibilities, with numbers `first` and `second`, by cases on a package:
the terms of both on other packages, and the union of the two on this one unless that admits
everything. -/
def resolvent (i j : Incompatibility P V S M) (first second : Nat) (package : P) :
    Except (Violation P V S) (Incompatibility P V S M) :=
  match i.get? package, j.get? package with
  | some t, some u =>
    let others := (j.terms.erase package).entries.foldl conjoin (i.terms.erase package)
    let either := t.union u
    .ok ⟨if either.isAny then others else others.insert package either, .derived first second⟩
  | _, _ => .error (.notMentioned package)

/-- The dependency of both version sets, for two dependencies of one package on another that allow the
same. Other incompatibilities do not combine. -/
def mergeDependents (i j : Incompatibility P V S M) :
    Except (Violation P V S) (Option (Incompatibility P V S M)) :=
  match i.cause, i.asDependency with
  | .fact (.dependency _ _ _ allowed), some (package, needed) =>
    if j.asDependency = some (package, needed) ∧ i.terms.keys = j.terms.keys ∧
        i.get? needed = j.get? needed then
      match i.get? package, j.get? package with
      | some t, some u => do
        let versions := VersionSet.union (← t.positiveVersions) (← u.positiveVersions)
        .ok (ofDependency package versions needed allowed)
      | _, _ => .error (.notMentioned package)
    else .ok none
  | _, _ => .ok none

end Incompatibility

end DependencyResolution
