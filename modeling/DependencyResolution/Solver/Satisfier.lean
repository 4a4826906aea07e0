import DependencyResolution.Solver.PartialSolution

/-!
# Satisfiers

The satisfier of a satisfied incompatibility is the earliest assignment after which all its terms hold.
A package's terms only ever narrow, so the assignment after which the package's term holds is found by
binary search in its derivations, and the satisfier is the latest of these over all packages. The
previous satisfier is the earliest assignment after which the incompatibility would hold if the
satisfier's own term were all that the satisfier brought; its level says how far a conflict lets the
solver go back.
-/

namespace DependencyResolution

/-- Where the term of one package came to hold: the incompatibility that the assignment was derived
from, unless it is a decision, its number and its level. -/
structure Satisfier where
  cause : Option Nat
  index : Nat
  level : Nat
  deriving DecidableEq

/-- What to do about a satisfied incompatibility. -/
inductive SatisfierSearch where
  /-- The satisfier is alone at its level: learn the incompatibility and go back to this level. -/
  | differentLevels (previous : Nat)
  /-- The previous satisfier is at the satisfier's level: resolve with this incompatibility. -/
  | sameLevel (cause : Nat)
  deriving DecidableEq

namespace PackageAssignments

variable {P V S : Type} [DecidableEq S] [VersionSet S V]

/-- The first place from `low` on, up to `high`, whose derivation leaves nothing of a term, given that
all later ones do so too. -/
def firstDisjoint (derivations : Array (Derivation P S)) (term : Term S) (low high : Nat)
    (hhigh : high ≤ derivations.size) : Nat :=
  if hlow : low < high then
    let middle := (low + high) / 2
    have hmiddle : middle < derivations.size := by omega
    if derivations[middle].accumulated.isDisjoint term then
      firstDisjoint derivations term low middle (Nat.le_of_lt hmiddle)
    else firstDisjoint derivations term (middle + 1) high hhigh
  else low
termination_by high - low

/-- The earliest assignment after which nothing is left of a term: a derivation, or else the
decision. -/
def satisfier (a : PackageAssignments P V S) (term : Term S) :
    Except (Violation P V S) Satisfier :=
  match a.derivations[firstDisjoint a.derivations term 0 a.derivations.size (Nat.le_refl _)]? with
  | some d => .ok ⟨some d.cause, d.index, d.level⟩
  | none =>
    match a.decision with
    | some d => .ok ⟨none, d.index, d.level⟩
    | none => .error (.noSatisfier term)

end PackageAssignments

namespace PartialSolution

variable {P V S M : Type} [DecidableEq P] [DecidableEq S] [VersionSet S V]

/-- The satisfier of each package of a list of terms. -/
def satisfiers (s : PartialSolution P V S) :
    List (P × Term S) → Except (Violation P V S) (List (P × Satisfier))
  | [] => .ok []
  | (package, term) :: rest =>
    match s.packages.get? package with
    | none => .error (.unseenPackage package)
    | some a => do
      let first ← a.satisfier term.negate
      let others ← satisfiers s rest
      .ok ((package, first) :: others)

/-- The first of the entries with the greatest number. -/
def latest {K : Type} : List (K × Satisfier) → Option (K × Satisfier)
  | [] => none
  | e :: rest => some (rest.foldl (fun best e => if best.2.index < e.2.index then e else best) e)

/-- The level of the previous satisfier, given the satisfiers of all packages, and 1 at the least: the
decision of the root opens level 1 and is never undone. -/
def previousLevel (s : PartialSolution P V S) (store : Store P V S M) (i : Incompatibility P V S M)
    (found : List (P × Satisfier)) (package : P) (satisfier : Satisfier) :
    Except (Violation P V S) Nat :=
  match s.packages.get? package, i.get? package with
  | some a, some term => do
    let own ←
      match satisfier.cause with
      | some cause =>
        match (← store.get cause).get? package with
        | some t => .ok t.negate
        | none => .error (.notMentioned package)
      | none =>
        match a.decision with
        | some d => .ok d.term
        | none => .error (.undecided package)
    let replaced ← a.satisfier (own.intersection term.negate)
    match latest (found.map fun e => if e.1 = package then (e.1, replaced) else e) with
    | some (_, last) => .ok (max last.level 1)
    | none => .error .noTerms
  | _, _ => .error (.unseenPackage package)

/-- The package whose assignment is the satisfier of a satisfied incompatibility, and what to do about
the conflict. -/
def satisfierSearch (s : PartialSolution P V S) (store : Store P V S M)
    (i : Incompatibility P V S M) : Except (Violation P V S) (P × SatisfierSearch) := do
  let found ← s.satisfiers i.terms.entries
  match latest found with
  | none => .error .noTerms
  | some (package, satisfier) =>
    let previous ← s.previousLevel store i found package satisfier
    if previous < satisfier.level then .ok (package, .differentLevels previous)
    else
      match satisfier.cause with
      | some cause => .ok (package, .sameLevel cause)
      | none => .error .decisionSharesLevel

end PartialSolution

end DependencyResolution
