import DependencyResolution.Solver.Term

/-!
# Broken rules

The operations of the solver have rules about when they may be called. A run in which the client keeps
its promises breaks none of them; called by hand, or with a client that answers what it was not asked
for, an operation names the rule that was broken and changes nothing.
-/

namespace DependencyResolution

/-- A rule that a call broke. -/
inductive Violation (P V S : Type) where
  /-- A version was decided for a package that does not wait for one. -/
  | notPending (package : P)
  /-- A version was decided that the package's term leaves out. -/
  | decidedOutside (package : P) (version : V) (term : Term S)
  /-- A term was derived for a package that is decided. -/
  | alreadyDecided (package : P)
  /-- No packages are kept for a level. -/
  | missingLevel (level : Nat)
  /-- A version was offered for a package that nothing is known about. -/
  | unknownPackage (package : P)
  /-- The level to go back to is not one of the levels so far. -/
  | noSuchLevel (target : Int) (current : Nat)
  /-- Going back left a package without derivations. -/
  | lostDerivations (package : P)
  /-- No assignment of a package excludes the term. -/
  | noSatisfier (term : Term S)
  /-- What satisfies an incompatibility was taken for the decision of a package that has none. -/
  | undecided (package : P)
  /-- A decision satisfies an incompatibility at the level of the assignments before it. -/
  | decisionSharesLevel
  /-- A satisfied incompatibility mentions a package that nothing is known about. -/
  | unseenPackage (package : P)
  /-- Two incompatibilities were resolved on a package that one of them does not mention. -/
  | notMentioned (package : P)
  /-- A negative term was taken for a positive one. -/
  | notPositive (term : Term S)
  /-- A positive term was taken for a negative one. -/
  | notNegative (term : Term S)
  /-- The client chose a version outside the set it was offered. -/
  | choseOutside (package : P) (version : V) (versions : S)
  /-- No incompatibility has this number. -/
  | noSuchIncompatibility (id : Nat)
  /-- An incompatibility without terms has no satisfier. -/
  | noTerms
  deriving DecidableEq

namespace Violation

open Text

variable {P V S : Type} [Shown P] [Shown V] [Shown S]

def message : Violation P V S → String
  | notPending p => s!"Cannot decide {Shown.literal p}: it is not a pending package"
  | decidedOutside p v t =>
    s!"Cannot decide {Shown.literal p} at {Shown.text v}: outside {t.text}"
  | alreadyDecided p => s!"Cannot derive for decided package {Shown.literal p}"
  | missingLevel level => s!"No packages are kept for level {level}"
  | unknownPackage p => s!"Cannot add a version for unknown package {Shown.literal p}"
  | noSuchLevel target current => s!"Cannot backtrack to level {target} from level {current}"
  | lostDerivations p => s!"{Shown.literal p} lost all of its derivations"
  | noSatisfier t => s!"No assignment excludes {t.text}; the package is undecided"
  | undecided p => s!"{Shown.literal p} has no decision"
  | decisionSharesLevel => "A decision cannot share its level with a prior satisfier"
  | unseenPackage p => s!"Satisfied incompatibility mentions unseen {Shown.literal p}"
  | notMentioned p => s!"Cannot merge on {Shown.literal p}: it is missing from a parent"
  | notPositive t => s!"Negative term cannot unwrap positive set: {t.text}"
  | notNegative t => s!"Positive term cannot unwrap negative set: {t.text}"
  | choseOutside p v s =>
    s!"choose_version picked {Shown.text p} {Shown.text v}, outside {Shown.text s}"
  | noSuchIncompatibility id => s!"No incompatibility has the id {id}"
  | noTerms => "An incompatibility without terms has no satisfier"

end Violation

namespace Term

variable {P V S : Type}

def positiveVersions : Term S → Except (Violation P V S) S
  | positive s => .ok s
  | negative s => .error (.notPositive (negative s))

def negativeVersions : Term S → Except (Violation P V S) S
  | negative s => .ok s
  | positive s => .error (.notNegative (positive s))

end Term

end DependencyResolution
