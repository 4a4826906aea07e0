import DependencyResolution.Text.Shown
import DependencyResolution.Version.Set

/-!
# Terms

A term says which of its values a package may take; the values of a package are its versions and
"absent". A positive term admits the versions in its set, a negative term every other version and
"absent". So `positive ∅` admits nothing, `negative ∅` everything, and terms are closed under
negation, intersection and union.
-/

namespace DependencyResolution

/-- What may hold of one package. -/
inductive Term (S : Type u) where
  /-- The package is selected at a version in the set. -/
  | positive (versions : S)
  /-- The package is not selected at a version in the set. -/
  | negative (versions : S)
  deriving DecidableEq

/-- How a term relates to what is known about its package. -/
inductive Relation where
  /-- Everything still allowed satisfies the term. -/
  | satisfied
  /-- Nothing still allowed satisfies the term. -/
  | contradicted
  /-- Neither is the case. -/
  | inconclusive
  deriving DecidableEq

namespace Term

open Text

variable {S : Type u} {V : Type v}

/-- The versions that a term speaks of. -/
def versions : Term S → S
  | positive s => s
  | negative s => s

def isPositive : Term S → Bool
  | positive _ => true
  | negative _ => false

/-- The term that admits what this one does not. -/
def negate : Term S → Term S
  | positive s => negative s
  | negative s => positive s

variable [VersionSet S V]

/-- The package is selected at exactly this version. -/
def exact (v : V) : Term S := positive (VersionSet.singleton v)

def any : Term S := negative VersionSet.empty

def none : Term S := positive VersionSet.empty

/-- Whether selecting a version satisfies the term. -/
def contains : Term S → V → Bool
  | positive s, v => VersionSet.contains s v
  | negative s, v => !VersionSet.contains s v

/-- What both terms admit. -/
def intersection : Term S → Term S → Term S
  | positive s, positive t => positive (VersionSet.intersection s t)
  | positive s, negative t => positive (VersionSet.intersection s (VersionSet.complement t))
  | negative s, positive t => positive (VersionSet.intersection (VersionSet.complement s) t)
  | negative s, negative t => negative (VersionSet.union s t)

/-- What either term admits. -/
def union (t u : Term S) : Term S := (t.negate.intersection u.negate).negate

variable [DecidableEq S]

def isEmpty : Term S → Bool
  | positive s => VersionSet.isEmpty s
  | negative _ => false

def isAny : Term S → Bool
  | positive _ => false
  | negative s => VersionSet.isEmpty s

/-- Whether nothing satisfies both terms. -/
def isDisjoint (t u : Term S) : Bool := (t.intersection u).isEmpty

/-- Whether the second term admits everything that the first one does. -/
def subsetOf (t u : Term S) : Bool := decide (t = t.intersection u)

/-- How a term relates to the intersection of what is known about its package. -/
def relationWith (t known : Term S) : Relation :=
  let both := t.intersection known
  if both = known then .satisfied
  else if both.isEmpty then .contradicted
  else .inconclusive

def text [Shown S] : Term S → String
  | positive s => Shown.text s
  | negative s => s!"Not ( {Shown.text s} )"

def isWritable [Shown S] : Term S → Bool
  | positive s => Shown.isWritable s
  | negative s => Shown.isWritable s

end Term

end DependencyResolution
