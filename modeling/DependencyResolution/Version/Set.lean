/-!
# Sets of versions

What the solver asks of a set of versions: the constants, complement, intersection and membership. It
never looks inside a set. Union, disjointness and inclusion are defined from these once for all
implementations; `==` on sets is meant to say that both hold the same versions.
-/

namespace DependencyResolution

/-- Sets `S` of versions `V`, closed under complement and intersection. -/
class VersionSet (S : Type u) (V : outParam (Type v)) where
  empty : S
  full : S
  singleton : V → S
  /-- The versions outside a set. -/
  complement : S → S
  intersection : S → S → S
  contains : S → V → Bool
  /-- A set that holds the same of the listed versions, which ascend; simpler if one is known. -/
  simplify : S → List V → S := fun s _ => s

namespace VersionSet

variable {S : Type u} {V : Type v} [VersionSet S V]

def union (s t : S) : S := complement (intersection (complement s) (complement t))

/-- Whether two sets have no version in common. -/
def isDisjoint [DecidableEq S] (s t : S) : Bool := decide (intersection s t = empty)

/-- Whether every version of the first set is in the second. -/
def subsetOf [DecidableEq S] (s t : S) : Bool := decide (intersection s t = s)

def isEmpty [DecidableEq S] (s : S) : Bool := decide (s = empty)

end VersionSet

end DependencyResolution
