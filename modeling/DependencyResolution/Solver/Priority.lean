import DependencyResolution.OrderedMap

/-!
# Picking the next package

Of the packages that wait for a decision the solver picks one of highest priority, and among those the
one that was assigned first. The client's priority of a package depends on the package and its allowed
versions alone, so it is asked again only when the versions have changed, or when it is another
function than the last time.
-/

namespace DependencyResolution

/-- The priorities asked so far: of which function, and for each package with which versions. -/
structure PriorityCache (F P S π : Type) where
  source : Option F
  known : OrderedMap P (S × π)

namespace PriorityCache

variable {F P S π : Type} [DecidableEq F] [DecidableEq P] [DecidableEq S]

def empty : PriorityCache F P S π := ⟨none, .empty⟩

/-- The cache for questions to a function: emptied when the last ones went to another. -/
def forSource (c : PriorityCache F P S π) (source : F) : PriorityCache F P S π :=
  if c.source = some source then c else ⟨some source, .empty⟩

/-- The priority of a package with the given versions, if it is known. -/
def find? (c : PriorityCache F P S π) (package : P) (versions : S) : Option π :=
  match c.known.get? package with
  | some (asked, priority) => if asked = versions then some priority else none
  | none => none

variable {m : Type → Type} [Monad m] [LT π] [DecidableLT π]

/-- The priority of a package, from the cache or by asking. -/
def priority (ask : P → S → m π) (c : PriorityCache F P S π) (package : P) (versions : S) :
    m (π × PriorityCache F P S π) :=
  match c.find? package versions with
  | some p => pure (p, c)
  | none => do
    let p ← ask package versions
    pure (p, { c with known := c.known.insert package (versions, p) })

/-- The better of the best package so far and one more: the later one only if its priority is
higher. -/
def better (best : Option (P × π)) (package : P) (p : π) : P × π :=
  match best with
  | none => (package, p)
  | some (first, q) => if q < p then (package, p) else (first, q)

/-- The best of the pending packages and the best so far. -/
def bestOf (ask : P → S → m π) (c : PriorityCache F P S π) (best : Option (P × π)) :
    List (P × S) → m (Option (P × π) × PriorityCache F P S π)
  | [] => pure (best, c)
  | (package, versions) :: rest => do
    let (p, c) ← c.priority ask package versions
    bestOf ask c (some (better best package p)) rest

/-- The pending package of highest priority, the first of several, when priorities come from the
function named `source`. -/
def pick (c : PriorityCache F P S π) (source : F) (ask : P → S → m π) (pending : List (P × S)) :
    m (Option P × PriorityCache F P S π) := do
  let (best, c) ← bestOf ask (c.forSource source) none pending
  pure (best.map Prod.fst, c)

end PriorityCache

end DependencyResolution
