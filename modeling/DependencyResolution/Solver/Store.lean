import DependencyResolution.Solver.Incompatibility

/-!
# The store of incompatibilities

Every incompatibility of a run stays in the store under its number, the number of those before it. The
index lists, for each package, the incompatibilities that take part in propagation; those in between,
which conflict resolution passes through, are stored and not indexed.
-/

namespace DependencyResolution

/-- The incompatibilities of a run, and which of them mention a package. -/
structure Store (P V S M : Type) where
  /-- Every incompatibility; its number is its place. -/
  arena : Array (Incompatibility P V S M)
  /-- The numbers of the registered incompatibilities of each package, oldest first. -/
  index : OrderedMap P (List Nat)

namespace Store

variable {P V S M : Type} [DecidableEq P]

def empty : Store P V S M := ⟨#[], .empty⟩

def size (s : Store P V S M) : Nat := s.arena.size

def get? (s : Store P V S M) (id : Nat) : Option (Incompatibility P V S M) := s.arena[id]?

/-- The incompatibility with a number that the caller got from the store. -/
def get (s : Store P V S M) (id : Nat) : Except (Violation P V S) (Incompatibility P V S M) :=
  match s.get? id with
  | some i => .ok i
  | none => .error (.noSuchIncompatibility id)

/-- The numbers of the registered incompatibilities that mention a package, oldest first. -/
def idsFor (s : Store P V S M) (package : P) : List Nat := (s.index.get? package).getD []

/-- The store with one more incompatibility, which is not registered, and its number. -/
def alloc (s : Store P V S M) (i : Incompatibility P V S M) : Store P V S M × Nat :=
  (⟨s.arena.push i, s.index⟩, s.arena.size)

def addToIndex (id : Nat) (index : OrderedMap P (List Nat)) (package : P) :
    OrderedMap P (List Nat) :=
  index.insert package ((index.get? package).getD [] ++ [id])

def removeFromIndex (id : Nat) (index : OrderedMap P (List Nat)) (package : P) :
    OrderedMap P (List Nat) :=
  match index.get? package with
  | some ids => index.insert package (ids.erase id)
  | none => index

/-- The store with a number listed under some packages. -/
def enlist (s : Store P V S M) (id : Nat) (packages : List P) : Store P V S M :=
  { s with index := packages.foldl (addToIndex id) s.index }

/-- The store with a number no longer listed under some packages. -/
def delist (s : Store P V S M) (id : Nat) (packages : List P) : Store P V S M :=
  { s with index := packages.foldl (removeFromIndex id) s.index }

/-- Lists a stored incompatibility under every package that it mentions. -/
def register (s : Store P V S M) (id : Nat) : Except (Violation P V S) (Store P V S M) := do
  let i ← s.get id
  .ok (s.enlist id i.terms.keys)

/-- Drops a stored incompatibility from the index; it stays in the store. -/
def unregister (s : Store P V S M) (id : Nat) : Except (Violation P V S) (Store P V S M) := do
  let i ← s.get id
  .ok (s.delist id i.terms.keys)

/-- The store with one more incompatibility, which is registered, and its number. -/
def add (s : Store P V S M) (i : Incompatibility P V S M) : Store P V S M × Nat :=
  let (s, id) := s.alloc i
  (s.enlist id i.terms.keys, id)

/-- What follows from two stored incompatibilities by cases on a package. -/
def resolvent [DecidableEq S] [VersionSet S V] (s : Store P V S M) (first second : Nat)
    (package : P) : Except (Violation P V S) (Incompatibility P V S M) := do
  let i ← s.get first
  let j ← s.get second
  i.resolvent j first second package

end Store

end DependencyResolution
