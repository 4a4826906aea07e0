import DependencyResolution.Solver.Satisfier

/-!
# What the solver knows

The store and the partial solution of a run, and two tables beside them. `contradicted` remembers which
incompatibilities are inert, and since which decision level, so that propagation can skip them.
`merged` lists, for a pair of packages, the registered dependencies of the one on the other: of those
that allow the same there is only one, which stands for all versions that were found to have it.
-/

namespace DependencyResolution

/-- What the solver knows while it resolves a root package at a version. -/
structure SolverState (P V S M : Type) where
  root : P
  rootVersion : V
  store : Store P V S M
  solution : PartialSolution P V S
  /-- The level at which an incompatibility became contradicted. -/
  contradicted : OrderedMap Nat Nat
  /-- The registered dependencies between two packages. -/
  merged : OrderedMap (P × P) (List Nat)

namespace SolverState

variable {P V S M : Type} [DecidableEq P] [VersionSet S V]

def blank (root : P) (version : V) : SolverState P V S M :=
  ⟨root, version, .empty, .empty, .empty, .empty⟩

/-- The state that knows what is to be resolved. -/
def start (root : P) (version : V) : SolverState P V S M :=
  let s := blank root version
  { s with store := (s.store.add (.notRoot root version)).1 }

def markContradicted (s : SolverState P V S M) (id : Nat) : SolverState P V S M :=
  { s with contradicted := s.contradicted.insert id s.solution.level }

def forgetAbove (s : SolverState P V S M) (level : Nat) : SolverState P V S M :=
  { s with contradicted := s.contradicted.filter fun e => e.2 ≤ level }

end SolverState

end DependencyResolution
