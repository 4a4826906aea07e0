import DependencyResolution.OrderedMap

/-!
# Providers

The solver knows nothing about packages. It asks a provider which package to decide first, which
version to try, what that version depends on, and whether to give up. A provider may keep a state of
its own, and any of its answers may be a fault.
-/

namespace DependencyResolution

/-- What a version of a package depends on. -/
inductive Dependencies (P S M : Type) where
  /-- These packages, in these versions. -/
  | available (requirements : OrderedMap P S)
  /-- The version cannot be used, for this reason. -/
  | unavailable (reason : M)
  deriving DecidableEq

/-- Answers to the questions of the solver, over states `σ`, with priorities `π` and faults `E`. -/
structure Provider (σ P V S M π E : Type) where
  /-- How urgent it is to decide a package that may take these versions. -/
  prioritize : P → S → σ → Except E π × σ
  /-- A version of the package in the set, if there is one. -/
  chooseVersion : P → S → σ → Except E (Option V) × σ
  /-- What a version of the package depends on. -/
  dependencies : P → V → σ → Except E (Dependencies P S M) × σ
  /-- Whether the solver should give up. -/
  shouldCancel : σ → Except E Bool × σ

end DependencyResolution
