import DependencyResolution.Solver.Propagation

/-!
# Resolving

A run alternates between deriving what follows from the last change and asking the provider for one
more version: of the pending package of highest priority, a version in the set of those still allowed.
What the version depends on is asked once and becomes incompatibilities; the version is decided unless
one of them stands in the way. When no package is pending the decisions are the solution.

`step` is one step of a run, and `solveFrom` takes steps until there is a solution.
-/

namespace DependencyResolution

namespace Solving

variable {σ P V S M π E : Type} [DecidableEq P] [DecidableEq V] [DecidableEq S] [VersionSet S V]
  [LT π] [DecidableLT π]

/-! ## Questions -/

def poll (provider : Provider σ P V S M π E) : Solving σ P V S M π E Unit := do
  match ← ask provider.shouldCancel .polled with
  | .ok false => return ()
  | .ok true => throw (.cancelled none)
  | .error fault => throw (.cancelled (some fault))

def askPriority (provider : Provider σ P V S M π E) (package : P) (versions : S) :
    Solving σ P V S M π E π := do
  match ← ask (provider.prioritize package versions) (.prioritized package versions) with
  | .ok p => return p
  | .error fault => throw (.prioritizing fault)

def askVersion (provider : Provider σ P V S M π E) (package : P) (versions : S) :
    Solving σ P V S M π E (Option V) := do
  match ← ask (provider.chooseVersion package versions) (.chose package versions) with
  | .ok v => return v
  | .error fault => throw (.choosing package fault)

def askDependencies (provider : Provider σ P V S M π E) (package : P) (version : V) :
    Solving σ P V S M π E (Dependencies P S M) := do
  match ← ask (provider.dependencies package version) (.retrieved package version) with
  | .ok d => return d
  | .error fault => throw (.retrieving package version fault)

/-! ## Deciding -/

def pickPackage (provider : Provider σ P V S M π E) : Solving σ P V S M π E (Option P) := do
  let s ← get
  let (picked, priorities) ←
    s.priorities.pick () (askPriority provider) s.state.solution.pending
  modify fun s => { s with priorities }
  return picked

/-- Takes account of a version that has not been tried before: asks for its dependencies, and decides
it unless it is unavailable or one of them stands in the way. -/
def tryVersion (provider : Provider σ P V S M π E) (package : P) (version : V) :
    Solving σ P V S M π E Unit := do
  match ← askDependencies provider package version with
  | .unavailable reason =>
    note (.unavailable package version reason)
    let _ ← insert (.unusableVersion package version reason)
  | .available requirements =>
    let ids ← insertDependencies package version requirements.entries
    let _ ← decideUnless package version ids

/-- Decides a version that the client chose for a package, at once if its dependencies are known. -/
def useVersion (provider : Provider σ P V S M π E) (package : P) (version : V) :
    Solving σ P V S M π E Unit := do
  let visited := (← get).visited
  let seen := (visited.get? package).getD []
  if version ∈ seen then decide package version
  else
    modify fun s => { s with visited := visited.insert package (version :: seen) }
    tryVersion provider package version

/-- Decides a version of a package that may take the versions that a term admits, or records that
there is none. -/
def decidePackage (provider : Provider σ P V S M π E) (package : P) (term : Term S) :
    Solving σ P V S M π E Unit := do
  let versions ← ofExcept term.positiveVersions
  match ← askVersion provider package versions with
  | none =>
    note (.noVersions package versions)
    let _ ← insert (← ofExcept (Incompatibility.noVersions package term))
  | some version =>
    if term.contains version then useVersion provider package version
    else throw (.violation (.choseOutside package version versions))

/-- Decides one more package and starts a round, or gives the solution if no package is pending. -/
def decideNext (provider : Provider σ P V S M π E) :
    Solving σ P V S M π E (OrderedMap P V ⊕ Phase P) := do
  match ← pickPackage provider with
  | none =>
    let solution := (← state).solution.solution
    note (.solved solution.size)
    return .inl solution
  | some package =>
    match (← state).solution.term? package with
    | none => throw (.violation (.unknownPackage package))
    | some term =>
      decidePackage provider package term
      return .inr (.round package)

/-! ## The run -/

/-- A step of a run: gives the solution or the next phase. -/
def step (provider : Provider σ P V S M π E) (phase : Phase P) :
    Solving σ P V S M π E (OrderedMap P V ⊕ Phase P) :=
  if phase = .decide then decideNext provider
  else do return .inr (← deduce (poll provider) phase)

/-- Takes steps from a phase on until there is a solution. -/
def solveFrom (provider : Provider σ P V S M π E) :
    (steps : Nat) → Phase P → Solving σ P V S M π E (OrderedMap P V)
  | 0, _ => throw .outOfSteps
  | steps + 1, phase => do
    match ← step provider phase with
    | .inl solution => return solution
    | .inr phase => solveFrom provider steps phase

end Solving

variable {σ P V S M π E : Type} [DecidableEq P] [DecidableEq V] [DecidableEq S] [VersionSet S V]
  [LT π] [DecidableLT π]

abbrev Outcome (σ P V S M π E : Type) :=
  Except (Failure P V S E) (OrderedMap P V) × Session σ P V S M π E

/-- Looks for a version of every package that the root at a version requires, in at most so many
steps. -/
def resolveWithin (steps : Nat) (provider : Provider σ P V S M π E) (client : σ) (root : P)
    (version : V) : Outcome σ P V S M π E :=
  match Solving.solveFrom provider steps (.round root) (.start (.start root version) client) with
  | .ok solution session => (.ok solution, session)
  | .error failure session => (.error failure, session)

/-- More steps than a run can take in practice. -/
def ampleSteps : Nat := Nat.pow 2 60

/-- Looks for a version of every package that the root at a version requires. -/
def resolve (provider : Provider σ P V S M π E) (client : σ) (root : P) (version : V) :
    Outcome σ P V S M π E :=
  resolveWithin ampleSteps provider client root version

end DependencyResolution
