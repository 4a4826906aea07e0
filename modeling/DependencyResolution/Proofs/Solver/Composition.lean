import DependencyResolution.Solver.Resolve

/-!
# Properties of all operations

The operations of the solver are put together from a few: to read the session, to change it, to note
something, to break off, and to ask the provider. What holds of these and of a sequence if it holds of its
parts (`Solving.Composes`) holds of every operation: of a step of deduction (`Composes.deduce`), and, if
it holds of the four questions (`Solving.OfQuestions`), of a step of a run and of the run
(`Composes.step`, `Composes.solveFrom`). A property of what is noted (`Solving.ComposesNoting`) holds of the
operations that note nothing else.
-/

namespace DependencyResolution

variable {σ P V S M π E : Type}

/-- Whether it is the provider that made an operation break off. -/
def Failure.fromProvider : Failure P V S E → Bool
  | cancelled _ => true
  | choosing .. => true
  | retrieving .. => true
  | prioritizing _ => true
  | _ => false

namespace Solving

/-- A property that sequences inherit from their parts, and that what the solver does without the provider
has. -/
structure Composes (C : {α : Type} → Solving σ P V S M π E α → Prop) : Prop where
  pure {α : Type} (a : α) : C (Pure.pure a)
  bind {α β : Type} {m : Solving σ P V S M π E α} {f : α → Solving σ P V S M π E β} (hm : C m)
    (hf : ∀ a, C (f a)) : C (m >>= f)
  throw {α : Type} {f : Failure P V S E} (h : f.fromProvider = false) :
    C (MonadExcept.throw f : Solving σ P V S M π E α)
  get : C (MonadState.get : Solving σ P V S M π E (Session σ P V S M π E))
  modify {f : Session σ P V S M π E → Session σ P V S M π E}
    (h : ∀ x, (f x).client = x.client ∧ (f x).events = x.events) : C (modify f)
  note (n : Note P V S M) : C (Solving.note n)

/-- The questions to a provider have a property. -/
structure OfQuestions (C : {α : Type} → Solving σ P V S M π E α → Prop)
    (provider : Provider σ P V S M π E) : Prop where
  poll : C (Solving.poll provider)
  priority (p : P) (versions : S) : C (askPriority provider p versions)
  version (p : P) (versions : S) : C (askVersion provider p versions)
  dependencies (p : P) (v : V) : C (askDependencies provider p v)

/-- A property that sequences inherit from their parts, and that what the solver does without the provider and
without new versions to try has, as long as nothing but what `N` admits is noted. -/
structure ComposesNoting (N : Note P V S M → Prop) (C : {α : Type} → Solving σ P V S M π E α → Prop) :
    Prop where
  pure {α : Type} (a : α) : C (Pure.pure a)
  bind {α β : Type} {m : Solving σ P V S M π E α} {f : α → Solving σ P V S M π E β} (hm : C m)
    (hf : ∀ a, C (f a)) : C (m >>= f)
  throw {α : Type} {f : Failure P V S E} (h : f.fromProvider = false) :
    C (MonadExcept.throw f : Solving σ P V S M π E α)
  get : C (MonadState.get : Solving σ P V S M π E (Session σ P V S M π E))
  modify {f : Session σ P V S M π E → Session σ P V S M π E}
    (h : ∀ x, (f x).client = x.client ∧ (f x).events = x.events ∧ (f x).visited = x.visited) : C (modify f)
  note {n : Note P V S M} (h : N n) : C (Solving.note n)

theorem Composes.noting {C : {α : Type} → Solving σ P V S M π E α → Prop} (h : Composes C) :
    ComposesNoting (fun _ => True) C where
  pure := h.pure
  bind := h.bind
  throw := h.throw
  get := h.get
  modify hf := h.modify fun x => ⟨(hf x).1, (hf x).2.1⟩
  note _ := h.note _

namespace ComposesNoting

variable {N : Note P V S M → Prop} {C : {α : Type} → Solving σ P V S M π E α → Prop}
  {provider : Provider σ P V S M π E}

/-! ## Access -/

theorem ofExcept (h : ComposesNoting N C) {α : Type} (r : Except (Violation P V S) α) : C (ofExcept r) := by
  cases r with
  | ok a => exact h.pure a
  | error v => exact h.throw rfl

theorem state (h : ComposesNoting N C) : C (state : Solving σ P V S M π E (SolverState P V S M)) :=
  h.bind h.get fun _ => h.pure _

theorem modifyState (h : ComposesNoting N C) (f : SolverState P V S M → SolverState P V S M) :
    C (modifyState f) :=
  h.modify fun _ => ⟨rfl, rfl, rfl⟩

theorem alloc (h : ComposesNoting N C) (i : Incompatibility P V S M) : C (alloc i) :=
  h.bind h.state fun _ => h.bind (h.modifyState _) fun _ => h.pure _

variable [DecidableEq P]

omit [DecidableEq P] in
theorem incompatibility (h : ComposesNoting N C) (id : Nat) : C (incompatibility id) :=
  h.bind h.state fun _ => h.ofExcept _

/-! ## Assignments -/

theorem backtrack (h : ComposesNoting N C) (hn : ∀ level affected, N (.backtracked level affected))
    (target : Int) : C (backtrack target) :=
  h.bind h.state fun _ => h.bind (h.ofExcept _) fun _ => h.bind (h.modifyState _) fun _ => h.note (hn _ _)

variable [VersionSet S V]

theorem decide (h : ComposesNoting N C) (hn : ∀ p v level, N (.decided p v level)) (p : P) (v : V) :
    C (decide p v) :=
  h.bind h.state fun _ => h.bind (h.ofExcept _) fun _ => h.bind (h.modifyState _) fun _ => h.note (hn ..)

theorem derive (h : ComposesNoting N C) (hn : ∀ p t level cause, N (.derived p t level cause)) (p : P)
    (t : Term S) (cause : Nat) : C (derive p t cause) :=
  h.bind h.state fun _ => h.bind (h.ofExcept _) fun _ => h.bind (h.modifyState _) fun _ => h.note (hn ..)

variable [DecidableEq S]

theorem decideUnless (h : ComposesNoting N C) (hd : ∀ p v level, N (.decided p v level))
    (hr : ∀ p v id, N (.refused p v id)) (p : P) (v : V) (ids : List Nat) : C (decideUnless p v ids) := by
  refine h.bind h.state fun s => h.bind (h.ofExcept _) fun r => h.bind (h.modifyState _) fun _ => ?_
  cases r.2 with
  | none => exact h.bind (h.note (hd ..)) fun _ => h.pure _
  | some id => exact h.bind (h.note (hr ..)) fun _ => h.pure _

/-! ## Adding knowledge -/

omit [DecidableEq S] [VersionSet S V] in
theorem register (h : ComposesNoting N C) (id : Nat) : C (register id) :=
  h.bind h.state fun _ => h.bind (h.ofExcept _) fun _ => h.modifyState _

omit [DecidableEq S] [VersionSet S V] in
theorem unregister (h : ComposesNoting N C) (id : Nat) : C (unregister id) :=
  h.bind h.state fun _ => h.bind (h.ofExcept _) fun _ => h.modifyState _

theorem mergeInto (h : ComposesNoting N C) (pair : P × P) (kept : List Nat) (id : Nat) (rest : List Nat) :
    C (mergeInto pair kept id rest) := by
  induction rest generalizing kept id with
  | nil => exact h.bind (h.modifyState _) fun _ => h.pure id
  | cons old rest ih =>
    refine h.bind (h.incompatibility old) fun _ => h.bind (h.incompatibility id) fun _ =>
      h.bind (h.ofExcept _) fun both => ?_
    cases both with
    | none => exact ih (old :: kept) id
    | some both =>
      exact h.bind (h.unregister old) fun _ => h.bind (h.modifyState _) fun _ =>
        h.bind (h.alloc both) fun new => ih kept new

theorem insert (h : ComposesNoting N C) (i : Incompatibility P V S M) : C (insert i) := by
  have hregister : ∀ id, C (do Solving.register id; return id : Solving σ P V S M π E Nat) := fun id =>
    h.bind (h.register id) fun _ => h.pure id
  refine h.bind (h.alloc i) fun id => ?_
  dsimp only
  cases i.asDependency with
  | none => exact h.bind (h.pure id) hregister
  | some pair =>
    exact h.bind h.state fun _ => h.bind (h.modifyState _) fun _ =>
      h.bind (h.mergeInto pair [] id _) hregister

theorem insertDependencies (h : ComposesNoting N C) (p : P) (v : V) (requirements : List (P × S)) :
    C (insertDependencies p v requirements) := by
  induction requirements with
  | nil => exact h.pure []
  | cons r rest ih =>
    obtain ⟨needed, allowed⟩ := r
    unfold Solving.insertDependencies
    cases Incompatibility.ofDependency p (VersionSet.singleton v) needed allowed with
    | none => exact ih
    | some i => exact h.bind (h.insert i) fun _ => h.bind ih fun _ => h.pure _

/-! ## Deduction -/

omit [DecidableEq S] in
theorem deriveFrom (h : ComposesNoting N C) (hn : ∀ p t level cause, N (.derived p t level cause)) (p : P)
    (id : Nat) : C (deriveFrom p id) := by
  refine h.bind (h.incompatibility id) fun i => ?_
  cases i.get? p with
  | none => exact h.throw rfl
  | some t => exact h.bind (h.derive hn p _ id) fun _ => h.modifyState _

theorem nextId (h : ComposesNoting N C) (hn : ∀ p t level cause, N (.derived p t level cause)) (ids : List Nat)
    (waiting : List P) : C (nextId ids waiting) := by
  cases ids with
  | nil => exact h.pure _
  | cons id rest =>
    refine h.bind h.state fun s => ?_
    split
    · exact h.pure _
    · refine h.bind (h.incompatibility id) fun i => ?_
      cases s.solution.standing i with
      | satisfied => exact h.pure _
      | contradicted p => exact h.bind (h.modifyState _) fun _ => h.pure _
      | almostSatisfied p => exact h.bind (h.deriveFrom hn p id) fun _ => h.pure _
      | inconclusive => exact h.pure _

/-! ## Picking a package -/

variable [LT π] [DecidableLT π]

omit [VersionSet S V] in
theorem bestOf (h : ComposesNoting N C) (hpriority : ∀ p versions, C (askPriority provider p versions))
    (pending : List (P × S)) (cache : PriorityCache Unit P S π) (best : Option (P × π)) :
    C (cache.bestOf (askPriority provider) best pending) := by
  induction pending generalizing cache best with
  | nil => exact h.pure _
  | cons e rest ih =>
    obtain ⟨p, versions⟩ := e
    refine h.bind ?_ fun r => ih r.2 _
    unfold PriorityCache.priority
    cases cache.find? p versions with
    | some r => exact h.pure _
    | none => exact h.bind (hpriority p versions) fun _ => h.pure _

omit [VersionSet S V] in
theorem pickPackage (h : ComposesNoting N C) (hpriority : ∀ p versions, C (askPriority provider p versions)) :
    C (pickPackage provider) :=
  h.bind h.get fun _ => h.bind (h.bind (h.bestOf hpriority _ _ none) fun _ => h.pure _) fun _ =>
    h.bind (h.modify fun _ => ⟨rfl, rfl, rfl⟩) fun _ => h.pure _

end ComposesNoting

namespace Composes

variable {C : {α : Type} → Solving σ P V S M π E α → Prop} {provider : Provider σ P V S M π E}

/-! ## Deduction -/

theorem modifyState (h : Composes C) (f : SolverState P V S M → SolverState P V S M) : C (modifyState f) :=
  h.noting.modifyState f

variable [DecidableEq P]

theorem backjump (h : Composes C) (id : Nat) (changed : Bool) (level : Nat) :
    C (backjump id changed level) := by
  refine h.bind (h.noting.backtrack (fun _ _ => trivial) _) fun _ => h.bind (h.modifyState _) fun _ => ?_
  cases changed with
  | false => exact h.pure ()
  | true => exact h.noting.register id

variable [VersionSet S V]

theorem decide (h : Composes C) (p : P) (v : V) : C (decide p v) :=
  h.noting.decide (fun _ _ _ => trivial) p v

variable [DecidableEq S]

theorem nextConflict (h : Composes C) (id : Nat) (changed : Bool) : C (nextConflict id changed) := by
  refine h.bind (h.noting.incompatibility id) fun i => h.bind h.noting.state fun s => ?_
  split
  · exact h.bind (h.note _) fun _ => h.bind (h.noting.ofExcept _) fun _ => h.throw rfl
  · refine h.bind (h.noting.ofExcept (s.solution.satisfierSearch s.store i)) fun found => ?_
    obtain ⟨p, previous | cause⟩ := found
    · exact h.bind (h.backjump id changed previous) fun _ => h.bind (h.note _) fun _ => h.pure _
    · exact h.bind (h.noting.ofExcept _) fun r => h.bind (h.noting.alloc r) fun _ =>
        h.bind (h.note _) fun _ => h.pure _

theorem deduce (h : Composes C) {poll : Solving σ P V S M π E Unit} (hpoll : C poll) (φ : Phase P) :
    C (deduce poll φ) := by
  cases φ with
  | round p => exact h.bind hpoll fun _ => h.pure _
  | propagate waiting =>
    cases waiting with
    | nil => exact h.pure _
    | cons p waiting => exact h.bind h.noting.state fun _ => h.pure _
  | scan ids waiting => exact h.noting.nextId (fun _ _ _ _ => trivial) ids waiting
  | conflict id changed => exact h.bind hpoll fun _ => h.nextConflict id changed
  | learned p id => exact h.bind (h.noting.deriveFrom (fun _ _ _ _ => trivial) p id) fun _ => h.pure _
  | decide => exact h.pure _

/-! ## Runs -/

variable [DecidableEq V] [LT π] [DecidableLT π]

omit [DecidableEq V] [LT π] [DecidableLT π] in
theorem tryVersion (h : Composes C) (hq : OfQuestions C provider) (p : P) (v : V) :
    C (tryVersion provider p v) := by
  refine h.bind (hq.dependencies p v) fun answer => ?_
  cases answer with
  | unavailable reason => exact h.bind (h.note _) fun _ => h.bind (h.noting.insert _) fun _ => h.pure _
  | available requirements =>
    exact h.bind (h.noting.insertDependencies p v _) fun ids =>
      h.bind (h.noting.decideUnless (fun _ _ _ => trivial) (fun _ _ _ => trivial) p v ids) fun _ => h.pure _

omit [LT π] [DecidableLT π] in
theorem useVersion (h : Composes C) (hq : OfQuestions C provider) (p : P) (v : V) :
    C (useVersion provider p v) := by
  refine h.bind h.get fun x => ?_
  dsimp only
  split
  · exact h.decide p v
  · exact h.bind (h.modify fun _ => ⟨rfl, rfl⟩) fun _ => h.tryVersion hq p v

omit [LT π] [DecidableLT π] in
theorem decidePackage (h : Composes C) (hq : OfQuestions C provider) (p : P) (t : Term S) :
    C (decidePackage provider p t) := by
  refine h.bind (h.noting.ofExcept _) fun versions => h.bind (hq.version p versions) fun answer => ?_
  cases answer with
  | none =>
    exact h.bind (h.note _) fun _ => h.bind (h.noting.ofExcept _) fun i =>
      h.bind (h.noting.insert i) fun _ => h.pure _
  | some v =>
    dsimp only
    split
    · exact h.useVersion hq p v
    · exact h.throw rfl

theorem decideNext (h : Composes C) (hq : OfQuestions C provider) : C (decideNext provider) := by
  refine h.bind (h.noting.pickPackage hq.priority) fun picked => ?_
  cases picked with
  | none => exact h.bind h.noting.state fun _ => h.bind (h.note _) fun _ => h.pure _
  | some p =>
    refine h.bind h.noting.state fun s => ?_
    cases s.solution.term? p with
    | none => exact h.throw rfl
    | some t => exact h.bind (h.decidePackage hq p t) fun _ => h.pure _

theorem step (h : Composes C) (hq : OfQuestions C provider) (φ : Phase P) : C (step provider φ) := by
  unfold Solving.step
  split
  · exact h.decideNext hq
  · exact h.bind (h.deduce hq.poll φ) fun _ => h.pure _

theorem solveFrom (h : Composes C) (hq : OfQuestions C provider) (steps : Nat) (φ : Phase P) :
    C (solveFrom provider steps φ) := by
  induction steps generalizing φ with
  | zero => exact h.throw rfl
  | succ steps ih =>
    refine h.bind (h.step hq φ) fun r => ?_
    cases r with
    | inl solution => exact h.pure solution
    | inr φ' => exact ih φ'

end Composes

end Solving

end DependencyResolution
