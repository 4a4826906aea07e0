import DependencyResolution.Proofs.Solver.Breaking

/-!
# Moments of a run

A run comes from one moment to the next by a step that goes on (`Reached`), and it ends at one of its
moments (`resolveWithin_ends_at`). Before the root is derived nothing is known but the root; from then
on there is a trail with which the invariant holds (`Reached.cases`). The last step of a run comes to
nothing, so what holds at all moments holds of the session that a run leaves behind, however it ends
(`resolveWithin_moment`). A moment of a given run is found by taking its steps (`Reached.follow`).
-/

namespace DependencyResolution

variable {σ P V S M π E : Type} [DecidableEq P] [DecidableEq S] [VersionSet S V]

/-! ## Moments -/

section moments

variable [DecidableEq V] [LT π] [DecidableLT π] {provider : Provider σ P V S M π E} {client : σ} {root : P}
  {version : V} {x y : Session σ P V S M π E} {φ φ' : Phase P}

/-- The session and the phase of a run after some of its steps. -/
inductive Reached (provider : Provider σ P V S M π E) (client : σ) (root : P) (version : V) :
    Session σ P V S M π E → Phase P → Prop
  | start : Reached provider client root version (.start (.start root version) client) (.round root)
  | step {x y : Session σ P V S M π E} {φ φ' : Phase P} (h : Reached provider client root version x φ)
      (hs : Solving.step provider φ x = .ok (.inr φ') y) : Reached provider client root version y φ'

/-- Nothing has been derived, and the only question so far was whether to give up. -/
structure Session.Fresh (x : Session σ P V S M π E) (root : P) (version : V) (φ : Phase P) : Prop where
  state : x.state = .start root version
  visited : x.visited = .empty
  answers : x.answers = []
  phase : φ = .round root ∨ φ = .propagate [root] ∨ φ = .scan [0] []

omit [DecidableEq S] [DecidableEq V] [LT π] [DecidableLT π] in
theorem Session.Fresh.ne_decide (h : x.Fresh root version φ) : φ ≠ .decide := by
  rcases h.phase with rfl | rfl | rfl <;> simp

/-- From a fresh session a step leads to a fresh session or to the derivation of the root, unless the
provider stops it. -/
theorem Session.Fresh.step_spec (provider : Provider σ P V S M π E) (h : x.Fresh root version φ) :
    Solving.Ensures (Solving.step provider φ x)
      (fun r y => ∃ φ', r = .inr φ' ∧ (y.Fresh root version φ' ∨ y.Opened root version ∧ φ' = .scan [] [root]))
      (Solving.Stops provider) := by
  rcases h.phase with rfl | rfl | rfl
  · unfold Solving.step
    rw [if_neg (by simp)]
    refine Solving.Ensures.bind (Q := fun φ' y => φ' = .propagate [root] ∧ y.Fresh root version φ') ?_ ?_
    · refine (Solving.poll_spec provider x).bind ?_
      rintro - y ⟨hs, hq⟩
      exact ⟨rfl, hs.trans h.state, hq.visited.trans h.visited, hq.answers.trans h.answers,
        Or.inr (Or.inl rfl)⟩
    · rintro φ' y ⟨-, hy⟩
      exact ⟨φ', rfl, Or.inl hy⟩
  · rw [Solving.step_propagate_start provider h.state]
    exact ⟨_, rfl, Or.inl ⟨h.state, h.visited, h.answers, Or.inr (Or.inr rfl)⟩⟩
  · obtain ⟨y, hy, hstep⟩ := Solving.step_scan_start provider h.state h.visited h.answers
    rw [hstep]
    exact ⟨_, rfl, Or.inr ⟨hy, rfl⟩⟩

/-- The moment to which some steps lead from another one, if all of them go on. -/
def Solving.follow (provider : Provider σ P V S M π E) :
    Nat → Session σ P V S M π E → Phase P → Option (Session σ P V S M π E × Phase P)
  | 0, x, φ => some (x, φ)
  | steps + 1, x, φ =>
    match Solving.step provider φ x with
    | .ok (.inr φ') y => follow provider steps y φ'
    | _ => none

theorem Reached.follow {steps : Nat} (h : Reached provider client root version x φ)
    (hfollow : Solving.follow provider steps x φ = some (y, φ')) :
    Reached provider client root version y φ' := by
  induction steps generalizing x φ with
  | zero =>
    cases hfollow
    exact h
  | succ steps ih =>
    rw [Solving.follow] at hfollow
    split at hfollow
    · next hs => exact ih (h.step hs) hfollow
    · cases hfollow

variable [LawfulVersionSet S V]

/-- At every moment of a run either nothing has been derived yet, or the invariant holds, together with
whatever holds once the root is derived and is preserved by steps. -/
theorem Reached.cases {I : Session σ P V S M π E → List (Assignment P V S) → Phase P → Prop}
    (hproper : provider.AnswersProper)
    (hstart : ∀ {x : Session σ P V S M π E}, x.Opened root version →
      I x [.derivation (rootDerivation root version)] (.scan [] [root]))
    (hstep : ∀ {x y t t' φ φ'}, Invariant x.state t → Ready x.state t φ → I x t φ →
      Advance provider x t φ y t' φ' → I y t' φ')
    (h : Reached provider client root version x φ) :
    x.Fresh root version φ ∨ ∃ t, Invariant x.state t ∧ Ready x.state t φ ∧ I x t φ := by
  induction h with
  | start => exact Or.inl ⟨rfl, rfl, rfl, Or.inl rfl⟩
  | @step x y φ φ' _ hs ih =>
    rcases ih with hfresh | ⟨t, hinv, hφ, hI⟩
    · have hspec := hfresh.step_spec provider
      rw [hs] at hspec
      obtain ⟨_, hr, hfresh' | ⟨hopened, rfl⟩⟩ := hspec
      · cases hr
        exact Or.inl hfresh'
      · cases hr
        exact Or.inr ⟨_, hopened.state ▸ Invariant.opened root version,
          hopened.state ▸ Ready.opened root version, hstart hopened⟩
    · have hspec := Solving.step_spec hinv hφ hproper
      rw [hs] at hspec
      obtain ⟨t', hadvance⟩ := hspec
      exact Or.inr ⟨t', hadvance.invariant hinv hφ hproper, hadvance.ready hinv hφ hproper,
        hstep hinv hφ hI hadvance⟩

end moments

/-! ## Ends -/

section ends

variable [DecidableEq V] [LT π] [DecidableLT π] {provider : Provider σ P V S M π E} {client : σ} {root : P}
  {version : V} {x y : Session σ P V S M π E} {φ : Phase P}

/-- A run ends when its steps are used up, or with a step that breaks off or finds the solution. -/
inductive Ends (provider : Provider σ P V S M π E) (x : Session σ P V S M π E) (φ : Phase P) :
    Outcome σ P V S M π E → Prop
  | outOfSteps : Ends provider x φ (.error .outOfSteps, x)
  | broken {f : Failure P V S E} {y : Session σ P V S M π E}
      (h : Solving.step provider φ x = .error f y) : Ends provider x φ (.error f, y)
  | solved {solution : OrderedMap P V} {y : Session σ P V S M π E}
      (h : Solving.step provider φ x = .ok (.inl solution) y) : Ends provider x φ (.ok solution, y)

theorem Reached.solveFrom_ends_at (h : Reached provider client root version x φ) (steps : Nat) :
    ∃ y φ', Reached provider client root version y φ' ∧
      (∀ solution z, Solving.solveFrom provider steps φ x = .ok solution z →
        Ends provider y φ' (.ok solution, z)) ∧
      ∀ f z, Solving.solveFrom provider steps φ x = .error f z → Ends provider y φ' (.error f, z) := by
  induction steps generalizing x φ with
  | zero =>
    refine ⟨x, φ, h, fun solution z hz => ?_, fun f z hz => ?_⟩
    · cases hz
    · cases hz
      exact .outOfSteps
  | succ steps ih =>
    cases hs : Solving.step provider φ x with
    | error f y =>
      have hrun : Solving.solveFrom provider (steps + 1) φ x = .error f y := by
        rw [Solving.solveFrom]
        simp only [bind, EStateM.bind, hs]
      refine ⟨x, φ, h, fun solution z hz => ?_, fun f' z hz => ?_⟩
      · cases hrun.symm.trans hz
      · cases hrun.symm.trans hz
        exact .broken hs
    | ok r y =>
      cases r with
      | inl solution =>
        have hrun : Solving.solveFrom provider (steps + 1) φ x = .ok solution y := by
          rw [Solving.solveFrom, Solving.bind_of_ok hs]
          rfl
        refine ⟨x, φ, h, fun solution' z hz => ?_, fun f z hz => ?_⟩
        · cases hrun.symm.trans hz
          exact .solved hs
        · cases hrun.symm.trans hz
      | inr φ' =>
        rw [Solving.solveFrom_of_step hs]
        exact ih (h.step hs)

theorem resolveWithin_ends_at (provider : Provider σ P V S M π E) (client : σ) (root : P) (version : V)
    (steps : Nat) : ∃ x φ, Reached provider client root version x φ ∧
      Ends provider x φ (resolveWithin steps provider client root version) := by
  have hstart : Reached provider client root version (.start (.start root version) client) (.round root) :=
    .start
  obtain ⟨x, φ, hx, hsolved, hbroken⟩ := hstart.solveFrom_ends_at steps
  refine ⟨x, φ, hx, ?_⟩
  unfold resolveWithin
  split
  · next solution z hrun => exact hsolved solution z hrun
  · next f z hrun => exact hbroken f z hrun

variable [LawfulVersionSet S V]

theorem Ends.unmoved (hproper : provider.AnswersProper) (h : Reached provider client root version x φ)
    {outcome : Outcome σ P V S M π E} (hends : Ends provider x φ outcome) : x.Unmoved outcome.2 := by
  have hcases := h.cases (I := fun _ _ _ => True) hproper (fun _ => trivial) fun _ _ _ _ => trivial
  cases hends with
  | outOfSteps => exact .refl x
  | broken hs =>
    rcases hcases with hfresh | ⟨t, hinv, -⟩
    · exact Solving.step_error (t := []) hproper (fun hφ => absurd hφ hfresh.ne_decide) hs
    · exact Solving.step_error hproper (fun _ => hinv) hs
  | @solved solution y hs =>
    rcases hcases with hfresh | ⟨t, hinv, hφ, -⟩
    · have hspec := hfresh.step_spec provider
      rw [hs] at hspec
      obtain ⟨_, ⟨⟩, -⟩ := hspec
    · have hspec := Solving.step_spec hinv hφ hproper
      rw [hs] at hspec
      exact .of_quiet hspec.2.2.2.1 hspec.2.2.2.2

/-- A run that ends for want of a solution has stored an incompatibility that shows that there is
none. -/
theorem resolveWithin_noSolution (hproper : provider.AnswersProper) {steps id : Nat}
    (h : (resolveWithin steps provider client root version).1 = .error (.noSolution id)) :
    ∃ i, (resolveWithin steps provider client root version).2.state.store.get? id = some i ∧
      i.isTerminal (resolveWithin steps provider client root version).2.state.root
        (resolveWithin steps provider client root version).2.state.rootVersion = true := by
  obtain ⟨x, φ, hx, hends⟩ := resolveWithin_ends_at provider client root version steps
  have hxy := hends.unmoved hproper hx
  rw [hxy.state]
  cases hends' : resolveWithin steps provider client root version with
  | mk outcome y =>
    rw [hends'] at h hends
    obtain rfl : outcome = .error (.noSolution id) := h
    cases hends with
    | broken hs =>
      rcases hx.cases (I := fun _ _ _ => True) hproper (fun _ => trivial) fun _ _ _ _ => trivial with
        hfresh | ⟨t, hinv, hφ, -⟩
      · have hspec := hfresh.step_spec provider
        rw [hs] at hspec
        cases hspec
      · have hspec := Solving.step_spec hinv hφ hproper
        rw [hs] at hspec
        cases hspec with
        | stopped hstops => cases hstops
        | noSolution _ hi hterm => exact ⟨_, hi, hterm⟩

/-- What holds at all moments of a run and is not undone by steps that come to nothing holds of the
session that the run leaves behind. -/
theorem resolveWithin_moment {Q : Session σ P V S M π E → Prop} (hproper : provider.AnswersProper)
    (hmoment : ∀ x φ, Reached provider client root version x φ → Q x)
    (hstay : ∀ x y, x.Unmoved y → Q x → Q y) (steps : Nat) :
    Q (resolveWithin steps provider client root version).2 := by
  obtain ⟨x, φ, hx, hends⟩ := resolveWithin_ends_at provider client root version steps
  exact hstay x _ (hends.unmoved hproper hx) (hmoment x φ hx)

end ends

end DependencyResolution
