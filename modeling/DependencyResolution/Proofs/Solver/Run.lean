import DependencyResolution.Proofs.Solver.Preservation

/-!
# Runs

The first steps of a run derive that the root is selected at its version (`Solving.ensures_start`), and
from there on every state has the invariant. So what holds then and is preserved by every step holds
until the end (`Solving.ensures_solveFrom`).
-/

namespace DependencyResolution

open Incompatibility

variable {σ P V S M π E : Type} [DecidableEq P] [DecidableEq S] [VersionSet S V]

/-! ## The first steps -/

section opening

def rootDerivation (root : P) (version : V) : Derivation P S :=
  ⟨root, .exact version, 0, 0, 0, .exact version⟩

/-- What the solver knows once it has derived that the root is selected. -/
def SolverState.opened (root : P) (version : V) : SolverState P V S M :=
  { start root version with
    solution := {
      nextIndex := 1
      level := 0
      packages := .single root ⟨0, 0, .exact version, #[rootDerivation root version], none⟩
      touched := [[root]] }
    contradicted := .single 0 0 }

/-- The session has just derived that the root is selected. -/
structure Session.Opened (x : Session σ P V S M π E) (root : P) (version : V) : Prop where
  state : x.state = .opened root version
  visited : x.visited = .empty
  answers : x.answers = []

omit [DecidableEq S] in
theorem get?_start (root : P) (version : V) (n : Nat) :
    (SolverState.start root version : SolverState P V S M).store.get? n =
      if n = 0 then some (notRoot root version) else none := by
  change (Store.alloc Store.empty (notRoot root version)).1.get? n = _
  rw [Store.get?_alloc]
  rfl

omit [DecidableEq S] in
theorem idsFor_start (root : P) (version : V) (p : P) :
    (SolverState.start root version : SolverState P V S M).store.idsFor p =
      if p = root then [0] else [] := by
  change (Store.registered (Store.alloc Store.empty (notRoot root version)).1 0).idsFor p = _
  rw [Store.idsFor_registered]
  change [] ++ _ = _
  have hiff : p ∈ ((Store.alloc Store.empty (notRoot root version : Incompatibility P V S M)).1).packagesOf
      0 ↔ p = root := by
    simp [Store.packagesOf, Store.get?, Store.alloc, Store.empty, notRoot, OrderedMap.single,
      OrderedMap.keys]
  simp only [hiff, List.nil_append]

variable [LawfulVersionSet S V]

theorem Invariant.opened (root : P) (version : V) :
    Invariant (.opened root version : SolverState P V S M)
      [.derivation (rootDerivation root version)] := by
  have hderive : (PartialSolution.empty : PartialSolution P V S).derive root (.exact version) 0 =
      .ok (SolverState.opened root version : SolverState P V S M).solution := rfl
  have hallows : ∀ p x, Allows [.derivation (rootDerivation (S := S) root version)] p x ↔
      (root = p → (Term.exact version : Term S).Holds x) := by
    intro p x
    simp [Allows, Assignment.package, Assignment.term, rootDerivation]
  have hnot : (notRoot root version : Incompatibility P V S M).get? root =
      some (.negative (VersionSet.singleton version)) := by
    simp [notRoot, get?]
  refine
    { trail := .derive .empty hderive
      consistent := fun p => ⟨Value.ofVersion version, (hallows p _).mpr fun _ =>
        Term.holds_exact_ofVersion version⟩
      wellFormed := fun n i hi => ?_
      derived := fun n i first second hi hc => ?_
      indexed := fun p n hn => ?_
      merged := fun pair ids hids => by cases hids
      justified := fun d hd => ?_
      inert := fun n l hl => ?_
      rooted := ⟨_, [], rfl, rfl, rfl, rfl⟩
      rootFirst := fun d hd => by simp at hd }
  · change (SolverState.start root version).store.get? n = some i at hi
    rw [get?_start] at hi
    split_ifs at hi
    cases hi
    exact .fact (.root root version)
  · change (SolverState.start root version).store.get? n = some i at hi
    rw [get?_start] at hi
    split_ifs at hi
    cases hi
    cases hc
  · change n ∈ (SolverState.start root version).store.idsFor p at hn
    rw [idsFor_start] at hn
    split_ifs at hn with hp
    · rw [List.mem_singleton] at hn
      subst hn hp
      exact ⟨_, _, get?_start p version 0, hnot⟩
    · cases hn
  · rw [List.mem_singleton, Assignment.derivation.injEq] at hd
    subst hd
    refine ⟨_, get?_start root version 0, hnot, fun q w hw hq => ?_, fun hent => ?_⟩
    · simp only [notRoot, get?, OrderedMap.get?_single] at hw
      split_ifs at hw with hroot
      exact absurd hroot.symm hq
    · exact absurd (hent none fun a ha => by simp [before, rootDerivation, Assignment.index] at ha) id
  · change (OrderedMap.single 0 0).get? n = some l at hl
    rw [OrderedMap.get?_single] at hl
    split_ifs at hl with hn
    cases hl
    subst hn
    refine ⟨le_rfl, _, get?_start root version 0, root, _, hnot, fun x hx hneg => ?_⟩
    have hexact := (hallows root x).mp hx rfl
    exact (Term.holds_negate (.exact version) x).mp hneg hexact

omit [DecidableEq S] in
theorem Ready.opened (root : P) (version : V) :
    Ready (.opened root version : SolverState P V S M)
      [.derivation (rootDerivation root version)] (.scan [] [root]) where
  due n hn := by cases hn
  conflict id changed h := by cases h
  learned p id h := by cases h
  ground _ := by
    refine Or.inl ⟨fun a ha => ?_, fun n i q u hi hu => ?_⟩
    · rw [List.mem_singleton] at ha
      subst ha
      rfl
    · change (SolverState.start root version).store.get? n = some i at hi
      rw [get?_start] at hi
      split_ifs at hi
      cases hi
      simp only [notRoot, get?, OrderedMap.get?_single] at hu
      split_ifs at hu with hroot
      exact hroot.symm

end opening

namespace Solving

variable [DecidableEq V] [LT π] [DecidableLT π] {provider : Provider σ P V S M π E}
  {x y : Session σ P V S M π E} {Q : OrderedMap P V → Session σ P V S M π E → Prop}
  {F : Failure P V S E → Prop}

theorem solveFrom_of_step {n : Nat} {φ φ' : Phase P} (h : step provider φ x = .ok (.inr φ') y) :
    solveFrom provider (n + 1) φ x = solveFrom provider n φ' y := by
  rw [solveFrom, bind_of_ok h]

theorem step_of_deduce {φ φ' : Phase P} (hne : φ ≠ .decide)
    (h : deduce (poll provider) φ x = .ok φ' y) : step provider φ x = .ok (.inr φ') y := by
  unfold step
  rw [if_neg hne, bind_of_ok h]
  rfl

theorem step_propagate_start (provider : Provider σ P V S M π E) {root : P} {version : V}
    (hs : x.state = .start root version) :
    step provider (.propagate [root]) x = .ok (.inr (.scan [0] [])) x := by
  refine step_of_deduce (by simp) ?_
  change EStateM.Result.ok (Phase.scan (x.state.store.idsFor root).reverse []) x = _
  rw [hs, idsFor_start, if_pos rfl]
  rfl

omit [DecidableEq V] [LT π] [DecidableLT π] in
theorem deduce_scan_start (provider : Provider σ P V S M π E) {root : P} {version : V}
    (hs : x.state = .start root version) (hv : x.visited = .empty) (ha : x.answers = []) :
    ∃ y, y.Opened root version ∧ deduce (poll provider) (.scan [0] []) x = .ok (.scan [] [root]) y := by
  have hi : x.state.store.get? 0 = some (notRoot root version) := by
    rw [hs, get?_start, if_pos rfl]
  have hsol : x.state.solution.derive root (Term.negative (VersionSet.singleton version)).negate 0 =
      .ok (SolverState.opened root version : SolverState P V S M).solution := by
    rw [hs]
    rfl
  obtain ⟨y, hy, hys, hq⟩ := deriveFrom_of_ok hi (by simp [notRoot, get?]) hsol
  have hstanding : x.state.solution.standing
      (notRoot root version : Incompatibility P V S M) = .almostSatisfied root := by
    rw [hs]
    rfl
  have hc : x.state.contradicted.contains 0 = false := by
    rw [hs]
    rfl
  refine ⟨y, ⟨?_, hq.visited.trans hv, hq.answers.trans ha⟩, ?_⟩
  · rw [hys, hs]
    rfl
  · rw [deduce, nextId, bind_of_ok (state_eq x), if_neg (by rw [hc]; simp),
      bind_of_ok (incompatibility_of_get? hi), hstanding]
    dsimp only
    rw [bind_of_ok hy]
    rfl

theorem step_scan_start (provider : Provider σ P V S M π E) {root : P} {version : V}
    (hs : x.state = .start root version) (hv : x.visited = .empty) (ha : x.answers = []) :
    ∃ y, y.Opened root version ∧ step provider (.scan [0] []) x = .ok (.inr (.scan [] [root])) y := by
  obtain ⟨y, hopened, hdeduce⟩ := deduce_scan_start provider hs hv ha
  exact ⟨y, hopened, step_of_deduce (by simp) hdeduce⟩

/-- A run either stops at once or derives in its first three steps that the root is selected. -/
theorem start_spec (provider : Provider σ P V S M π E) (root : P) (version : V) (client : σ) :
    (∃ f y, Stops provider f ∧ ∀ n, solveFrom provider (n + 1) (.round root)
      (.start (.start root version) client : Session σ P V S M π E) = .error f y) ∨
    ∃ y, y.Opened root version ∧
      (∀ n, solveFrom provider (n + 3) (.round root)
        (.start (.start root version) client : Session σ P V S M π E) =
          solveFrom provider n (.scan [] [root]) y) ∧
      ∀ n < 3, Ensures (solveFrom provider n (.round root)
        (.start (.start root version) client : Session σ P V S M π E)) (fun _ _ => False) (· = .outOfSteps) := by
  have hpoll := poll_spec provider (.start (.start root version) client : Session σ P V S M π E)
  cases hfirst : poll provider (.start (.start root version) client : Session σ P V S M π E) with
  | error f y =>
    rw [hfirst] at hpoll
    refine Or.inl ⟨f, y, hpoll, fun n => ?_⟩
    have hstep : step provider (.round root)
        (.start (.start root version) client : Session σ P V S M π E) = .error f y := by
      unfold step
      rw [if_neg (by simp)]
      simp only [deduce, bind, EStateM.bind, hfirst]
    rw [solveFrom]
    simp only [bind, EStateM.bind, hstep]
  | ok u y =>
    rw [hfirst] at hpoll
    obtain ⟨hs, hq⟩ := hpoll
    have hstep : step provider (.round root)
        (.start (.start root version) client : Session σ P V S M π E) = .ok (.inr (.propagate [root])) y := by
      refine step_of_deduce (by simp) ?_
      rw [deduce, bind_of_ok hfirst]
      rfl
    obtain ⟨z, hz, hthird⟩ := step_scan_start provider hs hq.visited hq.answers
    have hsecond := step_propagate_start provider hs
    refine Or.inr ⟨z, hz, fun n => ?_, fun n hn => ?_⟩
    · rw [solveFrom_of_step hstep, solveFrom_of_step hsecond, solveFrom_of_step hthird]
    · rcases n with _ | _ | _ | n
      · exact rfl
      · rw [solveFrom_of_step hstep]
        exact rfl
      · rw [solveFrom_of_step hstep, solveFrom_of_step hsecond]
        exact rfl
      · omega

theorem ensures_start {root : P} {version : V} {client : σ} {n : Nat} (hout : F .outOfSteps)
    (hstops : ∀ f, Stops provider f → F f)
    (hopened : ∀ m x, x.Opened root version →
      Ensures (solveFrom provider m (.scan [] [root]) x) Q F) :
    Ensures (solveFrom provider n (.round root) (.start (.start root version) client)) Q F := by
  rcases start_spec provider root version client with ⟨f, y, hf, hrun⟩ | ⟨y, hy, hrun, hfew⟩
  · cases n with
    | zero => exact hout
    | succ n =>
      rw [hrun n]
      exact hstops f hf
  · by_cases hn : n < 3
    · exact (hfew n hn).mono (fun _ _ => False.elim) fun f hf => hf ▸ hout
    · obtain ⟨m, rfl⟩ := Nat.exists_eq_add_of_le' (not_lt.mp hn)
      rw [hrun m]
      exact hopened m y hy

variable [LawfulVersionSet S V]

/-- What holds of a session, its trail and its phase and is preserved by every step holds until the run
ends. -/
theorem ensures_solveFrom {I : Session σ P V S M π E → List (Assignment P V S) → Phase P → Prop}
    (hproper : provider.AnswersProper)
    (hstep : ∀ {x y t t' φ φ'}, Invariant x.state t → Ready x.state t φ → I x t φ →
      Advance provider x t φ y t' φ' → I y t' φ')
    (hsolved : ∀ {x y t}, Invariant x.state t → Ready x.state t .decide → I x t .decide →
      x.state.solution.pending = [] → y.state = x.state → x.Quiet y → Q x.state.solution.solution y)
    (hhalts : ∀ {x t φ f}, Invariant x.state t → Ready x.state t φ → I x t φ → Halts provider x φ f → F f)
    (hout : F .outOfSteps) {t : List (Assignment P V S)} {φ : Phase P} (h : Invariant x.state t)
    (hφ : Ready x.state t φ) (hI : I x t φ) (n : Nat) :
    Ensures (solveFrom provider n φ x) Q F := by
  -- over the steps that are left; every step carries the invariant, its phase's assumptions and `I` on
  induction n generalizing x t φ with
  | zero => exact hout
  | succ n ih =>
    rw [solveFrom]
    refine ((step_spec h hφ hproper).mono (fun _ _ h => h) fun f hf => hhalts h hφ hI hf).bind ?_
    rintro (solution | φ') y hr
    · obtain ⟨rfl, hpending, rfl, hs, hq⟩ := hr
      exact hsolved h hφ hI hpending hs hq
    · obtain ⟨t', hadvance⟩ := hr
      exact ih (hadvance.invariant h hφ hproper) (hadvance.ready h hφ hproper)
        (hstep h hφ hI hadvance)

/-- What holds once the root is derived and is preserved by every step holds until a run ends. -/
theorem ensures_run {I : Session σ P V S M π E → List (Assignment P V S) → Phase P → Prop} {root : P}
    {version : V} (hproper : provider.AnswersProper)
    (hstart : ∀ {x : Session σ P V S M π E}, x.Opened root version →
      I x [.derivation (rootDerivation root version)] (.scan [] [root]))
    (hstep : ∀ {x y t t' φ φ'}, Invariant x.state t → Ready x.state t φ → I x t φ →
      Advance provider x t φ y t' φ' → I y t' φ')
    (hsolved : ∀ {x y t}, Invariant x.state t → Ready x.state t .decide → I x t .decide →
      x.state.solution.pending = [] → y.state = x.state → x.Quiet y → Q x.state.solution.solution y)
    (hhalts : ∀ {x t φ f}, Invariant x.state t → Ready x.state t φ → I x t φ → Halts provider x φ f → F f)
    (hstops : ∀ f, Stops provider f → F f) (hout : F .outOfSteps) (client : σ) (n : Nat) :
    Ensures (solveFrom provider n (.round root) (.start (.start root version) client)) Q F :=
  ensures_start hout hstops fun m _ hx =>
    ensures_solveFrom hproper hstep hsolved hhalts hout (hx.state ▸ Invariant.opened root version)
      (hx.state ▸ Ready.opened root version) (hstart hx) m

end Solving

theorem resolveWithin_ok [DecidableEq V] [LT π] [DecidableLT π] {provider : Provider σ P V S M π E}
    {Q : OrderedMap P V → Session σ P V S M π E → Prop} {F : Failure P V S E → Prop} {steps : Nat}
    {client : σ} {root : P} {version : V} {solution : OrderedMap P V} {x : Session σ P V S M π E}
    (h : Solving.Ensures
      (Solving.solveFrom provider steps (.round root) (.start (.start root version) client)) Q F)
    (hr : resolveWithin steps provider client root version = (.ok solution, x)) : Q solution x := by
  unfold resolveWithin at hr
  split at hr
  · next hrun =>
    cases hr
    rwa [hrun] at h
  · cases hr

theorem resolveWithin_error [DecidableEq V] [LT π] [DecidableLT π] {provider : Provider σ P V S M π E}
    {Q : OrderedMap P V → Session σ P V S M π E → Prop} {F : Failure P V S E → Prop} {steps : Nat}
    {client : σ} {root : P} {version : V} {f : Failure P V S E}
    (h : Solving.Ensures
      (Solving.solveFrom provider steps (.round root) (.start (.start root version) client)) Q F)
    (hr : (resolveWithin steps provider client root version).1 = .error f) : F f := by
  unfold resolveWithin at hr
  split at hr
  · cases hr
  · next hrun =>
    cases hr
    rwa [hrun] at h

end DependencyResolution
