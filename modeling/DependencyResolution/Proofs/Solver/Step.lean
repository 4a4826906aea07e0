import DependencyResolution.Proofs.Solver.Invariant

/-!
# Steps

What one step of a run can do, in terms of the trail: `Advance` lists the ways in which a step goes on,
and `Halts` those in which it breaks off. Where the invariant holds, a step goes on, breaks off or finds
the solution in one of these ways (`Solving.step_spec`), and going on preserves the invariant
(`Advance.invariant`, `Advance.ready`). Everything about runs follows from this.
-/

namespace DependencyResolution

variable {σ P V S M π E : Type} [DecidableEq P] [DecidableEq S] [VersionSet S V]

open Incompatibility

def Phase.due (store : Store P V S M) : Phase P → List Nat
  | .round p => store.idsFor p
  | .propagate (p :: _) => store.idsFor p
  | .scan ids _ => ids
  | _ => []

/-- The ways from one phase to the next that leave everything as it is. -/
inductive Phase.Turns (store : Store P V S M) : Phase P → Phase P → Prop
  | round (p : P) : Turns store (.round p) (.propagate [p])
  | rest : Turns store (.propagate []) .decide
  | next (p : P) (waiting : List P) :
      Turns store (.propagate (p :: waiting)) (.scan (store.idsFor p).reverse waiting)
  | done (waiting : List P) : Turns store (.scan [] waiting) (.propagate waiting)

/-- The package waits for a decision, and these versions are still allowed. -/
def PartialSolution.IsPending (s : PartialSolution P V S) (p : P) (versions : S) : Prop :=
  ∃ a, s.packages.get? p = some a ∧ a.decision = none ∧ a.derived = .positive versions

/-- The state in which a package has been tried at a version. -/
def Session.visit (x : Session σ P V S M π E) (p : P) (v : V) : OrderedMap P (List V) :=
  x.visited.insert p (v :: (x.visited.get? p).getD [])

variable [LawfulVersionSet S V]

omit [DecidableEq P] [DecidableEq S] in
/-- Every set that the provider answers about a version that it chooses is proper. -/
def Provider.AnswersProper (provider : Provider σ P V S M π E) : Prop :=
  ∀ p v requirements, (∃ versions c, (provider.chooseVersion p versions c).1 = .ok (some v)) →
    (∃ c, (provider.dependencies p v c).1 = .ok (.available requirements)) →
    ∀ r ∈ requirements.entries, LawfulVersionSet.Proper r.2

theorem Provider.AnswersProper.restates {provider : Provider σ P V S M π E}
    (h : provider.AnswersProper) {p : P} {versions : S} {v : V} {requirements : OrderedMap P S}
    (hc : ∃ c, (provider.chooseVersion p versions c).1 = .ok (some v))
    (hd : ∃ c, (provider.dependencies p v c).1 = .ok (.available requirements)) :
    ∀ i ∈ (dependencyFacts p v requirements.entries : List (Incompatibility P V S M)), i.Restates :=
  fun _ hi => restates_of_mem_dependencyFacts (h p v requirements ⟨versions, hc⟩ hd) hi

/-- Two terms at least are open and none is contradicted. -/
structure Incompatibility.OpenTwice (i : Incompatibility P V S M) (A : Knowledge P S V) : Prop where
  terms : ∃ p q u w, p ≠ q ∧ i.get? p = some u ∧ i.get? q = some w ∧ ¬ Entails A p u ∧ ¬ Entails A q w
  not_contradicted : ¬ i.ContradictedBy A

/-- All terms hold once the package is at the version. -/
structure Incompatibility.SatisfiedAt (i : Incompatibility P V S M) (A : Knowledge P S V) (p : P) (v : V) :
    Prop where
  own : ∀ u, i.get? p = some u → u.contains v = true
  others : ∀ q u, i.get? q = some u → q ≠ p → Entails A q u

/-- What a step makes of a session with its trail and phase. -/
inductive Advance (provider : Provider σ P V S M π E) (x : Session σ P V S M π E)
    (t : List (Assignment P V S)) : Phase P → Session σ P V S M π E → List (Assignment P V S) →
    Phase P → Prop
  | turn {y : Session σ P V S M π E} {φ φ' : Phase P} (h : φ.Turns x.state.store φ')
      (hs : y.state = x.state) (hq : x.Quiet y) : Advance provider x t φ y t φ'
  | skip {id : Nat} {rest : List Nat} {waiting : List P}
      (hc : x.state.contradicted.contains id = true) :
      Advance provider x t (.scan (id :: rest) waiting) x t (.scan rest waiting)
  | wait {id : Nat} {rest : List Nat} {waiting : List P} {i : Incompatibility P V S M}
      (hc : x.state.contradicted.contains id = false) (hi : x.state.store.get? id = some i)
      (h : i.OpenTwice (Allows t)) :
      Advance provider x t (.scan (id :: rest) waiting) x t (.scan rest waiting)
  | mark {y : Session σ P V S M π E} {id : Nat} {rest : List Nat} {waiting : List P}
      {i : Incompatibility P V S M} (hi : x.state.store.get? id = some i)
      (h : i.ContradictedBy (Allows t)) (hs : y.state = x.state.markContradicted id) (hq : x.Quiet y) :
      Advance provider x t (.scan (id :: rest) waiting) y t (.scan rest waiting)
  | derive {y : Session σ P V S M π E} {id : Nat} {rest : List Nat} {waiting : List P}
      {i : Incompatibility P V S M} {p : P} {u : Term S} {solution : PartialSolution P V S}
      (hc : x.state.contradicted.contains id = false) (hi : x.state.store.get? id = some i)
      (hu : i.get? p = some u) (h : i.AlmostSatisfiedBy (Allows t) p)
      (hsol : x.state.solution.derive p u.negate id = .ok solution)
      (hs : y.state = { x.state with solution }.markContradicted id) (hq : x.Quiet y) :
      Advance provider x t (.scan (id :: rest) waiting) y
        (t ++ [.derivation (x.state.solution.derivation p u.negate id)])
        (.scan rest (if p ∈ waiting then waiting else p :: waiting))
  | clash {id : Nat} {rest : List Nat} {waiting : List P} {i : Incompatibility P V S M}
      (hc : x.state.contradicted.contains id = false) (hi : x.state.store.get? id = some i)
      (h : i.SatisfiedBy (Allows t)) :
      Advance provider x t (.scan (id :: rest) waiting) x t (.conflict id false)
  | resolve {y : Session σ P V S M π E} {id : Nat} {changed : Bool} {i c r : Incompatibility P V S M}
      {p : P} {u : Term S} {d : Derivation P S} (hi : x.state.store.get? id = some i)
      (hterm : i.isTerminal x.state.root x.state.rootVersion = false)
      (hd : i.LastSatisfied t p u (.derivation d)) (hc : x.state.store.get? d.cause = some c)
      (hr : i.resolvent c id d.cause p = .ok r)
      (hs : y.state = { x.state with store := (x.state.store.alloc r).1 }) (hq : x.Quiet y) :
      Advance provider x t (.conflict id changed) y t (.conflict x.state.store.size true)
  | learn {y : Session σ P V S M π E} {id : Nat} {changed : Bool} {i : Incompatibility P V S M} {p : P}
      {u : Term S} {b : Assignment P V S} {l : Nat} {solution : PartialSolution P V S}
      (hi : x.state.store.get? id = some i) (hb : i.LastSatisfied t p u b) (hpos : 1 ≤ l)
      (hlt : l < b.level) (h : i.AlmostSatisfiedBy (Allows (upTo l t)) p)
      (hsol : x.state.solution.backtrack l = .ok solution)
      (hs : y.state = { { x.state with solution }.forgetAbove l with
        store := if changed then x.state.store.registered id else x.state.store })
      (hq : x.Quiet y) :
      Advance provider x t (.conflict id changed) y (upTo l t) (.learned p id)
  | learned {y : Session σ P V S M π E} {id : Nat} {i : Incompatibility P V S M} {p : P} {u : Term S}
      {solution : PartialSolution P V S} (hi : x.state.store.get? id = some i) (hu : i.get? p = some u)
      (h : i.AlmostSatisfiedBy (Allows t) p)
      (hsol : x.state.solution.derive p u.negate id = .ok solution)
      (hs : y.state = { x.state with solution }.markContradicted id) (hq : x.Quiet y) :
      Advance provider x t (.learned p id) y
        (t ++ [.derivation (x.state.solution.derivation p u.negate id)]) (.propagate [p])
  | missing {y : Session σ P V S M π E} {p : P} {versions : S} {id : Nat}
      (hp : x.state.solution.IsPending p versions)
      (hc : ∃ c, (provider.chooseVersion p versions c).1 = .ok none)
      (hs : Inserted x.state y.state (.missing p versions) id) (hv : y.visited = x.visited)
      (ha : y.answers = x.answers ++ [.chose p versions (.ok none)]) :
      Advance provider x t .decide y t (.round p)
  | unusable {y : Session σ P V S M π E} {p : P} {versions : S} {v : V} {reason : M} {id : Nat}
      (hp : x.state.solution.IsPending p versions) (hin : VersionSet.contains versions v = true)
      (hc : ∃ c, (provider.chooseVersion p versions c).1 = .ok (some v))
      (hd : ∃ c, (provider.dependencies p v c).1 = .ok (.unavailable reason))
      (hs : Inserted x.state y.state (.unusableVersion p v reason) id) (hv : y.visited = x.visit p v)
      (ha : y.answers = x.answers ++ [.chose p versions (.ok (some v)),
        .retrieved p v (.ok (.unavailable reason))]) :
      Advance provider x t .decide y t (.round p)
  | refused {y : Session σ P V S M π E} {p : P} {versions : S} {v : V} {requirements : OrderedMap P S}
      {ids : List Nat} {id : Nat} {i : Incompatibility P V S M}
      (hp : x.state.solution.IsPending p versions) (hin : VersionSet.contains versions v = true)
      (hc : ∃ c, (provider.chooseVersion p versions c).1 = .ok (some v))
      (hd : ∃ c, (provider.dependencies p v c).1 = .ok (.available requirements))
      (hs : Adds x.state (dependencyFacts p v requirements.entries) y.state ids) (hid : id ∈ ids)
      (hi : y.state.store.get? id = some i) (h : i.SatisfiedAt (Allows t) p v)
      (hv : y.visited = x.visit p v)
      (ha : y.answers = x.answers ++ [.chose p versions (.ok (some v)),
        .retrieved p v (.ok (.available requirements))]) :
      Advance provider x t .decide y t (.round p)
  | decided {y : Session σ P V S M π E} {p : P} {versions : S} {v : V} {requirements : OrderedMap P S}
      {ids : List Nat} {s : SolverState P V S M} {solution : PartialSolution P V S}
      (hp : x.state.solution.IsPending p versions) (hin : VersionSet.contains versions v = true)
      (hc : ∃ c, (provider.chooseVersion p versions c).1 = .ok (some v))
      (hd : ∃ c, (provider.dependencies p v c).1 = .ok (.available requirements))
      (hadds : Adds x.state (dependencyFacts p v requirements.entries) s ids)
      (hsol : x.state.solution.decide p v = .ok solution) (hs : y.state = { s with solution })
      (hv : y.visited = x.visit p v)
      (ha : y.answers = x.answers ++ [.chose p versions (.ok (some v)),
        .retrieved p v (.ok (.available requirements))]) :
      Advance provider x t .decide y (t ++ [.decision (x.state.solution.decision p v)]) (.round p)
  | again {y : Session σ P V S M π E} {p : P} {versions : S} {v : V} {seen : List V}
      {solution : PartialSolution P V S}
      (hp : x.state.solution.IsPending p versions) (hin : VersionSet.contains versions v = true)
      (hc : ∃ c, (provider.chooseVersion p versions c).1 = .ok (some v))
      (hseen : x.visited.get? p = some seen) (hvs : v ∈ seen)
      (hsol : x.state.solution.decide p v = .ok solution) (hs : y.state = { x.state with solution })
      (hv : y.visited = x.visited) (ha : y.answers = x.answers ++ [.chose p versions (.ok (some v))]) :
      Advance provider x t .decide y (t ++ [.decision (x.state.solution.decision p v)]) (.round p)

/-- How a step can break off. -/
inductive Halts (provider : Provider σ P V S M π E) (x : Session σ P V S M π E) (φ : Phase P) :
    Failure P V S E → Prop
  | stopped {f : Failure P V S E} (h : Solving.Stops provider f) : Halts provider x φ f
  | noSolution {id : Nat} {changed : Bool} {i : Incompatibility P V S M} (hφ : φ = .conflict id changed)
      (hi : x.state.store.get? id = some i)
      (h : i.isTerminal x.state.root x.state.rootVersion = true) : Halts provider x φ (.noSolution id)
  | choseOutside {p : P} {versions : S} {v : V}
      (hc : ∃ c, (provider.chooseVersion p versions c).1 = .ok (some v))
      (hv : VersionSet.contains versions v = false) :
      Halts provider x φ (.violation (.choseOutside p v versions))

/-- How a step of deduction can break off: the provider gives up, or a conflict shows that there is no
solution. -/
inductive Concedes (provider : Provider σ P V S M π E) (x : Session σ P V S M π E) (φ : Phase P) :
    Failure P V S E → Prop
  | cancelled {c : σ} {fault : Option E} (h : (provider.shouldCancel c).1 ≠ .ok false) :
      Concedes provider x φ (.cancelled fault)
  | noSolution {id : Nat} {changed : Bool} {i : Incompatibility P V S M} (hφ : φ = .conflict id changed)
      (hi : x.state.store.get? id = some i)
      (h : i.isTerminal x.state.root x.state.rootVersion = true) : Concedes provider x φ (.noSolution id)

variable {provider : Provider σ P V S M π E} {x y z : Session σ P V S M π E}
  {t t' : List (Assignment P V S)} {φ φ' : Phase P}

omit [DecidableEq S] [LawfulVersionSet S V] in
theorem Concedes.halts {f : Failure P V S E} (h : Concedes provider x φ f) : Halts provider x φ f := by
  cases h with
  | cancelled h => exact .stopped (.cancelled h)
  | noSolution hφ hi h => exact .noSolution hφ hi h

theorem Advance.of_quiet {id : Nat} {changed : Bool} (hs : y.state = x.state) (hq : x.Quiet y)
    (h : Advance provider y t (.conflict id changed) z t' φ) :
    Advance provider x t (.conflict id changed) z t' φ := by
  cases h with
  | turn h => cases h
  | resolve hi hterm hd hc hr hs' hq' =>
    rw [hs] at hi hterm hc hs' ⊢
    exact .resolve hi hterm hd hc hr hs' (hq.trans hq')
  | learn hi hb hpos hlt h hsol hs' hq' =>
    rw [hs] at hi hsol hs'
    exact .learn hi hb hpos hlt h hsol hs' (hq.trans hq')

theorem Advance.of_quiet_decide (hs : y.state = x.state) (hq : x.Quiet y)
    (h : Advance provider y t .decide z t' φ) : Advance provider x t .decide z t' φ := by
  have hvisit : ∀ p v, y.visit p v = x.visit p v := fun p v => by
    rw [Session.visit, Session.visit, hq.visited]
  cases h with
  | turn h => cases h
  | missing hp hc hs' hv ha =>
    rw [hs] at hp hs'
    rw [hq.visited] at hv
    rw [hq.answers] at ha
    exact .missing hp hc hs' hv ha
  | unusable hp hin hc hd hs' hv ha =>
    rw [hs] at hp hs'
    rw [hvisit] at hv
    rw [hq.answers] at ha
    exact .unusable hp hin hc hd hs' hv ha
  | refused hp hin hc hd hs' hid hi h hv ha =>
    rw [hs] at hp hs'
    rw [hvisit] at hv
    rw [hq.answers] at ha
    exact .refused hp hin hc hd hs' hid hi h hv ha
  | decided hp hin hc hd hadds hsol hs' hv ha =>
    rw [hs] at hp hadds hsol ⊢
    rw [hvisit] at hv
    rw [hq.answers] at ha
    exact .decided hp hin hc hd hadds hsol hs' hv ha
  | again hp hin hc hseen hvs hsol hs' hv ha =>
    rw [hs] at hp hsol hs' ⊢
    rw [hq.visited] at hseen hv
    rw [hq.answers] at ha
    exact .again hp hin hc hseen hvs hsol hs' hv ha

omit [DecidableEq S] [LawfulVersionSet S V] in
theorem Halts.of_state_eq {f : Failure P V S E} (hs : y.state = x.state) (h : Halts provider y φ f) :
    Halts provider x φ f := by
  cases h with
  | stopped h => exact .stopped h
  | noSolution hφ hi h =>
    rw [hs] at hi h
    exact .noSolution hφ hi h
  | choseOutside hc hv => exact .choseOutside hc hv

/-- An incompatibility is on the way to be found satisfied, or has been found so. -/
def Clashing (s : SolverState P V S M) (t : List (Assignment P V S)) (φ : Phase P) : Prop :=
  (∃ id changed, φ = .conflict id changed) ∨ ∃ n ∈ φ.due s.store, s.contradicted.contains n = false ∧
    ∃ i, s.store.get? n = some i ∧ i.SatisfiedBy (Allows t)

/-- Only the root has been spoken of. -/
structure OnlyRoot (s : SolverState P V S M) (t : List (Assignment P V S)) : Prop where
  assigned : ∀ a ∈ t, a.package = s.root
  mentioned : ∀ n i q u, s.store.get? n = some i → i.get? q = some u → q = s.root

/-- What a phase takes for granted: what is to be looked at is stored, a conflict is one, and what was learned
says something. -/
structure Poised (s : SolverState P V S M) (t : List (Assignment P V S)) (φ : Phase P) : Prop where
  due : ∀ n ∈ φ.due s.store, ∃ i, s.store.get? n = some i
  conflict : ∀ id changed, φ = .conflict id changed →
    ∃ i, s.store.get? id = some i ∧ i.SatisfiedBy (Allows t)
  learned : ∀ p id, φ = .learned p id →
    ∃ i, s.store.get? id = some i ∧ i.AlmostSatisfiedBy (Allows t) p

/-- What a phase of a run takes for granted. Before the root is decided only the root has been spoken of, or
a conflict is ahead. -/
structure Ready (s : SolverState P V S M) (t : List (Assignment P V S)) (φ : Phase P) : Prop
    extends Poised s t φ where
  ground : s.solution.level = 0 → OnlyRoot s t ∨ Clashing s t φ

/-! ## Pending packages -/

section pending

variable {s : SolverState P V S M} {p : P} {versions : S}

theorem Invariant.allows_iff (h : Invariant s t) (hp : s.solution.IsPending p versions)
    (w : Value S V) : Allows t p w ↔ (Term.positive versions).Holds w := by
  obtain ⟨a, hpa, hnone, hderived⟩ := hp
  rw [← h.trail.holds_derived_iff h.properTrail hpa hnone, hderived]

theorem Invariant.restates_missing (h : Invariant s t) (hp : s.solution.IsPending p versions) :
    (missing p versions : Incompatibility P V S M).Restates := by
  refine .noVersions p versions ?_ ?_
  · obtain ⟨a, hpa, -, hderived⟩ := hp
    have hd := h.trail.isProper_derived h.properTrail hpa
    rwa [hderived] at hd
  · obtain ⟨w, hw⟩ := h.consistent p
    rw [h.allows_iff hp] at hw
    cases w with
    | none => exact absurd hw id
    | some w => exact ⟨w, hw⟩

omit [DecidableEq S] [LawfulVersionSet S V] in
theorem PartialSolution.IsPending.exists_decide {s : PartialSolution P V S} (hp : s.IsPending p versions)
    {v : V} (hin : VersionSet.contains versions v = true) : ∃ solution, s.decide p v = .ok solution := by
  obtain ⟨a, hpa, hnone, hderived⟩ := hp
  exact ⟨_, PartialSolution.decide_eq_ok_iff.mpr
    ⟨a, hpa, hnone, by rw [hderived]; rfl, by rw [hderived]; exact hin, rfl⟩⟩

omit [DecidableEq S] [VersionSet S V] [LawfulVersionSet S V] in
theorem PartialSolution.IsPending.term?_eq {s : PartialSolution P V S} (hp : s.IsPending p versions) :
    s.term? p = some (.positive versions) := by
  obtain ⟨a, hpa, hnone, hderived⟩ := hp
  rw [PartialSolution.term?, hpa]
  simp [PackageAssignments.term, hnone, hderived]

theorem Ready.eq_root (h : Invariant s t) (hφ : Ready s t .decide) (hp : s.solution.IsPending p versions)
    (hl : s.solution.level = 0) : p = s.root := by
  rcases hφ.ground hl with ⟨hall, -⟩ | ⟨id, changed, hc⟩ | ⟨n, hn, -⟩
  · obtain ⟨a, hpa, -, -⟩ := hp
    by_contra hne
    have habsent := h.trail.absent_iff.mpr fun b hb hbp => hne (hbp.symm.trans (hall b hb))
    rw [hpa] at habsent
    cases habsent
  · cases hc
  · cases hn

end pending

namespace Solving

variable [LT π] [DecidableLT π]

/-! ## Deduction -/

section operations

omit [DecidableEq S] [LawfulVersionSet S V] [LT π] [DecidableLT π]

theorem derive_of_ok {p : P} {u : Term S} {id : Nat} {solution : PartialSolution P V S}
    (h : x.state.solution.derive p u id = .ok solution) :
    (derive p u id : Solving σ P V S M π E Unit) x =
      .ok () (({ x with state := { x.state with solution } } : Session σ P V S M π E).after
        (.noted (.derived p u solution.level id))) := by
  unfold derive
  rw [bind_of_ok (state_eq x), h]
  rfl

theorem decide_of_ok {p : P} {v : V} {solution : PartialSolution P V S}
    (h : x.state.solution.decide p v = .ok solution) :
    (decide p v : Solving σ P V S M π E Unit) x =
      .ok () (({ x with state := { x.state with solution } } : Session σ P V S M π E).after
        (.noted (.decided p v solution.level))) := by
  unfold decide
  rw [bind_of_ok (state_eq x), h]
  rfl

theorem deriveFrom_of_ok {p : P} {id : Nat} {i : Incompatibility P V S M} {u : Term S}
    {solution : PartialSolution P V S} (hi : x.state.store.get? id = some i) (hu : i.get? p = some u)
    (h : x.state.solution.derive p u.negate id = .ok solution) :
    ∃ y, (deriveFrom p id : Solving σ P V S M π E Unit) x = .ok () y ∧
      y.state = { x.state with solution }.markContradicted id ∧ x.Quiet y := by
  refine ⟨({ x with state := { x.state with solution }.markContradicted id } :
    Session σ P V S M π E).after (.noted (.derived p u.negate solution.level id)), ?_, rfl, ?_⟩
  · unfold deriveFrom
    rw [bind_of_ok (incompatibility_of_get? hi), hu]
    dsimp only
    rw [bind_of_ok (derive_of_ok h)]
    rfl
  · exact x.quiet_update _ rfl

omit [VersionSet S V] in
theorem backjump_of_ok {id : Nat} {i : Incompatibility P V S M} (hi : x.state.store.get? id = some i)
    (changed : Bool) {l : Nat} {solution : PartialSolution P V S}
    (h : x.state.solution.backtrack l = .ok solution) :
    ∃ y, (backjump id changed l : Solving σ P V S M π E Unit) x = .ok () y ∧
      y.state = { { x.state with solution }.forgetAbove l with
        store := if changed then x.state.store.registered id else x.state.store } ∧ x.Quiet y := by
  have hback : (backtrack (l : Int) : Solving σ P V S M π E Unit) x =
      .ok () (({ x with state := { x.state with solution } } : Session σ P V S M π E).after
        (.noted (.backtracked solution.level
          (x.state.solution.touchedAbove solution.level).length))) := by
    unfold backtrack
    rw [bind_of_ok (state_eq x)]
    dsimp only
    rw [h]
    rfl
  refine ⟨({ x with state := { { x.state with solution }.forgetAbove l with
      store := if changed then x.state.store.registered id else x.state.store } } :
    Session σ P V S M π E).after (.noted (.backtracked solution.level
      (x.state.solution.touchedAbove solution.level).length)), ?_, rfl, x.quiet_update _ rfl⟩
  unfold backjump
  rw [bind_of_ok hback]
  cases changed with
  | false => rfl
  | true =>
    change (modifyState (fun s => s.forgetAbove l) >>= fun _ => register id) _ = _
    exact (bind_of_ok rfl).trans (register_of_get? hi)

end operations

section deduction

omit [LT π] [DecidableLT π]

theorem nextId_spec (h : Invariant x.state t) {id : Nat} {rest : List Nat} {waiting : List P}
    (hid : ∃ i, x.state.store.get? id = some i) :
    Ensures (nextId (id :: rest) waiting x)
      (fun φ y => ∃ t', Advance provider x t (.scan (id :: rest) waiting) y t' φ) (fun _ => False) := by
  obtain ⟨i, hi⟩ := hid
  have hcont := h.isContingent hi
  rw [nextId, bind_of_ok (state_eq x)]
  cases hc : x.state.contradicted.contains id with
  | true => exact ⟨t, .skip hc⟩
  | false =>
    rw [if_neg (by simp), bind_of_ok (incompatibility_of_get? hi)]
    cases hs : x.state.solution.standing i with
    | satisfied =>
      exact ⟨t, .clash hc hi ((standing_eq_satisfied_iff h.describes hcont).mp hs)⟩
    | contradicted p =>
      exact ⟨t, .mark hi (standing_eq_contradicted h.describes hcont hs) rfl ⟨rfl, rfl⟩⟩
    | almostSatisfied p =>
      have halmost := (standing_eq_almostSatisfied_iff h.describes hcont).mp hs
      obtain ⟨u, hu, -, -⟩ := halmost.1
      obtain ⟨solution, hsol⟩ := h.exists_derive hi hu halmost
      obtain ⟨y, hy, hys, hq⟩ := deriveFrom_of_ok hi hu hsol
      dsimp only
      rw [bind_of_ok hy]
      exact ⟨_, .derive hc hi hu halmost hsol hys hq⟩
    | inconclusive =>
      obtain ⟨p, q, u, w, hne, hu, hw, hpu, hqw, hnot⟩ :=
        standing_eq_inconclusive h.describes hcont hs
      exact ⟨t, .wait hc hi ⟨⟨p, q, u, w, hne, hu, hw, hpu, hqw⟩, hnot⟩⟩

theorem nextConflict_spec (h : Invariant x.state t) {id : Nat} {changed : Bool}
    {i : Incompatibility P V S M} (hi : x.state.store.get? id = some i)
    (hsat : i.SatisfiedBy (Allows t)) :
    Ensures (nextConflict id changed x)
      (fun φ y => ∃ t', Advance provider x t (.conflict id changed) y t' φ)
      (fun f => f = .noSolution id ∧ i.isTerminal x.state.root x.state.rootVersion = true) := by
  unfold nextConflict
  rw [bind_of_ok (incompatibility_of_get? hi), bind_of_ok (state_eq x)]
  cases hterm : i.isTerminal x.state.root x.state.rootVersion with
  | true =>
    rw [if_pos rfl, bind_of_ok (note_eq _ x), h.build_eq_ok hi]
    exact ⟨rfl, rfl⟩
  | false =>
    rw [if_neg (by simp)]
    have hne : i.terms.entries ≠ [] := by
      intro hnil
      rw [isTerminal, hnil] at hterm
      cases hterm
    obtain ⟨p, u, b, hb, ⟨l, hsearch, hpos, hlt, halmost⟩ | ⟨d, rfl, hsearch⟩⟩ :=
      h.trail.satisfierSearch_spec h.properTrail h.consistent (h.isContingent hi) hsat hne h.justified
        h.exists_before_first
    · have hl : l ≤ x.state.solution.level := hlt.le.trans (h.trail.level_le b hb.first.mem)
      obtain ⟨solution, hsol, -⟩ := h.trail.backtrack hl
      obtain ⟨y, hy, hys, hq⟩ := backjump_of_ok hi changed hsol
      rw [hsearch, bind_of_ok (ofExcept_ok _ x)]
      dsimp only
      rw [bind_of_ok hy, bind_of_ok (note_eq _ y)]
      exact ⟨_, .learn hi hb hpos hlt halmost hsol hys (hq.trans (Session.quiet_after y rfl))⟩
    · obtain ⟨c, hc, hj⟩ := h.justified d hb.first.mem
      have hdp : d.package = p := hb.first.package
      obtain ⟨r, hr⟩ := exists_resolvent id d.cause hb.term (hdp ▸ hj.term)
      have hres : x.state.store.resolvent id d.cause p = .ok r := by
        simp only [Store.resolvent, Store.get_eq_ok hi, Store.get_eq_ok hc, bind, Except.bind, hr]
      rw [hsearch, bind_of_ok (ofExcept_ok _ x)]
      dsimp only
      rw [hres, bind_of_ok (ofExcept_ok _ x)]
      exact ⟨t, .resolve hi hterm hb hc hr rfl (x.quiet_update _ rfl)⟩

omit [DecidableEq S] [LawfulVersionSet S V] in
theorem poll_concedes (φ : Phase P) :
    Ensures (poll provider x) (fun _ y => y.state = x.state ∧ x.Quiet y) (Concedes provider x φ) := by
  cases hpoll : poll provider x with
  | ok _ y =>
    have hspec := poll_spec provider x
    rwa [hpoll] at hspec
  | error f y =>
    obtain ⟨fault, rfl, c, hc⟩ := cancelled_of_poll provider hpoll
    exact .cancelled hc

/-- A step of deduction goes on, or the provider gives up, or there is no solution. -/
theorem deduce_concedes (h : Invariant x.state t) {φ : Phase P} (hφ : Poised x.state t φ)
    (hne : φ ≠ .decide) :
    Ensures (deduce (poll provider) φ x) (fun φ' y => ∃ t', Advance provider x t φ y t' φ')
      (Concedes provider x φ) := by
  cases φ with
  | round p =>
    refine (poll_concedes _).bind ?_
    rintro - y ⟨hs, hq⟩
    exact ⟨t, .turn (.round p) hs hq⟩
  | propagate waiting =>
    cases waiting with
    | nil => exact ⟨t, .turn .rest rfl (.refl x)⟩
    | cons p rest => exact ⟨t, .turn (.next p rest) rfl (.refl x)⟩
  | scan ids waiting =>
    cases ids with
    | nil => exact ⟨t, .turn (.done waiting) rfl (.refl x)⟩
    | cons id rest =>
      exact (nextId_spec h (hφ.due id List.mem_cons_self)).mono (fun _ _ h' => h') fun _ => False.elim
  | conflict id changed =>
    refine (poll_concedes _).bind ?_
    rintro - y ⟨hs, hq⟩
    obtain ⟨i, hi, hsat⟩ := hφ.conflict id changed rfl
    have hspec : Ensures (nextConflict id changed y)
        (fun φ z => ∃ t', Advance provider y t (.conflict id changed) z t' φ) _ :=
      nextConflict_spec (hs ▸ h) (hs ▸ hi) hsat
    refine hspec.mono ?_ ?_
    · rintro φ z ⟨t', h'⟩
      exact ⟨t', h'.of_quiet hs hq⟩
    · rintro f ⟨rfl, hterm⟩
      exact .noSolution rfl hi (hs ▸ hterm)
  | learned p id =>
    obtain ⟨i, hi, halmost⟩ := hφ.learned p id rfl
    obtain ⟨u, hu, -, -⟩ := halmost.1
    obtain ⟨solution, hsol⟩ := h.exists_derive hi hu halmost
    obtain ⟨y, hy, hys, hq⟩ := deriveFrom_of_ok hi hu hsol
    rw [deduce, bind_of_ok hy]
    exact ⟨_, .learned hi hu halmost hsol hys hq⟩
  | decide => exact absurd rfl hne

theorem deduce_spec (h : Invariant x.state t) {φ : Phase P} (hφ : Poised x.state t φ)
    (hne : φ ≠ .decide) :
    Ensures (deduce (poll provider) φ x) (fun φ' y => ∃ t', Advance provider x t φ y t' φ')
      (Halts provider x φ) :=
  (deduce_concedes h hφ hne).mono (fun _ _ h' => h') fun _ => Concedes.halts

end deduction

/-! ## Decision -/

section decision

omit [LT π] [DecidableLT π]

theorem firstConflict_spec {s : SolverState P V S M} (h : Invariant s t) {p : P} {v : V} {ids : List Nat}
    (hids : ∀ id ∈ ids, ∃ i, s.store.get? id = some i) :
    ∃ r, s.solution.firstConflict s.store p v ids = .ok r ∧
      ∀ id, r = some id → id ∈ ids ∧ ∃ i, s.store.get? id = some i ∧ i.SatisfiedAt (Allows t) p v := by
  induction ids with
  | nil => exact ⟨none, rfl, by simp⟩
  | cons id rest ih =>
    rw [List.forall_mem_cons] at hids
    obtain ⟨⟨i, hi⟩, hrest⟩ := hids
    have hdescribes : Describes (fun q => if q = p then some (Term.exact v) else s.solution.term? q)
        (fun q x => if q = p then (Term.exact v : Term S).Holds x else Allows t q x) := by
      refine ⟨fun q u hu => ?_, fun q hq x => ?_, fun q => ?_⟩
      · split_ifs at hu ⊢ with hqp
        · cases hu
          exact ⟨Term.isProper_exact v, fun _ => Iff.rfl⟩
        · exact h.describes.known q u hu
      · split_ifs at hq ⊢
        exact h.describes.unknown q hq x
      · split_ifs
        · exact ⟨_, Term.holds_exact_ofVersion v⟩
        · exact h.consistent q
    have hstanding := standing_eq_satisfied_iff hdescribes (h.isContingent hi)
    simp only [PartialSolution.firstConflict, Store.get_eq_ok hi, bind, Except.bind]
    split_ifs with hs
    · refine ⟨some id, rfl, fun id' hid => ?_⟩
      cases hid
      have hsat := hstanding.mp hs
      refine ⟨List.mem_cons_self, i, hi, fun u hu => ?_, fun q u hu hq x hx => ?_⟩
      · exact (Term.contains_iff_holds u v).mpr
          (hsat p u hu _ (by simpa using Term.holds_exact_ofVersion v))
      · exact hsat q u hu x (by simpa [hq] using hx)
    · obtain ⟨r, hr, hsome⟩ := ih hrest
      refine ⟨r, hr, fun id' hid => ?_⟩
      obtain ⟨hmem, hi'⟩ := hsome id' hid
      exact ⟨List.mem_cons_of_mem _ hmem, hi'⟩

theorem exists_decideUnless {s : SolverState P V S M} (h : Invariant s t) {p : P} {versions : S}
    (hp : s.solution.IsPending p versions) {v : V} (hin : VersionSet.contains versions v = true)
    {ids : List Nat} (hids : ∀ id ∈ ids, ∃ i, s.store.get? id = some i) :
    (∃ id ∈ ids, ∃ i, s.store.get? id = some i ∧ i.SatisfiedAt (Allows t) p v ∧
        s.solution.decideUnless s.store p v ids = .ok (s.solution, some id)) ∨
      ∃ solution, s.solution.decide p v = .ok solution ∧
        s.solution.decideUnless s.store p v ids = .ok (solution, none) := by
  obtain ⟨r, hfirst, hsome⟩ := firstConflict_spec h (p := p) (v := v) hids
  have hknown : s.solution.packages.contains p = true :=
    (OrderedMap.contains_iff _).mpr (hp.imp fun _ ha => ha.1)
  cases r with
  | some id =>
    obtain ⟨hid, i, hi, hsat⟩ := hsome id rfl
    refine Or.inl ⟨id, hid, i, hi, hsat, ?_⟩
    simp only [PartialSolution.decideUnless, if_pos hknown, hfirst, bind, Except.bind]
  | none =>
    obtain ⟨solution, hsol⟩ := hp.exists_decide hin
    refine Or.inr ⟨solution, hsol, ?_⟩
    simp only [PartialSolution.decideUnless, if_pos hknown, hfirst, bind, Except.bind, hsol]

omit [LawfulVersionSet S V] in
theorem decideUnless_of_ok {p : P} {v : V} {ids : List Nat} {refused : Option Nat}
    {solution : PartialSolution P V S}
    (h : x.state.solution.decideUnless x.state.store p v ids = .ok (solution, refused)) :
    ∃ y b, (decideUnless p v ids : Solving σ P V S M π E Bool) x = .ok b y ∧
      y.state = { x.state with solution } ∧ x.Quiet y := by
  have hok : (decideUnless p v ids : Solving σ P V S M π E Bool) x =
      .ok refused.isNone (({ x with state := { x.state with solution } } : Session σ P V S M π E).after
        (.noted (refused.elim (.decided p v solution.level) (.refused p v)))) := by
    unfold decideUnless
    rw [bind_of_ok (state_eq x)]
    dsimp only
    rw [h]
    cases refused <;> rfl
  exact ⟨_, _, hok, rfl, x.quiet_update _ rfl⟩

theorem tryVersion_spec (h : Invariant x.state t) (hproper : provider.AnswersProper) {p : P}
    {versions : S} {v : V} (hp : x.state.solution.IsPending p versions)
    (hin : VersionSet.contains versions v = true)
    (hc : ∃ c, (provider.chooseVersion p versions c).1 = .ok (some v))
    (hs : y.state = x.state)
    (hv : y.visited = x.visit p v) (ha : y.answers = x.answers ++ [.chose p versions (.ok (some v))]) :
    Ensures (tryVersion provider p v y)
      (fun _ z => ∃ t', Advance provider x t .decide z t' (.round p)) (Halts provider x .decide) := by
  unfold tryVersion
  refine ((askDependencies_spec provider p v y).mono (fun _ _ h => h) fun f hf => .stopped hf).bind ?_
  rintro answer z ⟨hzs, hzv, hza, hd⟩
  rw [hs] at hzs
  rw [hv] at hzv
  rw [ha, List.append_assoc] at hza
  have hmerged : z.state.MergedValid := hzs ▸ h.merged
  cases answer with
  | unavailable reason =>
    have hq : z.Quiet (z.after (.noted (.unavailable p v reason))) := Session.quiet_after z rfl
    obtain ⟨s', id, hok, hins⟩ := insert_spec (z.after (.noted (.unavailable p v reason))) hmerged
      (i := .unusableVersion p v reason) (.unusable p v reason)
    dsimp only
    rw [bind_of_ok (note_eq _ z), bind_of_ok hok]
    change Inserted z.state s' _ id at hins
    rw [hzs] at hins
    exact ⟨t, .unusable hp hin hc hd hins (hq.visited.trans hzv) (hq.answers.trans hza)⟩
  | available requirements =>
    have hr := hproper p v requirements ⟨versions, hc⟩ hd
    obtain ⟨s', ids, hok, hadds⟩ := insertDependencies_spec p v requirements.entries hr z hmerged
    rw [hzs] at hadds
    have h' : Invariant s' t := h.adds (fun i hi => restates_of_mem_dependencyFacts hr hi) hadds
    have hp' : s'.solution.IsPending p versions := by rwa [hadds.solution]
    have hids : ∀ id ∈ ids, ∃ i, s'.store.get? id = some i := fun id hid => by
      obtain ⟨-, i, -, k, hk, -⟩ := hadds.exists_of_mem hid
      exact ⟨k, hk⟩
    dsimp only
    rw [bind_of_ok hok]
    rcases exists_decideUnless h' hp' hin hids with
      ⟨id, hid, i, hi, hsat, hunless⟩ | ⟨solution, hsol, hunless⟩
    · obtain ⟨w, b, hw, hws, hq⟩ := decideUnless_of_ok (x := { z with state := s' }) hunless
      rw [bind_of_ok hw]
      have hws : w.state = s' := hws
      subst hws
      exact ⟨t, .refused hp hin hc hd hadds hid hi hsat (hq.visited.trans hzv) (hq.answers.trans hza)⟩
    · obtain ⟨w, b, hw, hws, hq⟩ := decideUnless_of_ok (x := { z with state := s' }) hunless
      rw [bind_of_ok hw]
      rw [hadds.solution] at hsol
      exact ⟨_, .decided hp hin hc hd hadds hsol hws (hq.visited.trans hzv) (hq.answers.trans hza)⟩

theorem decidePackage_spec [DecidableEq V] (h : Invariant x.state t) (hproper : provider.AnswersProper) {p : P}
    {versions : S} (hp : x.state.solution.IsPending p versions) :
    Ensures (decidePackage provider p (.positive versions) x)
      (fun _ z => ∃ t', Advance provider x t .decide z t' (.round p)) (Halts provider x .decide) := by
  unfold decidePackage
  rw [bind_of_ok (show (ofExcept (Term.positive versions).positiveVersions :
    Solving σ P V S M π E S) x = .ok versions x from rfl)]
  refine ((askVersion_spec provider p versions x).mono (fun _ _ h => h) fun f hf => .stopped hf).bind ?_
  rintro answer y ⟨hs, hv, ha, hc⟩
  cases answer with
  | none =>
    have hq : y.Quiet (y.after (.noted (.noVersions p versions))) := Session.quiet_after y rfl
    obtain ⟨s', id, hok, hins⟩ := insert_spec (y.after (.noted (.noVersions p versions)))
      (hs ▸ h.merged) (h.restates_missing hp)
    dsimp only
    rw [bind_of_ok (note_eq _ y), bind_of_ok (show (ofExcept (Incompatibility.noVersions p
      (Term.positive versions)) : Solving σ P V S M π E _) _ = .ok (.missing p versions) _ from rfl),
      bind_of_ok hok]
    change Inserted y.state s' _ id at hins
    rw [hs] at hins
    exact ⟨t, .missing hp hc hins (hq.visited.trans hv) (hq.answers.trans ha)⟩
  | some v =>
    dsimp only
    change Ensures ((if VersionSet.contains versions v = true then useVersion provider p v
      else throw (.violation (.choseOutside p v versions))) y) _ _
    cases hin : VersionSet.contains versions v with
    | false => exact .choseOutside hc hin
    | true =>
      rw [if_pos rfl]
      unfold useVersion
      rw [bind_of_ok (get_eq y)]
      by_cases hseen : v ∈ (y.visited.get? p).getD []
      · rw [if_pos hseen]
        obtain ⟨seen, hget, hvs⟩ : ∃ seen, x.visited.get? p = some seen ∧ v ∈ seen := by
          rw [hv] at hseen
          cases hget : x.visited.get? p with
          | none =>
            rw [hget] at hseen
            cases hseen
          | some seen =>
            rw [hget] at hseen
            exact ⟨seen, rfl, hseen⟩
        obtain ⟨solution, hsol⟩ := hp.exists_decide hin
        rw [decide_of_ok (hs.symm ▸ hsol : y.state.solution.decide p v = .ok solution)]
        have hq := y.quiet_update { x.state with solution }
          (e := .noted (.decided p v solution.level)) rfl
        exact ⟨_, .again hp hin hc hget hvs hsol (by rw [← hs]; rfl)
          (hq.visited.trans hv) (hq.answers.trans ha)⟩
      · rw [if_neg hseen]
        refine tryVersion_spec h hproper hp hin hc
          (y := { y with visited := y.visit p v }) hs ?_ ha
        rw [Session.visit, Session.visit, hv]

end decision

omit [VersionSet S V] [LawfulVersionSet S V] [DecidableEq S] [LT π] [DecidableLT π] in
theorem isPending_of_mem {s : PartialSolution P V S} {p : P} (h : p ∈ s.pending.map Prod.fst) :
    ∃ versions, s.IsPending p versions := by
  obtain ⟨⟨q, versions⟩, hmem, rfl⟩ := List.mem_map.mp h
  obtain ⟨⟨q', a⟩, hentry, ha⟩ := List.mem_filterMap.mp hmem
  dsimp only at ha
  split at ha
  · next versions' hnone hderived =>
    cases ha
    exact ⟨_, a, s.packages.get?_eq_some_iff.mpr hentry, hnone, hderived⟩
  · cases ha

/-- A step under the invariant finds the solution, goes on, or breaks off in one of the known ways. -/
theorem step_spec [DecidableEq V] (h : Invariant x.state t) (hφ : Ready x.state t φ)
    (hproper : provider.AnswersProper) :
    Ensures (step provider φ x)
      (fun r y => match r with
        | .inl solution => φ = .decide ∧ x.state.solution.pending = [] ∧
            solution = x.state.solution.solution ∧ y.state = x.state ∧ x.Quiet y
        | .inr φ' => ∃ t', Advance provider x t φ y t' φ')
      (Halts provider x φ) := by
  unfold step
  by_cases hne : φ = .decide
  · subst hne
    rw [if_pos rfl]
    unfold decideNext
    refine ((pickPackage_spec provider x).mono (fun _ _ h => h) fun f hf => .stopped hf).bind ?_
    rintro picked y ⟨hs, hq, hnone, hsome⟩
    cases picked with
    | none =>
      refine ⟨rfl, hnone rfl, ?_, hs, ?_⟩
      · rw [← hs]
      · exact hq.trans (Session.quiet_after y (e := .noted (.solved _)) rfl)
    | some p =>
      obtain ⟨versions, hp⟩ := isPending_of_mem (hsome p rfl)
      have hterm : y.state.solution.term? p = some (.positive versions) := hs ▸ hp.term?_eq
      dsimp only
      rw [bind_of_ok (state_eq y), hterm]
      dsimp only
      have hpackage := decidePackage_spec (x := y) (hs ▸ h) hproper (hs ▸ hp)
      refine (hpackage.mono (fun _ _ h => h) fun f hf => hf.of_state_eq hs).bind ?_
      rintro - z ⟨t', h'⟩
      exact ⟨t', h'.of_quiet_decide hs hq⟩
  · rw [if_neg hne]
    exact (deduce_spec h hφ.toPoised hne).bind fun φ' y h' => h'

end Solving

end DependencyResolution
