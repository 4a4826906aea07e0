import DependencyResolution.Proofs.Solver.Derivation

/-!
# Explanations refute

A fact is true of a selection of versions or it is not (`Fact.TrueIn`), and the incompatibility that
restates it rules out the selections of which it is not. So derivations are proofs: a selection that an
incompatibility rules out makes a fact untrue that the incompatibility rests on, and its explanation
refutes the selection (`Explanation.Refutes`). Where a run ends for want of a solution, no selection of
the root at its version makes all facts of the explanation true (`resolveWithin_refutes`).
-/

namespace DependencyResolution

open Incompatibility

variable {σ P V S M π E : Type} [VersionSet S V]

/-- What a fact says is so of the selection. -/
def Fact.TrueIn (selection : P → Option V) : Fact P V S M → Prop
  | .root p v => selection p = some v
  | .noVersions p versions => ∀ v, selection p = some v → VersionSet.contains versions v = false
  | .dependency p versions needed allowed =>
    ∀ v, selection p = some v → VersionSet.contains versions v = true →
      ∃ w, selection needed = some w ∧ VersionSet.contains allowed w = true
  | .unusable p versions _ => ∀ v, selection p = some v → VersionSet.contains versions v = false

/-! ## Refuting a selection -/

namespace Explanation

variable {e : Explanation P V S M} {selection : P → Option V} {place k : Nat} {f : Fact P V S M}

/-- A fact that the node at the place rests on is not true of the selection. -/
inductive Refutes (e : Explanation P V S M) (selection : P → Option V) : Nat → Prop
  | fact {place : Nat} {f : Fact P V S M} (hn : e.nodes[place]? = some (.fact f))
      (hf : ¬ f.TrueIn selection) : Refutes e selection place
  | cause {place cause : Nat} (hc : cause ∈ e.causesAt place) (h : Refutes e selection cause) :
      Refutes e selection place

theorem refutes_fact_iff (hn : e.nodes[place]? = some (.fact f)) :
    e.Refutes selection place ↔ ¬ f.TrueIn selection := by
  refine ⟨fun h => ?_, .fact hn⟩
  cases h with
  | fact hn' hf =>
    cases hn.symm.trans hn'
    exact hf
  | cause hc _ =>
    obtain ⟨_, _, _, _, hn', -⟩ := mem_causesAt_iff.mp hc
    cases hn.symm.trans hn'

theorem Refutes.of_restsOn (h : e.RestsOn place k) (hk : e.Refutes selection k) :
    e.Refutes selection place := by
  induction h using Relation.ReflTransGen.head_induction_on with
  | refl => exact hk
  | head hc _ ih => exact .cause hc ih

theorem Refutes.exists_mem_facts (h : e.Refutes selection e.root) : ∃ f ∈ e.facts, ¬ f.TrueIn selection := by
  have hrests : ∀ place, e.Refutes selection place →
      ∃ k f, e.RestsOn place k ∧ e.nodes[k]? = some (.fact f) ∧ ¬ f.TrueIn selection := by
    intro place h
    induction h with
    | fact hn hf => exact ⟨_, _, .refl, hn, hf⟩
    | cause hc _ ih =>
      obtain ⟨k, f, hrests, hf⟩ := ih
      exact ⟨k, f, hrests.head hc, hf⟩
  obtain ⟨k, f, hk, hn, hf⟩ := hrests e.root h
  exact ⟨f, mem_facts hk hn, hf⟩

end Explanation

/-! ## Derivations as proofs -/

variable [DecidableEq P] [DecidableEq S] [LawfulVersionSet S V]

theorem Incompatibility.Restates.holdsIn_iff {i : Incompatibility P V S M} {f : Fact P V S M}
    (h : i.Restates) (hf : i.cause = .fact f) (selection : P → Option V) :
    i.HoldsIn (World.ofSelection selection) ↔ ¬ f.TrueIn selection := by
  cases h with
  | root p v =>
    cases hf
    rw [notRoot, holdsIn_single]
    exact ((Term.holds_negate (.exact v) _).trans (not_congr Term.holds_exact_ofOption))
  | noVersions p versions _ _ =>
    cases hf
    rw [missing, holdsIn_single, World.ofSelection, Term.holds_positive_ofOption]
    simp [Fact.TrueIn]
  | unusable p v reason =>
    cases hf
    rw [unusableVersion, holdsIn_single, World.ofSelection, Term.holds_exact_ofOption]
    simp [Fact.TrueIn, LawfulVersionSet.contains_singleton]
  | dependency hv _ ha hi =>
    rw [cause_ofDependency hi] at hf
    cases hf
    rw [holdsIn_ofDependency hv ha hi, World.ofSelection, World.ofSelection,
      Term.holds_positive_ofOption, Term.holds_positive_ofOption]
    simp only [Fact.TrueIn, not_forall, exists_prop, ← exists_and_right, and_assoc]

theorem Incompatibility.WellFormed.restates {i : Incompatibility P V S M} {f : Fact P V S M}
    (h : i.WellFormed) (hf : i.cause = .fact f) : i.Restates := by
  cases h with
  | fact h => exact h
  | derived hc _ =>
    rw [hc] at hf
    cases hf

/-- The derivation of a stored incompatibility is a proof of it: the causes were stored before, and a
selection that it rules out is ruled out by a fact that it rests on. -/
structure Store.Proves (s : Store P V S M) (id : Nat) (i : Incompatibility P V S M) : Prop where
  causes_lt : ∀ c ∈ s.causesOf id, c < id
  facts : ∀ selection : P → Option V, i.HoldsIn (World.ofSelection selection) →
    ∃ leaf j f, s.RestsOn id leaf ∧ s.get? leaf = some j ∧ j.cause = .fact f ∧
      j.HoldsIn (World.ofSelection selection)

variable {x : Session σ P V S M π E} {root : P} {version : V} {id : Nat} {i : Incompatibility P V S M}

theorem Session.Grounded.proves (h : x.Grounded root version) (hi : x.state.store.get? id = some i) :
    x.state.store.Proves id i where
  causes_lt := h.causes_lt id
  facts _ := h.traced.exists_fact h.wellFormed hi

/-- The explanation of a stored incompatibility refutes the selections that the incompatibility rules
out. -/
theorem Session.Grounded.refutes (h : x.Grounded root version) (hi : x.state.store.get? id = some i)
    {selection : P → Option V} (hs : i.HoldsIn (World.ofSelection selection)) :
    (Explanation.ofStore x.state.store id).Refutes selection (Explanation.ofStore x.state.store id).root := by
  have hlt := h.causes_lt
  obtain ⟨leaf, j, f, hrests, hj, hf, hholds⟩ := (h.proves hi).facts selection hs
  refine .of_restsOn (Explanation.restsOn_idxOf hlt (Store.lt_size hi) hrests) (.fact (f := f) ?_ ?_)
  · rw [Explanation.getElem?_idxOf hlt (Store.lt_size hi)
      (Store.mem_support_of_restsOn hlt (Store.lt_size hi) hrests), hj, Option.map_some, Store.toNode, hf]
  · exact (((h.wellFormed _ _ hj).restates hf).holdsIn_iff hf selection).mp hholds

variable [DecidableEq V] [LT π] [DecidableLT π] {provider : Provider σ P V S M π E}

/-- However far a run has come, everything in its store is proved from facts; and when the run ends for
want of a solution, no selection of the root at its version makes all facts of the explanation true. -/
theorem resolveWithin_refutes (hproper : provider.AnswersProper) (steps : Nat) (client : σ) (root : P)
    (version : V) :
    (∀ id i, (resolveWithin steps provider client root version).2.state.store.get? id = some i →
      (resolveWithin steps provider client root version).2.state.store.Proves id i) ∧
    ∀ id, (resolveWithin steps provider client root version).1 = .error (.noSolution id) →
      ∀ selection : P → Option V, selection root = some version → ¬ ∀ f ∈ (Explanation.ofStore
        (resolveWithin steps provider client root version).2.state.store id).facts, f.TrueIn selection := by
  have hgrounded := resolveWithin_grounded hproper steps client root version
  refine ⟨fun id i hi => hgrounded.proves hi, fun id hid selection hroot hall => ?_⟩
  obtain ⟨i, hi, hterm⟩ := resolveWithin_noSolution hproper hid
  rw [hgrounded.root_eq, hgrounded.version_eq] at hterm
  have hholds : i.HoldsIn (World.ofSelection selection) :=
    holdsIn_of_isTerminal hterm (by rw [World.ofSelection, hroot]; rfl)
  obtain ⟨f, hf, hfalse⟩ := (hgrounded.refutes hi hholds).exists_mem_facts
  exact hfalse (hall f hf)

/-- A run that ends for want of a solution: what both versions of package 1 depend on is missing. -/
theorem resolveWithin_threePackages_refutes :
    (resolveWithin 90 (PackageTable.threePackages (.single 2 (.atLeast 2))).provider () 0 1).1 =
        .error (.noSolution 10) ∧
      ∀ selection : ℕ → Option ℕ, selection 0 = some 1 → ¬ ∀ f ∈ (Explanation.ofStore
        (resolveWithin 90 (PackageTable.threePackages (.single 2 (.atLeast 2))).provider () 0
          1).2.state.store 10).facts, f.TrueIn selection := by
  have hrun : (resolveWithin 90 (PackageTable.threePackages (.single 2 (.atLeast 2))).provider () 0 1).1 =
      .error (.noSolution 10) := by
    rw [(PackageTable.threePackages_ascending _).provider_eq]
    decide +kernel
  have hproper := PackageTable.threePackages_proper (PackageTable.proper_single_atLeast 2 2)
  have hrefutes := resolveWithin_refutes
    (PackageTable.provider_answersProper hproper) 90 () 0 1
  exact ⟨hrun, hrefutes.2 10 hrun⟩

end DependencyResolution
