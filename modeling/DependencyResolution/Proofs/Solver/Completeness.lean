import DependencyResolution.Proofs.PackageTable

/-!
# Failures are complete

Every incompatibility that is ever stored follows from what the provider said, so none of them holds in
a world that agrees with that. An incompatibility that shows that there is no solution holds wherever
the root is selected at its version. So when a run ends with one, and the provider answers from a
catalogue, the catalogue admits no selection: `resolveWithin_complete`.
-/

namespace DependencyResolution

open Incompatibility

variable {σ P V S M π E : Type} [DecidableEq P] [DecidableEq V] [DecidableEq S] [VersionSet S V]
  [LawfulVersionSet S V] [LT π] [DecidableLT π] {provider : Provider σ P V S M π E}

omit [DecidableEq V] [DecidableEq S] in
theorem Incompatibility.holdsIn_of_isTerminal {i : Incompatibility P V S M} {root : P} {version : V}
    (h : i.isTerminal root version = true) {w : World P S V} (hw : w root = Value.ofVersion version) :
    i.HoldsIn w := by
  unfold isTerminal at h
  intro p u hu
  rw [get?, OrderedMap.get?_eq_some_iff] at hu
  split at h
  · next hnil =>
    rw [hnil] at hu
    cases hu
  · next q t hone =>
    rw [hone, List.mem_singleton, Prod.mk.injEq] at hu
    obtain ⟨rfl, rfl⟩ := hu
    simp only [Bool.and_eq_true, decide_eq_true_eq] at h
    obtain ⟨⟨rfl, -⟩, hin⟩ := h
    rw [hw]
    exact (u.contains_iff_holds version).mp hin
  · cases h

/-- A run does not end for want of a solution if nothing that the provider can say refutes a world in
which the root is selected at its version. -/
theorem resolveWithin_ne_noSolution (hproper : provider.AnswersProper) {root : P} {version : V}
    {w : World P S V} (hroot : w root = Value.ofVersion version)
    (hw : ∀ e : Event P V S M π E, e.AnsweredBy provider → ¬ e.Refutes w) (steps : Nat) (client : σ)
    (id : Nat) : (resolveWithin steps provider client root version).1 ≠ .error (.noSolution id) := by
  intro h
  have hstops : ∀ f, Solving.Stops provider f → f ≠ .noSolution id := by
    rintro f hf rfl
    cases hf
  refine resolveWithin_error (Q := fun _ _ => True) (F := fun f => f ≠ .noSolution id) ?_ h rfl
  refine Solving.ensures_run (I := fun x _ _ => (x.state.root = root ∧ x.state.rootVersion = version) ∧
    x.state.store.Spares w) hproper (fun {x} hx => ?_) ?_ (fun _ _ _ _ _ _ => trivial) ?_ hstops
    (by simp) client steps
  · rw [hx.state]
    refine ⟨⟨rfl, rfl⟩, fun n i hi hholds => ?_⟩
    change (SolverState.start root version).store.get? n = some i at hi
    rw [get?_start] at hi
    split_ifs at hi
    cases hi
    have hneg := holdsIn_single.mp hholds
    rw [hroot] at hneg
    exact (Term.holds_negate (.exact version) _).mp hneg (Term.holds_exact_ofVersion version)
  · rintro x y t t' φ φ' hinv - ⟨⟨hr, hv⟩, hs⟩ hstep
    obtain ⟨hr', hv'⟩ := hstep.root_eq
    exact ⟨⟨hr'.trans hr, hv'.trans hv⟩, hstep.not_holdsIn hinv hs hw⟩
  · rintro x t φ f - - ⟨⟨rfl, rfl⟩, hs⟩ hhalts
    cases hhalts with
    | stopped hf => exact hstops f hf
    | noSolution _ hi hterm => exact absurd (holdsIn_of_isTerminal hterm hroot) (hs _ _ hi)
    | choseOutside _ _ => simp

/-- When a provider answers from a catalogue and a run ends for want of a solution, there is none: the
catalogue admits no selection of the root at its version. -/
theorem resolveWithin_complete {catalogue : Catalogue P V S M} (hfrom : provider.AnswersFrom catalogue)
    {steps : Nat} {client : σ} {root : P} {version : V} {id : Nat}
    (h : (resolveWithin steps provider client root version).1 = .error (.noSolution id))
    (selection : P → Option V) : ¬ catalogue.Admits root version selection := by
  intro hadmits
  refine resolveWithin_ne_noSolution hfrom.answersProper (w := World.ofSelection selection) ?_
    (fun e he => hadmits.not_refutes hfrom he) steps client id h
  rw [World.ofSelection, hadmits.root]
  rfl

/-- A run that ends for want of a solution: the second package is needed from version 2 on and has
version 1 only. -/
theorem resolveWithin_twoPackages_one :
    (resolveWithin 24 (PackageTable.twoPackages 1).provider () 0 1).1 = .error (.noSolution 3) ∧
      ∀ selection, ¬ ((PackageTable.twoPackages 1).catalogue (PackageTable.twoPackages_proper 1)).Admits
        0 1 selection := by
  have hrun : (resolveWithin 24 (PackageTable.twoPackages 1).provider () 0 1).1 =
      .error (.noSolution 3) := by
    decide +kernel
  exact ⟨hrun, resolveWithin_complete
    (PackageTable.provider_answersFrom (PackageTable.twoPackages_proper 1)) hrun⟩

end DependencyResolution
