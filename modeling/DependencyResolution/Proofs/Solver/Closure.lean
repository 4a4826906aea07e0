import DependencyResolution.Proofs.Explanation.Refutation
import DependencyResolution.Proofs.Solver.Provenance
import DependencyResolution.Proofs.Solver.Soundness

/-!
# Solutions select nothing superfluous

What a solution selects is what the root needs, directly or through other selected versions:
`resolveWithin_closure`. Leave out of the solution what the root does not need (`Session.core`). No fact
is untrue of what remains, so nothing that is stored holds in this world. A world in which nothing stored
holds and which differs from the decisions only in packages that are absent obeys the whole trail, one
assignment after the other (`Invariant.allows_of_spares`): a derivation is justified by what came before,
and a package is not decided before it must be selected. So nothing that was decided has been left out.
-/

namespace DependencyResolution

open Incompatibility

variable {σ P V S M π E : Type} [DecidableEq P] [DecidableEq S] [VersionSet S V]

/-! ## What the root needs -/

section needs

/-- The second package is a dependency of the version of the first that is selected. -/
def Session.Needs (x : Session σ P V S M π E) (solution : OrderedMap P V) (p needed : P) : Prop :=
  ∃ v requirements, solution.get? p = some v ∧
    .retrieved p v (.ok (.available requirements)) ∈ x.events ∧ needed ∈ requirements.keys

open Classical in
/-- The solution without what the package does not need. -/
noncomputable def Session.core (x : Session σ P V S M π E) (solution : OrderedMap P V) (root p : P) :
    Option V :=
  if Relation.ReflTransGen (x.Needs solution) root p then solution.get? p else none

variable {x y : Session σ P V S M π E} {solution : OrderedMap P V} {root p : P} {version v : V}
  {f : Fact P V S M}

omit [DecidableEq S] [VersionSet S V] in
theorem Session.core_eq_some_iff : x.core solution root p = some v ↔
    Relation.ReflTransGen (x.Needs solution) root p ∧ solution.get? p = some v := by
  unfold core
  split_ifs with h
  · simp [h]
  · simp [h]

variable [LawfulVersionSet S V]

omit [DecidableEq S] in
theorem Session.Reports.trueIn_core (h : x.Reports root version f)
    (hroot : solution.get? root = some version)
    (hsupports : ∀ p v, solution.get? p = some v → x.Supports solution p v) :
    f.TrueIn (x.core solution root) := by
  cases f with
  | root p v =>
    obtain ⟨rfl, rfl⟩ := h
    exact Session.core_eq_some_iff.mpr ⟨.refl, hroot⟩
  | noVersions p versions =>
    intro v hv
    exact (hsupports p v (Session.core_eq_some_iff.mp hv).2).offered versions h
  | unusable p versions reason =>
    obtain ⟨w, rfl, hunavailable⟩ := h
    intro v hv
    rw [← Bool.not_eq_true, LawfulVersionSet.contains_singleton]
    rintro rfl
    exact (hsupports p v (Session.core_eq_some_iff.mp hv).2).usable reason hunavailable
  | dependency p versions needed allowed =>
    intro v hv hin
    obtain ⟨hneeded, hget⟩ := Session.core_eq_some_iff.mp hv
    obtain ⟨requirements, hretrieved, hreq⟩ := UnionOf.of_contains h hin
    obtain ⟨w, hw, hallowed⟩ := (hsupports p v hget).satisfied requirements hretrieved needed allowed hreq
    have hstep : x.Needs solution p needed :=
      ⟨v, requirements, hget, hretrieved, requirements.mem_keys_iff.mpr ⟨allowed, hreq⟩⟩
    exact ⟨w, Session.core_eq_some_iff.mpr ⟨hneeded.tail hstep, hw⟩, hallowed⟩

theorem Session.Grounded.spares (h : x.Grounded root version) {selection : P → Option V}
    (hfacts : ∀ id i f, x.state.store.get? id = some i → i.cause = .fact f → f.TrueIn selection) :
    x.state.store.Spares (World.ofSelection selection) := by
  intro id i hi hholds
  obtain ⟨leaf, j, f, -, hj, hf, hjholds⟩ := h.traced.exists_fact h.wellFormed hi hholds
  exact (((h.wellFormed leaf j hj).restates hf).holdsIn_iff hf selection).mp hjholds (hfacts leaf j f hj hf)

end needs

/-! ## Obeying the trail -/

section trail

variable [LawfulVersionSet S V] {s : SolverState P V S M} {t : List (Assignment P V S)} {w : World P S V}

theorem Invariant.not_allows_none_before (h : Invariant s t) {d : Decision P V S} (hd : .decision d ∈ t) :
    ¬ Allows (before d.index t) d.package none := by
  intro hall
  obtain ⟨a, ha, hdec, hpos, -⟩ := h.trail.decision_term hd
  refine Term.not_holds_none_of_isPositive hpos ?_
  rw [(h.trail.records ha).derived.holds_iff (h.trail.isProper_derivation h.properTrail ha)]
  intro e he
  obtain ⟨het, hep⟩ := (h.trail.mem_derivation_iff ha).mp he
  exact hall _ (mem_before_iff.mpr ⟨het, h.trail.index_lt_decision ha he hdec⟩) hep

/-- A world in which nothing stored holds, and in which decided packages are absent or at their versions,
obeys all assignments; so none of them is absent. -/
theorem Invariant.allows_of_spares (h : Invariant s t) (hs : s.store.Spares w)
    (hdecided : ∀ d, .decision d ∈ t → w d.package = none ∨ w d.package = Value.ofVersion d.version)
    (p : P) : Allows t p (w p) := by
  suffices hterm : ∀ n, ∀ a ∈ t, a.index = n → a.term.Holds (w a.package) by
    rintro a ha rfl
    exact hterm _ a ha rfl
  -- what came before is obeyed
  intro n
  induction n using Nat.strong_induction_on with
  | _ n ih =>
    rintro a ha rfl
    have hbefore : ∀ q, Allows (before a.index t) q (w q) := by
      rintro q b hb rfl
      obtain ⟨hbt, hlt⟩ := mem_before_iff.mp hb
      exact ih b.index hlt b hbt rfl
    cases a with
    | derivation d =>
      -- otherwise the cause would hold
      by_contra hfalse
      obtain ⟨c, hc, hj⟩ := h.justified d ha
      refine hs _ c hc fun q u hu => ?_
      by_cases hq : q = d.package
      · subst hq
        rw [hj.term, Option.some.injEq] at hu
        exact hu ▸ (Term.holds_negate d.term _).mpr hfalse
      · exact hj.others q u hu hq _ (hbefore q)
    | decision d =>
      obtain ⟨-, -, -, -, -, hterm⟩ := h.trail.decision_term ha
      change d.term.Holds (w d.package)
      rw [hterm]
      rcases hdecided d ha with hnone | hversion
      · have hallows := hbefore d.package
        rw [hnone] at hallows
        exact absurd hallows (h.not_allows_none_before ha)
      · rw [hversion]
        exact Term.holds_exact_ofVersion d.version

end trail

/-! ## Runs -/

section runs

variable [LawfulVersionSet S V] [DecidableEq V] [LT π] [DecidableLT π] {provider : Provider σ P V S M π E}
  {client : σ} {root : P} {version : V} {x y : Session σ P V S M π E} {t : List (Assignment P V S)}
  {solution : OrderedMap P V}

/-- A run that finds a solution does so at a moment when no package waits and all versions are
supported. -/
theorem resolveWithin_solution (hproper : provider.AnswersProper) {steps : Nat}
    (h : resolveWithin steps provider client root version = (.ok solution, x)) :
    ∃ y t, Reached provider client root version y .decide ∧ Invariant y.state t ∧
      y.state.solution.pending = [] ∧ y.state.solution.solution = solution ∧ y.Quiet x ∧
      ∀ p v, solution.get? p = some v → y.Supports solution p v := by
  obtain ⟨y, φ, hy, hends⟩ := resolveWithin_ends_at provider client root version steps
  rw [h] at hends
  cases hends with
  | solved hs =>
    have hcases := hy.cases (I := fun x t φ => Settled x.state t φ ∧ Informed provider x t) hproper
      (fun hx => ⟨.opened _ root version, .opened hx⟩) fun hinv hφ hI hstep =>
        ⟨hstep.settled hinv (hstep.invariant hinv hφ hproper) hproper hI.1, hstep.informed hinv hproper hI.2⟩
    rcases hcases with hfresh | ⟨t, hinv, hφ, hset, hinf⟩
    · have hspec := hfresh.step_spec provider
      rw [hs] at hspec
      obtain ⟨_, ⟨⟩, -⟩ := hspec
    · have hspec := Solving.step_spec hinv hφ hproper
      rw [hs] at hspec
      obtain ⟨rfl, hpending, rfl, -, hquiet⟩ := hspec
      exact ⟨y, t, hy, hinv, hpending, rfl, hquiet, fun p v => hinf.supports hinv hproper hset hpending⟩

/-- Where all selected versions are supported, the root needs everything that is selected. -/
theorem Reached.core_eq (hproper : provider.AnswersProper) {φ : Phase P}
    (h : Reached provider client root version x φ) (hinv : Invariant x.state t)
    (hroot : x.state.solution.solution.get? root = some version)
    (hsupports : ∀ p v, x.state.solution.solution.get? p = some v → x.Supports x.state.solution.solution p v)
    {p : P} {v : V} (hv : x.state.solution.solution.get? p = some v) :
    x.core x.state.solution.solution root p = some v := by
  have hspares : x.state.store.Spares (World.ofSelection (x.core x.state.solution.solution root)) :=
    (h.grounded hproper).spares fun id i f hi hf =>
      ((h.faithful hproper).reported id i f hi hf).trueIn_core hroot hsupports
  have hdecided : ∀ d, .decision d ∈ t →
      World.ofSelection (x.core x.state.solution.solution root) d.package = (none : Value S V) ∨
        World.ofSelection (x.core x.state.solution.solution root) d.package =
          (Value.ofVersion d.version : Value S V) := by
    intro d hd
    obtain ⟨a, ha, hdec, -⟩ := hinv.trail.decision_term hd
    have hget := PartialSolution.get?_solution_eq_some_iff.mpr ⟨a, d, ha, hdec, rfl⟩
    unfold World.ofSelection Session.core
    rw [hget]
    split_ifs
    · exact Or.inr rfl
    · exact Or.inl rfl
  obtain ⟨d, hd, rfl, rfl⟩ := hinv.trail.mem_decision_of_solution hv
  have hallows := hinv.allows_of_spares hspares hdecided d.package
  rw [← hinv.trail.holds_exact_iff hinv.properTrail hd] at hallows
  exact Term.holds_exact_ofOption.mp hallows

omit [DecidableEq S] [VersionSet S V] [LawfulVersionSet S V] [DecidableEq V] [LT π] [DecidableLT π] in
theorem Session.Quiet.needs_iff {p needed : P} (h : x.Quiet y) :
    y.Needs solution p needed ↔ x.Needs solution p needed := by
  unfold Session.Needs
  exact exists₂_congr fun v requirements => and_congr_right' (and_congr_left' (h.mem_events_iff rfl))

/-- What a solution selects is what the root needs: the root itself, and with every package the
dependencies of the version of it that is selected. -/
theorem resolveWithin_closure (hproper : provider.AnswersProper) {steps : Nat}
    (h : resolveWithin steps provider client root version = (.ok solution, x)) (p : P) :
    p ∈ solution.keys ↔ Relation.ReflTransGen (x.Needs solution) root p := by
  obtain ⟨y, t, hy, hinv, hpending, rfl, hquiet, hsupports⟩ := resolveWithin_solution hproper h
  have hroot := hinv.get?_root hpending
  rw [(hy.grounded hproper).root_eq, (hy.grounded hproper).version_eq] at hroot
  have hneeds : x.Needs y.state.solution.solution = y.Needs y.state.solution.solution :=
    funext₂ fun p needed => propext hquiet.needs_iff
  rw [OrderedMap.mem_keys_iff, hneeds]
  constructor
  · rintro ⟨v, hv⟩
    exact (Session.core_eq_some_iff.mp (hy.core_eq hproper hinv hroot hsupports hv)).1
  · intro hneeded
    induction hneeded with
    | refl => exact ⟨version, hroot⟩
    | tail _ hstep _ =>
      obtain ⟨v, requirements, hv, hretrieved, hmem⟩ := hstep
      obtain ⟨allowed, hreq⟩ := requirements.mem_keys_iff.mp hmem
      obtain ⟨w, hw, -⟩ := (hsupports _ v hv).satisfied requirements hretrieved _ allowed hreq
      exact ⟨w, hw⟩

end runs

/-- A run that abandons the higher version of package 1 for the lower one, which does not need package 2:
package 2 is left out. -/
theorem resolveWithin_threePackages_closure : ∃ solution x,
    resolveWithin 60 (PackageTable.threePackages .empty).provider () 0 1 = (.ok solution, x) ∧
      x.visited.get? 1 = some [1, 2] ∧ solution.keys = [0, 1] ∧
      ∀ p, p ∈ solution.keys ↔ Relation.ReflTransGen (x.Needs solution) 0 p := by
  have hproper : (PackageTable.threePackages .empty).Proper :=
    PackageTable.threePackages_proper fun r hr => by cases hr
  have hrun : resolveWithin 60 (PackageTable.threePackages .empty).provider () 0 1 =
      (.ok ((OrderedMap.single 0 1).insert 1 1),
        (resolveWithin 60 (PackageTable.threePackages .empty).provider () 0 1).2) := by
    refine Prod.ext ?_ rfl
    rw [(PackageTable.threePackages_ascending _).provider_eq]
    decide +kernel
  refine ⟨_, _, hrun, ?_, rfl, resolveWithin_closure (PackageTable.provider_answersProper hproper) hrun⟩
  rw [(PackageTable.threePackages_ascending _).provider_eq]
  decide +kernel

end DependencyResolution
