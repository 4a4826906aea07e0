import DependencyResolution.Proofs.Solver.Knowledge

/-!
# Facts

An incompatibility whose cause is a fact says in its terms what the fact says (`Restates`), and one that
was derived has contingent terms; that is what the store is made of (`WellFormed`).

Two dependencies that allow the same are joined into the dependency of the versions of both (`Joins`),
which rules out what the two do and takes their place (`Covers`).
-/

namespace DependencyResolution

namespace Incompatibility

variable {P V S M : Type} [DecidableEq P] [DecidableEq S] [VersionSet S V] [LawfulVersionSet S V]
  {i j k : Incompatibility P V S M} {p needed : P} {versions allowed : S}

open LawfulVersionSet

omit [DecidableEq P] [DecidableEq S] [VersionSet S V] [LawfulVersionSet S V] in
/-- There is no version of the package in the set. -/
def missing (p : P) (versions : S) : Incompatibility P V S M :=
  ⟨.single p (.positive versions), .fact (.noVersions p versions)⟩

omit [DecidableEq S] [VersionSet S V] [LawfulVersionSet S V] in
theorem get?_missing (p q : P) (versions : S) :
    (missing p versions : Incompatibility P V S M).get? q =
      if p = q then some (.positive versions) else none := rfl

omit [DecidableEq S] [LawfulVersionSet S V] in
theorem get?_unusableVersion (p q : P) (v : V) (reason : M) :
    (unusableVersion p v reason : Incompatibility P V S M).get? q =
      if p = q then some (.exact v) else none := rfl

/-- The terms of an incompatibility are those of the fact that is its cause. -/
inductive Restates : Incompatibility P V S M → Prop
  | root (p : P) (v : V) : Restates (notRoot p v)
  | noVersions (p : P) (versions : S) (hv : Proper versions) (hx : ∃ x : Point S V, x.In versions) :
      Restates (missing p versions)
  | dependency {i : Incompatibility P V S M} {p needed : P} {versions allowed : S}
      (hv : Proper versions) (hx : ∃ x : Point S V, x.In versions) (ha : Proper allowed)
      (h : ofDependency p versions needed allowed = some i) : Restates i
  | unusable (p : P) (v : V) (reason : M) : Restates (unusableVersion p v reason)

/-- What the store holds: facts, and what was derived from others. -/
inductive WellFormed : Incompatibility P V S M → Prop
  | fact {i : Incompatibility P V S M} (h : i.Restates) : WellFormed i
  | derived {i : Incompatibility P V S M} {first second : Nat} (hc : i.cause = .derived first second)
      (h : i.IsContingent) : WellFormed i

theorem Restates.exists_fact (h : i.Restates) : ∃ f, i.cause = .fact f := by
  cases h with
  | root | noVersions | unusable => exact ⟨_, rfl⟩
  | dependency _ _ _ h => exact ⟨_, cause_ofDependency h⟩

/-! ## Contingency -/

omit [DecidableEq S] in
theorem isContingent_single {u : Term S} {c : Cause P V S M} (h : u.IsContingent) :
    IsContingent ⟨.single p u, c⟩ := by
  intro q w hw
  simp only [get?, OrderedMap.get?_single] at hw
  split_ifs at hw
  cases hw
  exact h

omit [DecidableEq P] [DecidableEq S] in
theorem isContingent_positive (hv : Proper versions) (hx : ∃ x : Point S V, x.In versions) :
    (Term.positive versions).IsContingent :=
  Term.isContingent_of_isPositive hv rfl (hx.elim fun x h => ⟨some x, h⟩)

theorem isContingent_ofDependency (hv : Proper versions) (hx : ∃ x : Point S V, x.In versions)
    (ha : Proper allowed) (h : ofDependency p versions needed allowed = some i) : i.IsContingent := by
  intro q w hw
  by_cases hne : needed = p
  · subst hne
    have hproper := isProper_ofDependency hv ha h q w hw
    rw [get?_ofDependency_self h] at hw
    split_ifs at hw
    cases hw
    refine Term.isContingent_of_isPositive hproper rfl ?_
    unfold ofDependency at h
    dsimp only at h
    rw [if_pos rfl] at h
    split_ifs at h with hempty
    rw [Bool.not_eq_true] at hempty
    exact (Term.isEmpty_eq_false_iff hproper).mp hempty
  · rw [get?_ofDependency hne h] at hw
    split_ifs at hw with hq hq'
    · cases hw
      exact isContingent_positive hv hx
    · cases hw
      have hsome := (Term.isEmpty_eq_false_iff (t := .positive allowed) ha).mp hq'.2
      exact (Term.isContingent_of_isPositive (u := .positive allowed) ha rfl hsome).negate

theorem Restates.isContingent (h : i.Restates) : i.IsContingent := by
  cases h with
  | root p v => exact isContingent_single (Term.isContingent_exact v).negate
  | noVersions p versions hv hx => exact isContingent_single (isContingent_positive hv hx)
  | dependency hv hx ha h => exact isContingent_ofDependency hv hx ha h
  | unusable p v reason => exact isContingent_single (Term.isContingent_exact v)

theorem WellFormed.isContingent (h : i.WellFormed) : i.IsContingent := by
  cases h with
  | fact h => exact h.isContingent
  | derived _ h => exact h

/-! ## Joining dependencies -/

/-- The third incompatibility is the dependency of the versions of the other two. -/
inductive Joins : (i j k : Incompatibility P V S M) → Prop
  | intro {i j k : Incompatibility P V S M} {p needed : P} {v w allowed : S} (hne : needed ≠ p)
      (hv : Proper v) (hw : Proper w) (ha : Proper allowed)
      (hi : ofDependency p v needed allowed = some i) (hj : ofDependency p w needed allowed = some j)
      (hk : ofDependency p (VersionSet.union v w) needed allowed = some k) : Joins i j k

/-- The first incompatibility is the second, or the dependency of more versions. -/
inductive Covers : (k j : Incompatibility P V S M) → Prop
  | refl (i : Incompatibility P V S M) : Covers i i
  | more {j k : Incompatibility P V S M} {p needed : P} {v w allowed : S} (hne : needed ≠ p)
      (hw : Proper w) (hv : Proper v) (hle : ∀ x : Point S V, x.In v → x.In w)
      (hj : ofDependency p v needed allowed = some j) (hk : ofDependency p w needed allowed = some k) :
      Covers k j

theorem WellFormed.exists_ofDependency (h : i.WellFormed) (hd : i.asDependency = some (p, needed)) :
    needed ≠ p ∧ ∃ versions allowed, Proper versions ∧ (∃ x : Point S V, x.In versions) ∧
      Proper allowed ∧ ofDependency p versions needed allowed = some i := by
  obtain ⟨hne, versions, allowed, hc⟩ := asDependency_eq_some_iff.mp hd
  refine ⟨Ne.symm hne, ?_⟩
  cases h with
  | derived hc' _ =>
    rw [hc] at hc'
    cases hc'
  | fact h =>
    cases h with
    | root p v => cases hc
    | noVersions p versions hv hx => cases hc
    | unusable p v reason => cases hc
    | dependency hv hx ha hi =>
      have hc' := cause_ofDependency hi
      rw [hc] at hc'
      cases hc'
      exact ⟨_, _, hv, hx, ha, hi⟩

theorem WellFormed.mergeDependents (hi : i.WellFormed) (hj : j.WellFormed)
    (hdi : i.asDependency = some (p, needed)) (hdj : j.asDependency = some (p, needed)) :
    i.mergeDependents j = .ok none ∨ ∃ k, i.mergeDependents j = .ok (some k) ∧ Joins i j k := by
  obtain ⟨hne, v, a, hv, hx, ha, hiv⟩ := hi.exists_ofDependency hdi
  obtain ⟨-, w, a', hw, -, ha', hjw⟩ := hj.exists_ofDependency hdj
  rcases mergeDependents_spec hne hiv hjw with hnone | ⟨rfl, k, hk, hok⟩
  · exact Or.inl hnone
  · exact Or.inr ⟨k, hok, hne, hv, hw, ha, hiv, hjw, hk⟩

namespace Joins

theorem holdsIn_iff (h : Joins i j k) (w : World P S V) :
    k.HoldsIn w ↔ i.HoldsIn w ∨ j.HoldsIn w := by
  obtain ⟨hne, hv, hw, ha, hi, hj, hk⟩ := h
  rw [holdsIn_ofDependency hv ha hi, holdsIn_ofDependency hw ha hj,
    holdsIn_ofDependency (proper_union hv hw) ha hk, ← or_and_right]
  refine and_congr_left' ?_
  rename_i p needed v v' allowed
  cases w p with
  | none => exact ⟨fun h => Or.inl h, fun h => h.elim id id⟩
  | some x => exact x.in_union hv hw

theorem restates (h : Joins i j k) (hi : i.WellFormed) : k.Restates := by
  obtain ⟨hne, hv, hw, ha, hi', hj, hk⟩ := h
  obtain ⟨-, v', a', -, ⟨x, hx⟩, -, hi''⟩ := hi.exists_ofDependency
    (asDependency_ofDependency hne hi')
  have hc := (cause_ofDependency hi').symm.trans (cause_ofDependency hi'')
  cases hc
  exact .dependency (proper_union hv hw) ⟨x, (x.in_union hv hw).mpr (Or.inl hx)⟩ ha hk

theorem asDependency (h : Joins i j k) (hd : i.asDependency = some (p, needed)) :
    k.asDependency = some (p, needed) := by
  obtain ⟨hne, hv, hw, ha, hi, hj, hk⟩ := h
  obtain ⟨hne', _, _, hc⟩ := asDependency_eq_some_iff.mp hd
  cases (cause_ofDependency hi).symm.trans hc
  exact asDependency_ofDependency hne hk

theorem covers_left (h : Joins i j k) : Covers k i := by
  obtain ⟨hne, hv, hw, ha, hi, hj, hk⟩ := h
  exact .more hne (proper_union hv hw) hv (fun x hx => (x.in_union hv hw).mpr (Or.inl hx)) hi hk

theorem covers_right (h : Joins i j k) : Covers k j := by
  obtain ⟨hne, hv, hw, ha, hi, hj, hk⟩ := h
  exact .more hne (proper_union hv hw) hw (fun x hx => (x.in_union hv hw).mpr (Or.inr hx)) hj hk

end Joins

theorem Covers.trans (h : Covers k j) (h' : Covers j i) : Covers k i := by
  cases h with
  | refl => exact h'
  | more hne hw hv hle hj hk =>
    cases h' with
    | refl => exact .more hne hw hv hle hj hk
    | more hne' hv' hu hle' hi hj' =>
      have hc := (cause_ofDependency hj).symm.trans (cause_ofDependency hj')
      cases hc
      exact .more hne hw hu (fun x hx => hle x (hle' x hx)) hi hk

namespace Covers

theorem asDependency_eq (h : Covers k j) : k.asDependency = j.asDependency := by
  cases h with
  | refl => rfl
  | more hne hw hv hle hj hk =>
    rw [asDependency_ofDependency hne hj, asDependency_ofDependency hne hk]

/-- What covers a fact other than a dependency between two packages is that fact. -/
theorem eq_of_asDependency (h : Covers k j) (hnone : j.asDependency = none) : k = j := by
  cases h with
  | refl => rfl
  | more hne hw hv hle hj hk =>
    rw [asDependency_ofDependency hne hj] at hnone
    cases hnone

theorem mentions (h : Covers k j) {q : P} {u : Term S} (hu : j.get? q = some u) :
    ∃ w, k.get? q = some w := by
  cases h with
  | refl => exact ⟨u, hu⟩
  | more hne hw hv hle hj hk =>
    rw [get?_ofDependency hne hj] at hu
    rw [get?_ofDependency hne hk]
    split_ifs at hu ⊢
    · exact ⟨_, rfl⟩
    · exact ⟨_, rfl⟩

end Covers

end Incompatibility

end DependencyResolution
