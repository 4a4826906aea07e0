import DependencyResolution.Proofs.Solver.Resolution
import DependencyResolution.Proofs.Version.Built

/-!
# Dependencies as incompatibilities

A selection breaks a dependency if it has the package in the versions and not the needed package in those
allowed (`BreaksDependency`). The incompatibility of a dependency admits exactly the selections that break
it, whichever of its three shapes it has: two terms; one, if nothing is allowed; one that both are folded
into, if the package needs itself. Two such incompatibilities merge if they are of one pair of different
packages and allow the same, and the result admits what either admits. Whole families of them can be merged
two at a time in any order and grouping, and it makes no difference (`Incompatibility.dependency_exact`).
-/

namespace DependencyResolution

open LawfulVersionSet

/-- The selection has the package in the versions, and not the needed package in those allowed. -/
def BreaksDependency {P S V : Type} [VersionSet S V] (selection : P → Option V) (package : P) (versions : S)
    (needed : P) (allowed : S) : Prop :=
  (∃ v, selection package = some v ∧ VersionSet.contains versions v = true) ∧
    ¬ ∃ w, selection needed = some w ∧ VersionSet.contains allowed w = true

/-- A way to combine a family two at a time. -/
inductive Grouping (α : Type) where
  | one (a : α)
  | both (first second : Grouping α)

namespace Grouping

def members {α : Type} : Grouping α → List α
  | one a => [a]
  | both g h => g.members ++ h.members

def merge {P S V M : Type} [DecidableEq P] [DecidableEq S] [VersionSet S V] :
    Grouping (Incompatibility P V S M) → Except (Violation P V S) (Option (Incompatibility P V S M))
  | one i => .ok (some i)
  | both g h => do
    match ← g.merge, ← h.merge with
    | some i, some j => i.mergeDependents j
    | _, _ => .ok none

end Grouping

namespace Incompatibility

variable {P S V M : Type} [DecidableEq P] [DecidableEq S] [VersionSet S V]
  {i j : Incompatibility P V S M} {package needed p q d e : P} {versions allowed u v R R' : S}

/-! ## Merging two -/

theorem asDependency_ofDependency_self (h : ofDependency p v p R = some i) : i.asDependency = none := by
  unfold asDependency
  rw [cause_ofDependency h]
  dsimp only
  rw [if_pos rfl]

theorem asDependency_ofDependency_eq (h : ofDependency p v d R = some i) :
    i.asDependency = if p = d then none else some (p, d) := by
  split_ifs with hpd
  · subst hpd
    exact asDependency_ofDependency_self h
  · exact asDependency_ofDependency (Ne.symm hpd) h

theorem mergeDependents_of_asDependency_ne (hi : ofDependency p v d R = some i) (hpd : p ≠ d)
    (hj : j.asDependency ≠ some (p, d)) : i.mergeDependents j = .ok none := by
  unfold mergeDependents
  rw [cause_ofDependency hi, asDependency_ofDependency (Ne.symm hpd) hi]
  dsimp only
  rw [if_neg fun h => hj h.1]

theorem mergeDependents_of_asDependency_none (hi : i.asDependency = none) : i.mergeDependents j = .ok none := by
  unfold mergeDependents
  rw [hi]
  split
  · next h => cases h
  · rfl

/-- Two dependencies merge to that of the versions of both if they are of one pair of different packages and
allow the same, and not otherwise. -/
theorem mergeDependents_ofDependency (hi : ofDependency p u d R = some i) (hj : ofDependency q v e R' = some j) :
    ∃ merged, i.mergeDependents j = .ok merged ∧
      (merged.isSome ↔ p ≠ d ∧ (p, d) = (q, e) ∧ R = R') ∧
      ∀ k ∈ merged, ofDependency p (VersionSet.union u v) d R = some k := by
  by_cases hpd : p = d
  · have hnone : i.asDependency = none := by rw [asDependency_ofDependency_eq hi, if_pos hpd]
    exact ⟨none, mergeDependents_of_asDependency_none hnone, by simp [hpd], by simp⟩
  · by_cases hpair : (p, d) = (q, e)
    · obtain ⟨rfl, rfl⟩ := Prod.mk.inj hpair
      by_cases hR : R = R'
      · subst hR
        obtain ⟨k, hk, hmerge⟩ := mergeDependents_of_eq (Ne.symm hpd) hi hj
        refine ⟨some k, hmerge, by simp [hpd], ?_⟩
        rintro _ ⟨⟩
        exact hk
      · exact ⟨none, mergeDependents_of_ne (Ne.symm hpd) hi hj hR, by simp [hR], by simp⟩
    · refine ⟨none, mergeDependents_of_asDependency_ne hi hpd ?_, by simp [hpair], by simp⟩
      rw [asDependency_ofDependency_eq hj]
      split_ifs with hqe
      · exact nofun
      · exact fun h => hpair (Option.some.inj h).symm

/-! ## What is admitted -/

variable [LawfulVersionSet S V] {selection : P → Option V}

omit [DecidableEq P] [DecidableEq S] [LawfulVersionSet S V] in
theorem breaksDependency_iff_holds [LawfulVersionSet S V] :
    BreaksDependency selection package versions needed allowed ↔
      (Term.positive versions).Holds (World.ofSelection (S := S) selection package) ∧
        ¬ (Term.positive allowed).Holds (World.ofSelection (S := S) selection needed) := by
  unfold BreaksDependency World.ofSelection
  rw [Term.holds_positive_ofOption, Term.holds_positive_ofOption]

theorem admits_ofDependency_iff (hv : Proper versions) (ha : Proper allowed)
    (h : ofDependency package versions needed allowed = some i) :
    i.Admits selection ↔ BreaksDependency selection package versions needed allowed := by
  rw [admits_iff_holdsIn, holdsIn_ofDependency hv ha h, breaksDependency_iff_holds]

theorem not_breaksDependency_of_eq_none (hv : Proper versions) (ha : Proper allowed)
    (h : (ofDependency package versions needed allowed : Option (Incompatibility P V S M)) = none) :
    ¬ BreaksDependency selection package versions needed allowed := by
  obtain ⟨rfl, hle⟩ := holds_of_ofDependency_eq_none hv ha h
  rw [breaksDependency_iff_holds]
  exact fun hbreaks => hbreaks.2 (hle _ hbreaks.1)

omit [DecidableEq P] [DecidableEq S] in
theorem breaksDependency_union_iff (hu : Proper u) (hv : Proper v) :
    BreaksDependency selection package (VersionSet.union u v) needed allowed ↔
      BreaksDependency selection package u needed allowed ∨
        BreaksDependency selection package v needed allowed := by
  unfold BreaksDependency
  simp only [contains_union _ hu hv, Bool.or_eq_true, and_or_left, exists_or, or_and_right]

/-! ## Merging a family -/

/-- The incompatibility is that of a dependency of the package in the set on the other package, of which this is
allowed. -/
def IsDependency (i : Incompatibility P V S M) (p : P) (v : S) (d : P) (R : S) : Prop :=
  Proper v ∧ ofDependency p v d R = some i

theorem IsDependency.versions_eq (hu : i.IsDependency p u d R) (hv : i.IsDependency p v d R) : u = v := by
  have hcause := (cause_ofDependency hu.2).symm.trans (cause_ofDependency hv.2)
  cases hcause
  rfl

/-- Merging a family of dependencies of one package on another that allow the same gives that of the versions of
all. -/
theorem exists_merge_eq (hpd : p ≠ d) (g : Grouping (Incompatibility P V S M))
    (hg : ∀ i ∈ g.members, ∃ v, i.IsDependency p v d R) :
    ∃ k v, g.merge = .ok (some k) ∧ k.IsDependency p v d R ∧
      ∀ x : Point S V, x.In v ↔ ∃ i ∈ g.members, ∃ u, i.IsDependency p u d R ∧ x.In u := by
  induction g with
  | one i =>
    obtain ⟨v, hv⟩ := hg i (List.mem_singleton_self i)
    refine ⟨i, v, rfl, hv, fun x => ?_⟩
    simp only [Grouping.members, List.mem_singleton, exists_eq_left]
    constructor
    · exact fun hx => ⟨v, hv, hx⟩
    · rintro ⟨u, hu, hx⟩
      exact hu.versions_eq hv ▸ hx
  | both g h ihg ihh =>
    simp only [Grouping.members, List.mem_append] at hg ⊢
    obtain ⟨i, u, hi, hu, hinu⟩ := ihg fun i hmem => hg i (Or.inl hmem)
    obtain ⟨j, v, hj, hv, hinv⟩ := ihh fun j hmem => hg j (Or.inr hmem)
    obtain ⟨k, hk, hmerge⟩ := mergeDependents_of_eq (Ne.symm hpd) hu.2 hv.2
    refine ⟨k, VersionSet.union u v, ?_, ⟨proper_union hu.1 hv.1, hk⟩, fun x => ?_⟩
    · rw [Grouping.merge, hi, hj]
      exact hmerge
    · rw [x.in_union hu.1 hv.1, hinu, hinv]
      simp only [or_and_right, exists_or]

/-- The same members merge to the same, however they are grouped and however often they occur. -/
theorem merge_eq_of_members (hpd : p ≠ d) {g h : Grouping (Incompatibility P V S M)}
    (hg : ∀ i ∈ g.members, ∃ v, i.IsDependency p v d R) (hmem : ∀ i, i ∈ h.members ↔ i ∈ g.members) :
    h.merge = g.merge := by
  obtain ⟨i, u, hi, hu, hinu⟩ := exists_merge_eq hpd g hg
  obtain ⟨j, v, hj, hv, hinv⟩ := exists_merge_eq hpd h fun i hi => hg i ((hmem i).mp hi)
  have heq : v = u := eq_of_points hv.1 hu.1 fun x => by simp only [hinv, hinu, hmem]
  subst heq
  obtain rfl : j = i := Option.some.inj (hv.2.symm.trans hu.2)
  rw [hi, hj]

theorem admits_merge_iff (hpd : p ≠ d) (hR : Proper R) {g : Grouping (Incompatibility P V S M)}
    (hg : ∀ i ∈ g.members, ∃ v, i.IsDependency p v d R) {k : Incompatibility P V S M}
    (hk : g.merge = .ok (some k)) : k.Admits selection ↔ ∃ i ∈ g.members, i.Admits selection := by
  obtain ⟨k', v, hk', hv, hin⟩ := exists_merge_eq hpd g hg
  obtain rfl : k' = k := Option.some.inj (Except.ok.inj (hk'.symm.trans hk))
  rw [admits_ofDependency_iff hv.1 hR hv.2]
  constructor
  · rintro ⟨⟨w, hw, hwin⟩, hnot⟩
    obtain ⟨i, hi, u, hu, huin⟩ := (hin (Point.ofVersion w)).mp hwin
    exact ⟨i, hi, (admits_ofDependency_iff hu.1 hR hu.2).mpr ⟨⟨w, hw, huin⟩, hnot⟩⟩
  · rintro ⟨i, hi, hadmits⟩
    obtain ⟨u, hu⟩ := hg i hi
    obtain ⟨⟨w, hw, huin⟩, hnot⟩ := (admits_ofDependency_iff hu.1 hR hu.2).mp hadmits
    exact ⟨⟨w, hw, (hin (Point.ofVersion w)).mpr ⟨i, hi, u, hu, huin⟩⟩, hnot⟩

/-- The incompatibility of a dependency admits the selections that break it, and there is none only if none do. Two
of them merge exactly if they are of one pair of different packages and allow the same, and then the result admits
what either of the two does. A family of those merges to one that admits what any member does, the same for all
orders and groupings. -/
theorem dependency_exact (hu : Proper u) (hR : Proper R) (hv : Proper v) (hR' : Proper R') :
    (match (ofDependency p u d R : Option (Incompatibility P V S M)) with
      | some i => ∀ selection, i.Admits selection ↔ BreaksDependency selection p u d R
      | none => ∀ selection, ¬ BreaksDependency selection p u d R) ∧
      (∀ i j : Incompatibility P V S M, ofDependency p u d R = some i → ofDependency q v e R' = some j →
        ∃ merged, i.mergeDependents j = .ok merged ∧
          (merged.isSome ↔ p ≠ d ∧ (p, d) = (q, e) ∧ R = R') ∧
          ∀ k ∈ merged, ∀ selection, k.Admits selection ↔ i.Admits selection ∨ j.Admits selection) ∧
      (p ≠ d → ∀ g h : Grouping (Incompatibility P V S M),
        (∀ i ∈ g.members, ∃ v, i.IsDependency p v d R) → (∀ i, i ∈ h.members ↔ i ∈ g.members) →
          ∃ k, g.merge = .ok (some k) ∧ h.merge = .ok (some k) ∧
            ∀ selection, k.Admits selection ↔ ∃ i ∈ g.members, i.Admits selection) := by
  refine ⟨?_, fun i j hi hj => ?_, fun hpd g h hg hmem => ?_⟩
  · cases hi : (ofDependency p u d R : Option (Incompatibility P V S M)) with
    | some i => exact fun selection => admits_ofDependency_iff hu hR hi
    | none => exact fun selection => not_breaksDependency_of_eq_none hu hR hi
  · obtain ⟨merged, hmerge, hiff, hk⟩ := mergeDependents_ofDependency hi hj
    refine ⟨merged, hmerge, hiff, fun k hkm selection => ?_⟩
    obtain ⟨-, hpair, rfl⟩ := hiff.mp (Option.isSome_of_mem hkm)
    obtain ⟨rfl, rfl⟩ := Prod.mk.inj hpair
    rw [admits_ofDependency_iff (proper_union hu hv) hR (hk k hkm), breaksDependency_union_iff hu hv,
      admits_ofDependency_iff hu hR hi, admits_ofDependency_iff hv hR hj]
  · obtain ⟨k, -, hk, -⟩ := exists_merge_eq hpd g hg
    exact ⟨k, hk, (merge_eq_of_members hpd hg hmem).trans hk, fun selection => admits_merge_iff hpd hR hg hk⟩

/-- The dependency of `false` in a version on `true` from 2 on. -/
def needsTrueAt (v : ℕ) : Incompatibility Bool ℕ (Ranges ℕ) String :=
  ⟨(OrderedMap.single false (.exact v)).insert true (.negative (.atLeast 2)),
    .fact (.dependency false (.singleton v) true (.atLeast 2))⟩

/-- Those of versions 1, 2 and 4 merge to the same from the left as from the right and in another order: `false` at
one of these versions, and `true` not from 2 on. -/
theorem dependency_exact_needsTrueAt :
    ∃ k, (Grouping.both (.both (.one (needsTrueAt 1)) (.one (needsTrueAt 2))) (.one (needsTrueAt 4))).merge =
        .ok (some k) ∧
      (Grouping.both (.one (needsTrueAt 4)) (.both (.one (needsTrueAt 1)) (.one (needsTrueAt 2)))).merge =
        .ok (some k) ∧
      k.Admits (fun _ => some 1) ∧ ¬ k.Admits (fun _ => some 2) ∧ ¬ k.Admits (fun _ => some 3) := by
  have hallowed : Proper (Ranges.atLeast 2) := Ranges.canonical_atLeast 2
  have hsingle : ∀ v : ℕ, Proper (Ranges.singleton v) := Ranges.canonical_singleton
  have hdep : ∀ v, (needsTrueAt v).IsDependency false (.singleton v) true (.atLeast 2) := fun v => ⟨hsingle v, rfl⟩
  obtain ⟨-, -, hfamily⟩ := dependency_exact (P := Bool) (M := String) (p := false) (d := true) (q := false)
    (e := true) (hsingle 1) hallowed (hsingle 2) hallowed
  obtain ⟨k, hk, hk', hkadmits⟩ := hfamily (by decide)
    (.both (.both (.one (needsTrueAt 1)) (.one (needsTrueAt 2))) (.one (needsTrueAt 4)))
    (.both (.one (needsTrueAt 4)) (.both (.one (needsTrueAt 1)) (.one (needsTrueAt 2))))
    (by simpa [Grouping.members] using ⟨⟨_, hdep 1⟩, ⟨_, hdep 2⟩, ⟨_, hdep 4⟩⟩)
    (by simp [Grouping.members]; tauto)
  have hmember : ∀ v w : ℕ, (needsTrueAt v).Admits (fun _ => some w) ↔ w = v ∧ w < 2 := by
    intro v w
    rw [admits_ofDependency_iff (hsingle v) hallowed (hdep v).2, BreaksDependency]
    simp only [Option.some.injEq, exists_eq_left', ← not_le]
    exact and_congr (Ranges.contains_singleton v w) (not_congr (Ranges.contains_atLeast 2 w))
  have hadmits : ∀ w : ℕ, k.Admits (fun _ => some w) ↔ (w = 1 ∨ w = 2 ∨ w = 4) ∧ w < 2 := by
    intro w
    rw [hkadmits]
    simp only [Grouping.members, List.mem_append, List.mem_singleton, or_assoc, exists_eq_or_imp, exists_eq_left,
      hmember]
    tauto
  refine ⟨k, hk, hk', ?_, ?_, ?_⟩
  · rw [hadmits]
    decide
  · rw [hadmits]
    decide
  · rw [hadmits]
    decide

end Incompatibility

end DependencyResolution
