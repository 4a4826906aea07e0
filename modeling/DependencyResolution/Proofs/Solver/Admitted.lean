import DependencyResolution.Proofs.Solver.Term
import DependencyResolution.Proofs.Version.Algebra
import Mathlib.Data.Set.Basic

/-!
# Terms are sets of versions and absence

What a package may be is a version or absent. Where equality of version sets is that of the versions
they contain (`ExtensionalVersionSet`), a term is nothing but the set of what it admits: its operations
are the Boolean operations on these sets, its tests compare them, and its relation to what is known says
whether all, none or some of what is still allowed is admitted (`Term.admitted_laws`).

Over a discrete order two sets may contain the same versions and differ; what then takes the place of
the versions are the points of the sets (`Term.Holds`).
-/

namespace DependencyResolution

open LawfulVersionSet

/-- Proper sets that contain the same versions are equal. -/
class ExtensionalVersionSet (S : Type u) (V : outParam (Type v)) [VersionSet S V] [LawfulVersionSet S V] :
    Prop where
  ext : ∀ {s t : S}, Proper s → Proper t →
    (∀ v, VersionSet.contains s v = true ↔ VersionSet.contains t v = true) → s = t

instance {V : Type u} [LinearOrder V] [Nonempty V] [DenselyOrdered V] [NoMinOrder V] [NoMaxOrder V] :
    ExtensionalVersionSet (Ranges V) V where
  ext hs ht h := (Ranges.Canonical.determinedByVersions hs ht).eq_iff.mpr h

/-- What relation the negation of a term has to what is known, if that admits something. -/
def Relation.opposite : Relation → Relation
  | satisfied => contradicted
  | contradicted => satisfied
  | inconclusive => inconclusive

namespace Term

variable {S : Type u} {V : Type v} [VersionSet S V]

/-- The versions in the set, or those outside it and absence. -/
def admitted : Term S → Set (Option V)
  | positive s => some '' {v | VersionSet.contains s v = true}
  | negative s => insert Option.none (some '' {v | VersionSet.contains s v = false})

variable [LawfulVersionSet S V] {t u : Term S}

theorem mem_admitted {x : Option V} : x ∈ t.admitted ↔ t.Holds (Value.ofOption x) := by
  cases t <;> cases x <;> simp [admitted, Value.ofOption, Holds, Point.ofVersion]

theorem admitted_negate (t : Term S) : t.negate.admitted = t.admittedᶜ := by
  ext x
  rw [Set.mem_compl_iff, mem_admitted, mem_admitted, holds_negate]

theorem admitted_intersection (ht : t.IsProper) (hu : u.IsProper) :
    (t.intersection u).admitted = t.admitted ∩ u.admitted := by
  ext x
  rw [Set.mem_inter_iff, mem_admitted, mem_admitted, mem_admitted, holds_intersection ht hu]

theorem admitted_union (ht : t.IsProper) (hu : u.IsProper) :
    (t.union u).admitted = t.admitted ∪ u.admitted := by
  rw [Term.union, admitted_negate, admitted_intersection ht.negate hu.negate, admitted_negate,
    admitted_negate, Set.compl_inter, compl_compl, compl_compl]

variable [ExtensionalVersionSet S V]

/-- A positive term does not admit absence and a negative one does, so only terms of one polarity can
admit the same. -/
theorem eq_iff_admitted (ht : t.IsProper) (hu : u.IsProper) : t = u ↔ t.admitted = u.admitted := by
  refine ⟨fun h => h ▸ rfl, fun h => ?_⟩
  have hmem : ∀ x : Option V, t.Holds (Value.ofOption x) ↔ u.Holds (Value.ofOption x) := by
    intro x
    rw [← mem_admitted, h, mem_admitted]
  cases t <;> cases u
  · exact congrArg positive (ExtensionalVersionSet.ext ht hu fun v => hmem (some v))
  · exact absurd ((hmem .none).mpr trivial) id
  · exact absurd ((hmem .none).mp trivial) id
  · exact congrArg negative (ExtensionalVersionSet.ext ht hu fun v => not_iff_not.mp (hmem (some v)))

omit [ExtensionalVersionSet S V] in
theorem admitted_none : (Term.none : Term S).admitted = ∅ := by
  ext x
  simp only [mem_admitted, Set.mem_empty_iff_false, iff_false]
  cases x with
  | none => exact id
  | some v => exact (Point.ofVersion v).not_in_empty

variable [DecidableEq S]

/-! ## Tests -/

theorem isEmpty_iff_admitted (ht : t.IsProper) : t.isEmpty = true ↔ t.admitted = ∅ := by
  have hnone : t.isEmpty = true ↔ t = Term.none := by
    cases t <;> simp [isEmpty, VersionSet.isEmpty, Term.none]
  have hproper : (Term.none : Term S).IsProper := proper_empty
  rw [hnone, eq_iff_admitted ht hproper, admitted_none]

theorem isAny_iff_admitted (ht : t.IsProper) : t.isAny = true ↔ t.admitted = Set.univ := by
  have hnegate : t.isAny = t.negate.isEmpty := by cases t <;> rfl
  rw [hnegate, isEmpty_iff_admitted ht.negate, admitted_negate, Set.compl_empty_iff]

theorem isDisjoint_iff_admitted (ht : t.IsProper) (hu : u.IsProper) :
    t.isDisjoint u = true ↔ t.admitted ∩ u.admitted = ∅ := by
  rw [isDisjoint, isEmpty_iff_admitted (ht.intersection hu), admitted_intersection ht hu]

theorem subsetOf_iff_admitted (ht : t.IsProper) (hu : u.IsProper) :
    t.subsetOf u = true ↔ t.admitted ⊆ u.admitted := by
  rw [subsetOf, decide_eq_true_eq, eq_iff_admitted ht (ht.intersection hu), admitted_intersection ht hu,
    eq_comm, Set.inter_eq_left]

/-! ## Relation -/

theorem relationWith_eq_satisfied_iff (ht : t.IsProper) (hu : u.IsProper) :
    t.relationWith u = .satisfied ↔ u.admitted ⊆ t.admitted := by
  have hboth : t.relationWith u = .satisfied ↔ t.intersection u = u := by
    unfold relationWith
    dsimp only
    split_ifs <;> simp_all
  rw [hboth, eq_iff_admitted (ht.intersection hu) hu, admitted_intersection ht hu, Set.inter_eq_right]

theorem relationWith_eq_contradicted_iff (ht : t.IsProper) (hu : u.IsProper) :
    t.relationWith u = .contradicted ↔ u.admitted.Nonempty ∧ u.admitted ∩ t.admitted = ∅ := by
  have hboth : t.relationWith u = .contradicted ↔
      ¬ t.relationWith u = .satisfied ∧ t.isDisjoint u = true := by
    unfold relationWith isDisjoint
    dsimp only
    split_ifs <;> simp_all
  rw [hboth, relationWith_eq_satisfied_iff ht hu, isDisjoint_iff_admitted ht hu,
    Set.inter_comm]
  refine and_congr_left fun hdisjoint => ?_
  -- what is disjoint from a set is part of it only if it is empty
  rw [Set.nonempty_iff_ne_empty, Ne, not_iff_not]
  constructor
  · exact fun hle => (Set.inter_eq_left.mpr hle).symm.trans hdisjoint
  · exact fun hempty => hempty ▸ Set.empty_subset _

theorem relationWith_negate (ht : t.IsProper) (hu : u.IsProper) (hne : u.admitted.Nonempty) :
    t.negate.relationWith u = (t.relationWith u).opposite := by
  have hsat := relationWith_eq_satisfied_iff ht.negate hu
  have hcon := relationWith_eq_contradicted_iff ht.negate hu
  rw [admitted_negate, Set.subset_compl_iff_disjoint_right, Set.disjoint_iff_inter_eq_empty] at hsat
  rw [admitted_negate, ← Set.sdiff_eq, Set.sdiff_eq_empty, and_iff_right hne] at hcon
  cases hrel : t.relationWith u with
  | satisfied => exact hcon.mpr ((relationWith_eq_satisfied_iff ht hu).mp hrel)
  | contradicted => exact hsat.mpr ((relationWith_eq_contradicted_iff ht hu).mp hrel).2
  | inconclusive =>
    have hnsat : ¬ u.admitted ⊆ t.admitted := by
      rw [← relationWith_eq_satisfied_iff ht hu, hrel]
      exact nofun
    have hncon : ¬ u.admitted ∩ t.admitted = ∅ := by
      intro hempty
      rw [(relationWith_eq_contradicted_iff ht hu).mpr ⟨hne, hempty⟩] at hrel
      cases hrel
    rw [← hcon] at hnsat
    rw [← hsat] at hncon
    cases hneg : t.negate.relationWith u with
    | satisfied => exact absurd hneg hncon
    | contradicted => exact absurd hneg hnsat
    | inconclusive => rfl

/-- A term is the set of what it admits: negation, intersection and union are those of sets, equality and
the tests are statements about sets, and the relation to what is known says whether all of it is
admitted, or none of it though there is something, or neither. -/
theorem admitted_laws (ht : t.IsProper) (hu : u.IsProper) :
    t.negate.admitted = t.admittedᶜ ∧
      (t.intersection u).admitted = t.admitted ∩ u.admitted ∧
      (t.union u).admitted = t.admitted ∪ u.admitted ∧
      (t = u ↔ t.admitted = u.admitted) ∧
      (t.isEmpty = true ↔ t.admitted = ∅) ∧
      (t.isAny = true ↔ t.admitted = Set.univ) ∧
      (t.isDisjoint u = true ↔ t.admitted ∩ u.admitted = ∅) ∧
      (t.subsetOf u = true ↔ t.admitted ⊆ u.admitted) ∧
      (t.relationWith u = .satisfied ↔ u.admitted ⊆ t.admitted) ∧
      (t.relationWith u = .contradicted ↔ u.admitted.Nonempty ∧ u.admitted ∩ t.admitted = ∅) ∧
      (t.relationWith u = .inconclusive ↔
        ¬ u.admitted ⊆ t.admitted ∧ ¬ (u.admitted.Nonempty ∧ u.admitted ∩ t.admitted = ∅)) ∧
      (u.admitted.Nonempty → t.negate.relationWith u = (t.relationWith u).opposite) := by
  have hsat := relationWith_eq_satisfied_iff ht hu
  have hcon := relationWith_eq_contradicted_iff ht hu
  refine ⟨admitted_negate t, admitted_intersection ht hu, admitted_union ht hu, eq_iff_admitted ht hu,
    isEmpty_iff_admitted ht, isAny_iff_admitted ht, isDisjoint_iff_admitted ht hu,
    subsetOf_iff_admitted ht hu, hsat, hcon, ?_, relationWith_negate ht hu⟩
  rw [← hsat, ← hcon]
  cases t.relationWith u <;> simp

/-- Whatever is above the rational 1 is not at 1: the term that says so admits all that is known to be above
1, and its negation nothing of it. -/
theorem admitted_laws_rat :
    ∃ t u : Term (Ranges ℚ), t = negative (.singleton 1) ∧ u = positive (.above 1) ∧
      t.IsProper ∧ u.IsProper ∧ some 2 ∈ u.admitted ∧
      (t.intersection u).admitted = t.admitted ∩ u.admitted ∧
      t.relationWith u = .satisfied ∧ t.negate.relationWith u = .contradicted := by
  have hone : (negative (Ranges.singleton (1 : ℚ))).IsProper := Ranges.canonical_singleton 1
  have habove : (positive (Ranges.above (1 : ℚ))).IsProper := Ranges.canonical_above 1
  obtain ⟨-, hinter, -, -, -, -, -, -, hsat, -, -, hnegate⟩ := admitted_laws hone habove
  have hmem : ∀ v, some v ∈ (positive (Ranges.above (1 : ℚ))).admitted ↔ 1 < v := fun v =>
    mem_admitted.trans (Ranges.contains_above 1 v)
  have htwo : some 2 ∈ (positive (Ranges.above (1 : ℚ))).admitted := (hmem 2).mpr (by norm_num)
  have hall : (negative (Ranges.singleton (1 : ℚ))).relationWith (positive (.above 1)) = .satisfied := by
    refine hsat.mpr ?_
    rintro _ ⟨v, hv, rfl⟩
    have hlt : 1 < v := (hmem v).mp ⟨v, hv, rfl⟩
    exact mem_admitted.mpr fun hv => hlt.ne' ((Ranges.contains_singleton 1 v).mp hv)
  refine ⟨_, _, rfl, rfl, hone, habove, htwo, hinter, hall, ?_⟩
  rw [hnegate ⟨_, htwo⟩, hall]
  rfl

end Term

end DependencyResolution
