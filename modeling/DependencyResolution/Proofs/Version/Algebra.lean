import DependencyResolution.Proofs.Version.Built
import Mathlib.Algebra.Order.Field.Basic
import Mathlib.Algebra.Order.Field.Rat

/-!
# The algebra of sets of versions

Over any order, the sets that are built satisfy the laws of a Boolean algebra as equations between lists
of intervals (`Ranges.BooleanLaws`). Over an order in which every interval with room between its bounds
holds a version, equality, inclusion and disjointness are those of the versions held: a set that holds
no version has no interval. Over a discrete order they are finer, as the open interval between two
neighbours holds no version and is not `empty`.
-/

namespace DependencyResolution

variable {V : Type u} [LinearOrder V]

namespace Ranges

/-- The laws of a Boolean algebra for three sets, as equations between lists of intervals. -/
structure BooleanLaws (a b c : Ranges V) : Prop where
  complement_complement : a.complement.complement = a
  intersection_comm : a.intersection b = b.intersection a
  union_comm : VersionSet.union a b = VersionSet.union b a
  intersection_assoc : (a.intersection b).intersection c = a.intersection (b.intersection c)
  union_assoc : VersionSet.union (VersionSet.union a b) c = VersionSet.union a (VersionSet.union b c)
  intersection_union :
    a.intersection (VersionSet.union b c) = VersionSet.union (a.intersection b) (a.intersection c)
  union_intersection :
    VersionSet.union a (b.intersection c) = (VersionSet.union a b).intersection (VersionSet.union a c)
  intersection_union_self : a.intersection (VersionSet.union a b) = a
  union_intersection_self : VersionSet.union a (a.intersection b) = a
  complement_intersection : (a.intersection b).complement = VersionSet.union a.complement b.complement
  complement_union : (VersionSet.union a b).complement = a.complement.intersection b.complement
  complement_empty : (empty : Ranges V).complement = full
  complement_full : (full : Ranges V).complement = empty
  intersection_full : a.intersection full = a
  union_empty : VersionSet.union a empty = a
  intersection_empty : a.intersection empty = empty
  union_full : VersionSet.union a full = full
  intersection_complement : a.intersection a.complement = empty
  union_complement : VersionSet.union a a.complement = full

/-- Equality, inclusion and disjointness of two sets are those of the versions that they hold. -/
structure DeterminedByVersions (a b : Ranges V) : Prop where
  eq_iff : a = b ↔ ∀ v, a.contains v = true ↔ b.contains v = true
  subsetOf_iff : VersionSet.subsetOf a b = true ↔ ∀ v, a.contains v = true → b.contains v = true
  isDisjoint_iff : VersionSet.isDisjoint a b = true ↔ ∀ v, ¬ (a.contains v = true ∧ b.contains v = true)

variable {a b c r : Ranges V}

theorem Canonical.booleanLaws (ha : a.Canonical) (hb : b.Canonical) (hc : c.Canonical) :
    BooleanLaws a b c where
  complement_complement := LawfulVersionSet.complement_complement ha
  intersection_comm := LawfulVersionSet.intersection_comm ha hb
  union_comm := LawfulVersionSet.union_comm ha hb
  intersection_assoc := LawfulVersionSet.intersection_assoc ha hb hc
  union_assoc := LawfulVersionSet.union_assoc ha hb hc
  intersection_union := LawfulVersionSet.intersection_union ha hb hc
  union_intersection := LawfulVersionSet.union_intersection ha hb hc
  intersection_union_self := LawfulVersionSet.intersection_union_self ha hb
  union_intersection_self := LawfulVersionSet.union_intersection_self ha hb
  complement_intersection := LawfulVersionSet.complement_intersection ha hb
  complement_union := LawfulVersionSet.complement_union ha hb
  complement_empty := rfl
  complement_full := rfl
  intersection_full := LawfulVersionSet.intersection_full ha
  union_empty := LawfulVersionSet.union_empty ha
  intersection_empty := LawfulVersionSet.intersection_empty ha
  union_full := LawfulVersionSet.union_full ha
  intersection_complement := LawfulVersionSet.intersection_complement ha
  union_complement := LawfulVersionSet.union_complement ha

end Ranges

/-! ## Dense orders without endpoints -/

section dense

/- Without versions at all, `full` and `empty` would hold the same. -/
variable [Nonempty V] [DenselyOrdered V] [NoMinOrder V] [NoMaxOrder V] {a b : Ranges V}

/-- Where there is room between two bounds there is a version. -/
theorem Segment.exists_admits {s : Segment V} (h : s.IsInhabited) : ∃ v, s.Admits v := by
  obtain ⟨_ | ⟨l, i⟩, _ | ⟨u, j⟩⟩ := s
  · obtain ⟨v⟩ := ‹Nonempty V›
    exact ⟨v, by simp [Admits]⟩
  · obtain ⟨v, hv⟩ := exists_lt u
    exact ⟨v, by simp [Admits, hv]⟩
  · obtain ⟨v, hv⟩ := exists_gt l
    exact ⟨v, by simp [Admits, hv]⟩
  · rcases h _ rfl _ rfl with hlt | ⟨heq, hi, hj⟩
    · obtain ⟨v, hlv, hvu⟩ := exists_between hlt
      exact ⟨v, by simp [Admits, hlv, hvu]⟩
    · exact ⟨l, by simp_all [Admits]⟩

namespace Ranges

theorem Canonical.eq_empty_iff (h : a.Canonical) : a = empty ↔ ∀ v, ¬ a.contains v = true := by
  constructor
  · rintro rfl v
    exact Bool.false_ne_true
  · intro hnone
    obtain ⟨_ | ⟨s, rest⟩⟩ := a
    · rfl
    · have hs := Segment.isInhabited_iff.mp (h.inhabited s List.mem_cons_self)
      obtain ⟨v, hv⟩ := Segment.exists_admits hs
      exact absurd (h.contains_iff_admits.mpr ⟨s, List.mem_cons_self, hv⟩) (hnone v)

theorem Canonical.subsetOf_iff (ha : a.Canonical) (hb : b.Canonical) :
    VersionSet.subsetOf a b = true ↔ ∀ v, a.contains v = true → b.contains v = true := by
  have hb' := canonical_complement hb
  have hinside : a.intersection b = a ↔ a.intersection b.complement = empty :=
    LawfulVersionSet.intersection_eq_left_iff ha hb
  rw [VersionSet.subsetOf, decide_eq_true_iff, versionSet_intersection, hinside,
    (canonical_intersection ha hb').eq_empty_iff]
  refine forall_congr' fun v => ?_
  rw [contains_intersection ha hb', contains_complement hb, not_and, not_not]

theorem Canonical.determinedByVersions (ha : a.Canonical) (hb : b.Canonical) : DeterminedByVersions a b where
  eq_iff := by
    constructor
    · rintro rfl v
      exact Iff.rfl
    · intro h
      have hab := (ha.subsetOf_iff hb).mpr fun v => (h v).mp
      have hba := (hb.subsetOf_iff ha).mpr fun v => (h v).mpr
      rw [VersionSet.subsetOf, decide_eq_true_iff, versionSet_intersection] at hab hba
      have hcomm : a.intersection b = b.intersection a := LawfulVersionSet.intersection_comm ha hb
      rw [← hab, hcomm, hba]
  subsetOf_iff := ha.subsetOf_iff hb
  isDisjoint_iff := by
    rw [VersionSet.isDisjoint, decide_eq_true_iff, versionSet_intersection, versionSet_empty,
      (canonical_intersection ha hb).eq_empty_iff]
    simp only [contains_intersection ha hb]

end Ranges

end dense

/-- Sets that are built satisfy the laws of a Boolean algebra, and over a dense order without endpoints
they are determined by the versions that they hold. -/
theorem Ranges.Built.booleanAlgebra {a b c : Ranges V} (ha : a.Built) (hb : b.Built) (hc : c.Built) :
    BooleanLaws a b c ∧
      (Nonempty V → DenselyOrdered V → NoMinOrder V → NoMaxOrder V → DeterminedByVersions a b) :=
  ⟨ha.canonical.booleanLaws hb.canonical hc.canonical,
    fun _ _ _ _ => ha.canonical.determinedByVersions hb.canonical⟩

/-- Over the rationals, one number and its surroundings give everything, and inclusion can be told from
the numbers. -/
theorem Ranges.Built.booleanAlgebra_rat :
    VersionSet.union (Ranges.singleton (1 : ℚ)) (Ranges.singleton 1).complement = Ranges.full ∧
      (Ranges.singleton (1 : ℚ)).complement.complement = Ranges.singleton 1 ∧
      VersionSet.subsetOf (Ranges.singleton (1 : ℚ)) (Ranges.between 1 2) = true := by
  have h := Ranges.Built.booleanAlgebra (Built.singleton (1 : ℚ)) (Built.between 1 2) Built.full
  have hdetermined := h.2 inferInstance inferInstance inferInstance inferInstance
  refine ⟨h.1.union_complement, h.1.complement_complement, hdetermined.subsetOf_iff.mpr fun v hv => ?_⟩
  have hone : v = 1 := (LawfulVersionSet.contains_singleton (S := Ranges ℚ) 1 v).mp hv
  subst hone
  rw [Ranges.between, contains_ofSegments]
  exact ⟨_, List.mem_singleton_self _, by simp [Segment.Admits]⟩

end DependencyResolution
