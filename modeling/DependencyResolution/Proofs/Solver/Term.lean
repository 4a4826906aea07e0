import DependencyResolution.Proofs.Version.Lawful
import DependencyResolution.Solver.Violation

/-!
# The values that a term admits

A package is absent or at a version; a value says which, with a point in place of a version. A term
holds of a value or does not, and this determines the term (`eq_of_holds`): negation, intersection and
union are the connectives, and the tests of a term are statements about all values.
-/

namespace DependencyResolution

open LawfulVersionSet

/-- What may be the case of a package: it is at a point, or absent. -/
abbrev Value (S : Type u) (V : Type v) [VersionSet S V] [LawfulVersionSet S V] := Option (Point S V)

namespace Value

variable {S : Type u} {V : Type v} [VersionSet S V] [LawfulVersionSet S V]

def ofVersion (v : V) : Value S V := some (Point.ofVersion v)

def ofOption (v : Option V) : Value S V := v.map Point.ofVersion

end Value

namespace Term

variable {S : Type u} {V : Type v} [VersionSet S V] [LawfulVersionSet S V]

def Holds : Term S → Value S V → Prop
  | positive s, some x => x.In s
  | positive _, .none => False
  | negative s, some x => ¬ x.In s
  | negative _, .none => True

def IsProper (t : Term S) : Prop := Proper t.versions

variable {t u known : Term S} {x : Value S V}

theorem isProper_exact (v : V) : (exact v : Term S).IsProper := proper_singleton v

theorem IsProper.negate (h : t.IsProper) : t.negate.IsProper := by
  cases t <;> exact h

theorem IsProper.intersection (ht : t.IsProper) (hu : u.IsProper) : (t.intersection u).IsProper := by
  cases t <;> cases u
  · exact proper_intersection ht hu
  · exact proper_intersection ht (proper_complement hu)
  · exact proper_intersection (proper_complement ht) hu
  · exact proper_union ht hu

theorem IsProper.union (ht : t.IsProper) (hu : u.IsProper) : (t.union u).IsProper :=
  (ht.negate.intersection hu.negate).negate

/-! ## The connectives -/

theorem holds_negate (t : Term S) (x : Value S V) : t.negate.Holds x ↔ ¬ t.Holds x := by
  cases t <;> cases x <;> simp [negate, Holds]

theorem holds_intersection (ht : t.IsProper) (hu : u.IsProper) (x : Value S V) :
    (t.intersection u).Holds x ↔ t.Holds x ∧ u.Holds x := by
  cases x with
  | none => cases t <;> cases u <;> simp [intersection, Holds]
  | some y =>
    rcases t with a | a <;> rcases u with b | b <;> simp only [intersection, Holds]
    · exact y.in_intersection ht hu
    · rw [y.in_intersection (s := a) ht (proper_complement (s := b) hu), y.in_complement (s := b) hu]
    · rw [y.in_intersection (t := b) (proper_complement (s := a) ht) hu, y.in_complement (s := a) ht]
    · rw [y.in_union (s := a) (t := b) ht hu]
      tauto

theorem holds_union (ht : t.IsProper) (hu : u.IsProper) (x : Value S V) :
    (t.union u).Holds x ↔ t.Holds x ∨ u.Holds x := by
  rw [Term.union, holds_negate, holds_intersection ht.negate hu.negate, holds_negate, holds_negate]
  tauto

theorem contains_iff_holds (t : Term S) (v : V) :
    t.contains v = true ↔ t.Holds (Value.ofVersion v) := by
  cases t <;> simp [contains, Holds, Value.ofVersion, Point.ofVersion]

theorem eq_of_holds (ht : t.IsProper) (hu : u.IsProper) (h : ∀ x : Value S V, t.Holds x ↔ u.Holds x) :
    t = u := by
  cases t <;> cases u
  · exact congrArg positive (eq_of_points ht hu fun x => h (some x))
  · exact absurd ((h .none).mpr trivial) id
  · exact absurd ((h .none).mp trivial) id
  · exact congrArg negative (eq_of_points ht hu fun x => not_iff_not.mp (h (some x)))

/-! ## A package at a version -/

theorem holds_exact_ofVersion (v : V) : (exact v : Term S).Holds (Value.ofVersion v) :=
  Point.ofVersion_in_singleton v

theorem holds_positive_ofOption {s : S} {v : Option V} :
    (positive s).Holds (Value.ofOption v) ↔ ∃ w, v = some w ∧ VersionSet.contains s w = true := by
  cases v <;> simp [Value.ofOption, Holds, Point.ofVersion]

theorem holds_exact_ofOption {v : V} {w : Option V} :
    (exact v : Term S).Holds (Value.ofOption w) ↔ w = some v := by
  unfold exact
  rw [holds_positive_ofOption]
  simp [contains_singleton]

theorem not_holds_exact_none (v : V) : ¬ (exact v : Term S).Holds .none := id

theorem holds_iff_of_holds_exact {v : V} (hx : (exact v : Term S).Holds x) (ht : t.IsProper) :
    t.Holds x ↔ t.contains v = true := by
  cases x with
  | none => exact absurd hx id
  | some y =>
    cases t
    · exact y.in_iff_of_in_singleton hx ht
    · simp only [Holds, contains, Bool.not_eq_true', ← Bool.not_eq_true]
      exact not_congr (y.in_iff_of_in_singleton hx ht)

theorem not_holds_none_of_isPositive (h : t.isPositive = true) : ¬ t.Holds (.none : Value S V) := by
  cases t
  · exact id
  · exact absurd h (by simp [isPositive])

/-! ## The tests -/

variable [DecidableEq S]

theorem isEmpty_iff (ht : t.IsProper) : t.isEmpty = true ↔ ∀ x : Value S V, ¬ t.Holds x := by
  cases t with
  | positive s =>
    simp only [isEmpty, VersionSet.isEmpty, decide_eq_true_eq]
    constructor
    · rintro rfl x
      cases x with
      | none => exact id
      | some y => exact y.not_in_empty
    · exact fun h => eq_empty_of_points ht fun x => h (some x)
  | negative s =>
    simp only [isEmpty, Bool.false_eq_true, false_iff]
    exact fun h => h .none trivial

theorem isEmpty_eq_false_iff (ht : t.IsProper) :
    t.isEmpty = false ↔ ∃ x : Value S V, t.Holds x := by
  rw [← Bool.not_eq_true, isEmpty_iff ht]
  push Not
  rfl

theorem isAny_iff (ht : t.IsProper) : t.isAny = true ↔ ∀ x : Value S V, t.Holds x := by
  have h : t.isAny = t.negate.isEmpty := by cases t <;> rfl
  rw [h, isEmpty_iff ht.negate]
  simp only [holds_negate, not_not]

theorem isDisjoint_iff (ht : t.IsProper) (hu : u.IsProper) :
    t.isDisjoint u = true ↔ ∀ x : Value S V, t.Holds x → ¬ u.Holds x := by
  rw [isDisjoint, isEmpty_iff (ht.intersection hu)]
  simp only [holds_intersection ht hu, not_and]

theorem relationWith_eq_satisfied (ht : t.IsProper) (hk : known.IsProper) :
    t.relationWith known = .satisfied ↔ ∀ x : Value S V, known.Holds x → t.Holds x := by
  have hboth : t.relationWith known = .satisfied ↔ t.intersection known = known := by
    unfold relationWith
    dsimp only
    split_ifs <;> simp_all
  rw [hboth]
  constructor
  · intro h x hx
    rw [← h, holds_intersection ht hk] at hx
    exact hx.1
  · intro h
    refine eq_of_holds (ht.intersection hk) hk fun x => ?_
    rw [holds_intersection ht hk]
    exact ⟨And.right, fun hx => ⟨h x hx, hx⟩⟩

/-- Where something is allowed, a term is contradicted when nothing that is allowed satisfies it. -/
theorem relationWith_eq_contradicted (ht : t.IsProper) (hk : known.IsProper)
    (hne : ∃ x : Value S V, known.Holds x) :
    t.relationWith known = .contradicted ↔ ∀ x : Value S V, known.Holds x → ¬ t.Holds x := by
  obtain ⟨y, hy⟩ := hne
  have hempty : (t.intersection known).isEmpty = true ↔ ∀ x : Value S V, known.Holds x → ¬ t.Holds x := by
    rw [isEmpty_iff (ht.intersection hk)]
    simp only [holds_intersection ht hk, not_and]
    exact ⟨fun h x hk' ht' => h x ht' hk', fun h x ht' hk' => h x hk' ht'⟩
  rw [← hempty]
  by_cases hboth : t.intersection known = known
  · have hnot : (t.intersection known).isEmpty ≠ true := by
      rw [hboth, Ne, isEmpty_iff hk]
      exact fun h => h y hy
    simp [relationWith, hboth] at hnot ⊢
    exact hnot
  · unfold relationWith
    dsimp only
    rw [if_neg hboth]
    split_ifs with h <;> simp [h]

end Term

end DependencyResolution
