import DependencyResolution.Proofs.Solver.Incompatibility
import DependencyResolution.Proofs.Version.Algebra
import DependencyResolution.Solver.Store

/-!
# Resolution, read on selections

A selection gives every package a version or none. Here an incompatibility is read on selections, in
terms of `contains` alone: absence is one more value, which the negative terms admit. The resolvent of
two stored incompatibilities then admits exactly the selections that it should, and where sets with the
same versions are equal, it is silent about the package resolved on exactly when the two terms of the
package leave no value out (`Store.resolvent_exact`).

Without that equality the silence is finer: a union that holds every version need not be `full`.
-/

namespace DependencyResolution

open LawfulVersionSet

/-- Proper sets that hold the same versions are equal. -/
def LawfulVersionSet.SemanticEquality (S V : Type) [VersionSet S V] [LawfulVersionSet S V] : Prop :=
  ∀ s t : S, Proper s → Proper t →
    (∀ v : V, VersionSet.contains s v = VersionSet.contains t v) → s = t

theorem Ranges.semanticEquality {V : Type} [LinearOrder V] [Nonempty V] [DenselyOrdered V] [NoMinOrder V]
    [NoMaxOrder V] : SemanticEquality (Ranges V) V := by
  intro s t hs ht h
  apply (Ranges.Canonical.determinedByVersions hs ht).eq_iff.mpr
  intro v
  exact Bool.eq_iff_iff.mp (h v)

namespace Term

variable {S V : Type} [VersionSet S V] {t u : Term S}

def Admits (t : Term S) : Option V → Prop
  | some v => t.contains v = true
  | .none => t.isPositive = false

variable [LawfulVersionSet S V]

theorem admits_iff_holds (v : Option V) : t.Admits v ↔ t.Holds (Value.ofOption v) := by
  cases v with
  | none => cases t <;> simp [Admits, Value.ofOption, isPositive, Holds]
  | some v => exact contains_iff_holds t v

theorem admits_union (ht : t.IsProper) (hu : u.IsProper) (v : Option V) :
    (t.union u).Admits v ↔ t.Admits v ∨ u.Admits v := by
  simp only [admits_iff_holds, holds_union ht hu]

/-- The test for a term that says nothing compares sets; where sets with the same versions are equal it
finds every such term. -/
theorem isAny_iff_admits [DecidableEq S] (heq : SemanticEquality S V) (ht : t.IsProper) :
    t.isAny = true ↔ ∀ v : Option V, t.Admits v := by
  constructor
  · intro h v
    exact (admits_iff_holds v).mpr ((isAny_iff ht).mp h (Value.ofOption v))
  · intro h
    cases t with
    | positive s => exact absurd (h .none) (by simp [Admits, isPositive])
    | negative s =>
      have hempty : s = VersionSet.empty := by
        apply heq s VersionSet.empty ht proper_empty
        intro v
        have hv : VersionSet.contains s v = false := by simpa [Admits, contains] using h (some v)
        rw [hv, eq_comm, ← Bool.not_eq_true]
        exact (Point.ofVersion v : Point S V).not_in_empty
      subst hempty
      simp [isAny, VersionSet.isEmpty]

end Term

namespace Incompatibility

variable {P V S M : Type} [DecidableEq P] [VersionSet S V] {i j r : Incompatibility P V S M} {p : P}

def Admits (i : Incompatibility P V S M) (selection : P → Option V) : Prop :=
  ∀ p t, i.get? p = some t → t.Admits (selection p)

def AdmitsBeside (i : Incompatibility P V S M) (p : P) (selection : P → Option V) : Prop :=
  ∀ q t, q ≠ p → i.get? q = some t → t.Admits (selection q)

variable {selection : P → Option V}

theorem admits_iff {t : Term S} (ht : i.get? p = some t) :
    i.Admits selection ↔ i.AdmitsBeside p selection ∧ t.Admits (selection p) := by
  constructor
  · intro h
    exact ⟨fun q u _ => h q u, h p t ht⟩
  · rintro ⟨hbeside, hself⟩ q u hu
    by_cases hq : q = p
    · subst hq
      rw [ht, Option.some.injEq] at hu
      exact hu ▸ hself
    · exact hbeside q u hq hu

variable [LawfulVersionSet S V]

theorem admits_iff_holdsIn : i.Admits selection ↔ i.HoldsIn (World.ofSelection selection) := by
  simp only [Admits, HoldsIn, Term.admits_iff_holds, World.ofSelection]

variable [DecidableEq S] {t u : Term S}

theorem admits_resolvent {first second : Nat} (hi : i.IsProper) (hj : j.IsProper) (ht : i.get? p = some t)
    (hu : j.get? p = some u) (h : i.resolvent j first second p = .ok r) (selection : P → Option V) :
    r.Admits selection ↔
      (i.AdmitsBeside p selection ∧ j.AdmitsBeside p selection) ∧
        (t.Admits (selection p) ∨ u.Admits (selection p)) := by
  rw [admits_iff_holdsIn, holdsIn_resolvent hi hj h]
  simp only [ht, hu, Option.some.injEq, forall_eq', AdmitsBeside, Term.admits_iff_holds, World.ofSelection]
  constructor
  · rintro ⟨hothers, hself⟩
    exact ⟨⟨fun q s hq => (hothers q hq).1 s, fun q s hq => (hothers q hq).2 s⟩, hself⟩
  · rintro ⟨⟨hi', hj'⟩, hself⟩
    exact ⟨fun q hq => ⟨fun s => hi' q s hq, fun s => hj' q s hq⟩, hself⟩

theorem get?_resolvent_eq_none_iff {first second : Nat} (heq : SemanticEquality S V) (hi : i.IsProper)
    (hj : j.IsProper) (ht : i.get? p = some t) (hu : j.get? p = some u)
    (h : i.resolvent j first second p = .ok r) :
    r.get? p = none ↔ ∀ v : Option V, t.Admits v ∨ u.Admits v := by
  obtain ⟨t', u', ht', hu', -, hget⟩ := get?_resolvent h
  obtain rfl : t = t' := Option.some.inj (ht.symm.trans ht')
  obtain rfl : u = u' := Option.some.inj (hu.symm.trans hu')
  have hany := Term.isAny_iff_admits heq ((hi p t ht).union (hj p u hu))
  simp only [Term.admits_union (hi p t ht) (hj p u hu)] at hany
  rw [hget p, if_pos rfl, ← hany]
  split_ifs with h' <;> simp [h']

end Incompatibility

namespace Store

variable {P V S M : Type} [DecidableEq P] [DecidableEq S] [VersionSet S V] [LawfulVersionSet S V]

/-- The resolvent on a package of two stored incompatibilities that mention it: the selections that
satisfy it satisfy both on the other packages and one of them on the package, so they satisfy one of the
two; and it mentions the package unless every value of it satisfies one of the two terms. -/
theorem resolvent_exact {s : Store P V S M} {first second : Nat} {i j : Incompatibility P V S M} {p : P}
    {t u : Term S} (heq : SemanticEquality S V) (hfirst : s.get? first = some i)
    (hsecond : s.get? second = some j) (ht : i.get? p = some t) (hu : j.get? p = some u)
    (hi : i.IsProper) (hj : j.IsProper) :
    ∃ r, s.resolvent first second p = .ok r ∧ r.cause = .derived first second ∧
      (∀ selection, r.Admits selection ↔
        (i.AdmitsBeside p selection ∧ j.AdmitsBeside p selection) ∧
          (t.Admits (selection p) ∨ u.Admits (selection p))) ∧
      (∀ selection, r.Admits selection → i.Admits selection ∨ j.Admits selection) ∧
      (r.get? p = none ↔ ∀ v : Option V, t.Admits v ∨ u.Admits v) := by
  obtain ⟨r, hr⟩ := Incompatibility.exists_resolvent first second ht hu
  obtain ⟨-, -, -, -, hcause, -⟩ := Incompatibility.get?_resolvent hr
  have hadmits := Incompatibility.admits_resolvent hi hj ht hu hr
  refine ⟨r, ?_, hcause, hadmits, ?_, Incompatibility.get?_resolvent_eq_none_iff heq hi hj ht hu hr⟩
  · simp only [resolvent, get, hfirst, hsecond]
    exact hr
  · intro selection hsel
    obtain ⟨⟨hbi, hbj⟩, hself⟩ := (hadmits selection).mp hsel
    apply hself.imp
    · exact fun h => (Incompatibility.admits_iff ht).mpr ⟨hbi, h⟩
    · exact fun h => (Incompatibility.admits_iff hu).mpr ⟨hbj, h⟩

/-- Over the rationals: the root, `true`, at 1 needs `false` below 2, and `false` has no version below 2. -/
def needless : Store Bool ℚ (Ranges ℚ) String :=
  ⟨#[⟨(OrderedMap.single true (.exact 1)).insert false (.negative (Ranges.below 2)),
        .fact (.dependency true (Ranges.singleton 1) false (Ranges.below 2))⟩,
      ⟨.single false (.positive (Ranges.below 2)), .fact (.noVersions false (Ranges.below 2))⟩], .empty⟩

/-- The two leave no value of `false` out, and what follows is that the root is not at 1. -/
theorem resolvent_exact_needless :
    ∃ r, needless.resolvent 0 1 false = .ok r ∧ r.get? false = none ∧
      ∀ selection, r.Admits selection ↔ selection true = some 1 := by
  have hbelow : LawfulVersionSet.Proper (Ranges.below (2 : ℚ)) := Ranges.canonical_below 2
  have hfirst : needless.get? 0 = some needless.arena[0] := rfl
  have hsecond : needless.get? 1 = some needless.arena[1] := rfl
  obtain ⟨r, hr, -, hadmits, -, hnone⟩ := resolvent_exact (p := false) Ranges.semanticEquality
    hfirst hsecond rfl rfl
    (by
      rintro (_ | _) t ht
      · obtain rfl := Option.some.inj ht
        exact hbelow
      · obtain rfl := Option.some.inj ht
        exact Term.isProper_exact 1)
    (Incompatibility.isProper_single hbelow)
  have hall : ∀ v : Option ℚ, (Term.negative (Ranges.below (2 : ℚ))).Admits v ∨
      (Term.positive (Ranges.below (2 : ℚ))).Admits v := by
    rintro (_ | v)
    · exact Or.inl rfl
    · show Term.contains _ v = true ∨ Term.contains _ v = true
      simp only [Term.contains, Bool.not_eq_true']
      exact (Bool.eq_false_or_eq_true _).symm
  refine ⟨r, hr, hnone.mpr hall, fun selection => ?_⟩
  have hroot : needless.arena[0].get? true = some (.exact 1) := rfl
  have hsilent : needless.arena[1].get? true = none := rfl
  rw [hadmits, and_iff_left (hall _)]
  simp [Incompatibility.AdmitsBeside, hroot, hsilent, Term.admits_iff_holds, Term.holds_exact_ofOption]

end Store

end DependencyResolution
