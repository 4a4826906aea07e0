import DependencyResolution.Proofs.Solver.Backtrack
import DependencyResolution.Proofs.Solver.Incompatibility

/-!
# What is known

Knowledge is which values of each package are still allowed. A trail allows the values of which the
terms of all assignments of the package hold (`Allows`), and that is what the partial solution keeps
for each package (`Trail.describes`).

With regard to some knowledge the terms of an incompatibility are entailed, excluded or open, and these
words say what its standing is. They need terms that are contingent, so neither hold always nor never:
a package about which nothing is known leaves a contingent term open.
-/

namespace DependencyResolution

variable {P V S M : Type}

/-! ## Contingent terms -/

section contingent

variable [VersionSet S V] [LawfulVersionSet S V]

namespace Term

/-- A term of a proper set that holds of some values and not of others. -/
structure IsContingent (u : Term S) : Prop where
  proper : u.IsProper
  holds : ∃ x : Value S V, u.Holds x
  fails : ∃ x : Value S V, ¬ u.Holds x

variable {u : Term S}

theorem IsContingent.negate (h : u.IsContingent) : u.negate.IsContingent := by
  obtain ⟨x, hx⟩ := h.holds
  obtain ⟨y, hy⟩ := h.fails
  exact ⟨h.proper.negate, ⟨y, (holds_negate u y).mpr hy⟩, ⟨x, fun hc => (holds_negate u x).mp hc hx⟩⟩

theorem isContingent_exact (v : V) : (exact v : Term S).IsContingent :=
  ⟨isProper_exact v, ⟨_, holds_exact_ofVersion v⟩, ⟨_, not_holds_exact_none v⟩⟩

theorem isContingent_of_isPositive (hp : u.IsProper) (hpos : u.isPositive = true)
    (hx : ∃ x : Value S V, u.Holds x) : u.IsContingent :=
  ⟨hp, hx, ⟨_, not_holds_none_of_isPositive hpos⟩⟩

end Term

def Incompatibility.IsContingent [DecidableEq P] (i : Incompatibility P V S M) : Prop :=
  ∀ p u, i.get? p = some u → u.IsContingent

theorem Incompatibility.IsContingent.isProper [DecidableEq P] {i : Incompatibility P V S M}
    (h : i.IsContingent) : i.IsProper :=
  fun p u hu => (h p u hu).proper

end contingent

/-! ## Knowledge -/

/-- The values of each package that are still allowed. -/
abbrev Knowledge (P S V : Type) [VersionSet S V] [LawfulVersionSet S V] := P → Value S V → Prop

section knowledge

variable [VersionSet S V] [LawfulVersionSet S V] {A B : Knowledge P S V} {p q : P} {u : Term S}

def Entails (A : Knowledge P S V) (p : P) (u : Term S) : Prop := ∀ x, A p x → u.Holds x

def Excludes (A : Knowledge P S V) (p : P) (u : Term S) : Prop := ∀ x, A p x → ¬ u.Holds x

def Consistent (A : Knowledge P S V) : Prop := ∀ p, ∃ x, A p x

theorem Entails.mono (h : Entails A p u) (hle : ∀ x, B p x → A p x) : Entails B p u :=
  fun x hx => h x (hle x hx)

theorem Excludes.mono (h : Excludes A p u) (hle : ∀ x, B p x → A p x) : Excludes B p u :=
  fun x hx => h x (hle x hx)

/-- The terms found in a table are what is known. -/
structure Describes (lookup : P → Option (Term S)) (A : Knowledge P S V) : Prop where
  known : ∀ p u, lookup p = some u → u.IsProper ∧ ∀ x, u.Holds x ↔ A p x
  unknown : ∀ p, lookup p = none → ∀ x, A p x
  consistent : Consistent A

namespace Incompatibility

variable [DecidableEq P]

def SatisfiedBy (i : Incompatibility P V S M) (A : Knowledge P S V) : Prop :=
  ∀ p u, i.get? p = some u → Entails A p u

def ContradictedBy (i : Incompatibility P V S M) (A : Knowledge P S V) : Prop :=
  ∃ p u, i.get? p = some u ∧ Excludes A p u

/-- Everything that is allowed satisfies all terms but the one of the package, which is open. -/
def AlmostSatisfiedBy (i : Incompatibility P V S M) (A : Knowledge P S V) (p : P) : Prop :=
  (∃ u, i.get? p = some u ∧ ¬ Entails A p u ∧ ¬ Excludes A p u) ∧
    ∀ q u, i.get? q = some u → q ≠ p → Entails A q u

theorem SatisfiedBy.mono {i : Incompatibility P V S M} (h : i.SatisfiedBy A)
    (hle : ∀ p x, B p x → A p x) : i.SatisfiedBy B :=
  fun p u hu => (h p u hu).mono (hle p)

theorem ContradictedBy.mono {i : Incompatibility P V S M} (h : i.ContradictedBy A)
    (hle : ∀ p x, B p x → A p x) : i.ContradictedBy B := by
  obtain ⟨p, u, hu, hex⟩ := h
  exact ⟨p, u, hu, hex.mono (hle p)⟩

theorem SatisfiedBy.not_contradictedBy {i : Incompatibility P V S M} (h : i.SatisfiedBy A)
    (hA : Consistent A) : ¬ i.ContradictedBy A := by
  rintro ⟨p, u, hu, hex⟩
  obtain ⟨x, hx⟩ := hA p
  exact hex x hx (h p u hu x hx)

theorem AlmostSatisfiedBy.not_contradictedBy {i : Incompatibility P V S M} (h : i.AlmostSatisfiedBy A p)
    (hA : Consistent A) : ¬ i.ContradictedBy A := by
  obtain ⟨⟨u, hu, -, hex⟩, hothers⟩ := h
  rintro ⟨q, w, hw, hex'⟩
  by_cases hq : q = p
  · subst hq
    rw [hu, Option.some.injEq] at hw
    exact hex (hw ▸ hex')
  · obtain ⟨x, hx⟩ := hA q
    exact hex' x hx (hothers q w hw hq x hx)

/-! ## Standing -/

variable [DecidableEq S] {i : Incompatibility P V S M} {lookup : P → Option (Term S)}

omit [DecidableEq P] in
theorem relationIn_eq_satisfied (h : Describes lookup A) (hu : u.IsContingent) :
    relationIn lookup (p, u) = .satisfied ↔ Entails A p u := by
  unfold relationIn
  dsimp only
  cases hp : lookup p with
  | none =>
    simp only [Option.elim_none, reduceCtorEq, false_iff]
    intro hent
    obtain ⟨x, hx⟩ := hu.fails
    exact hx (hent x (h.unknown p hp x))
  | some k =>
    obtain ⟨hk, hiff⟩ := h.known p k hp
    rw [Option.elim_some, Term.relationWith_eq_satisfied hu.proper hk]
    exact forall_congr' fun x => by rw [hiff x]

omit [DecidableEq P] in
theorem relationIn_eq_contradicted (h : Describes lookup A) (hu : u.IsContingent) :
    relationIn lookup (p, u) = .contradicted ↔ Excludes A p u := by
  unfold relationIn
  dsimp only
  cases hp : lookup p with
  | none =>
    simp only [Option.elim_none, reduceCtorEq, false_iff]
    intro hex
    obtain ⟨x, hx⟩ := hu.holds
    exact hex x (h.unknown p hp x) hx
  | some k =>
    obtain ⟨hk, hiff⟩ := h.known p k hp
    obtain ⟨y, hy⟩ := h.consistent p
    rw [Option.elim_some, Term.relationWith_eq_contradicted hu.proper hk ⟨y, (hiff y).mpr hy⟩]
    exact forall_congr' fun x => by rw [hiff x]

omit [DecidableEq P] in
theorem relationIn_eq_inconclusive (h : Describes lookup A) (hu : u.IsContingent) :
    relationIn lookup (p, u) = .inconclusive ↔ ¬ Entails A p u ∧ ¬ Excludes A p u := by
  rw [← relationIn_eq_satisfied h hu, ← relationIn_eq_contradicted h hu]
  cases relationIn lookup (p, u) <;> simp

theorem standing_of_not_contradictedBy (h : Describes lookup A) (hi : i.IsContingent)
    (hnot : ¬ i.ContradictedBy A) :
    ∃ opened : List P, i.standing lookup = standingOfOpen opened ∧ opened.Nodup ∧
      ∀ p, p ∈ opened ↔ ∃ u, i.get? p = some u ∧ ¬ Entails A p u := by
  have hnone : i.terms.entries.find? (fun e => relationIn lookup e = .contradicted) = none := by
    rw [List.find?_eq_none]
    rintro ⟨p, u⟩ he hc
    have hu : i.get? p = some u := i.terms.get?_eq_some_iff.mpr he
    rw [decide_eq_true_eq, relationIn_eq_contradicted h (hi p u hu)] at hc
    exact hnot ⟨p, u, hu, hc⟩
  refine ⟨_, by rw [standing_eq, hnone], ?_, fun p => ?_⟩
  · exact OrderedMap.keys_filter_nodup _ i.terms.nodup
  · simp only [List.mem_map, List.mem_filter, decide_eq_true_eq]
    constructor
    · rintro ⟨⟨k, u⟩, ⟨he, hrel⟩, rfl⟩
      have hu : i.get? k = some u := i.terms.get?_eq_some_iff.mpr he
      exact ⟨u, hu, ((relationIn_eq_inconclusive h (hi k u hu)).mp hrel).1⟩
    · rintro ⟨u, hu, hent⟩
      refine ⟨(p, u), ⟨i.terms.get?_eq_some_iff.mp hu, ?_⟩, rfl⟩
      exact (relationIn_eq_inconclusive h (hi p u hu)).mpr ⟨hent, fun hc => hnot ⟨p, u, hu, hc⟩⟩

theorem standing_of_contradictedBy (h : Describes lookup A) (hi : i.IsContingent)
    (hc : i.ContradictedBy A) :
    ∃ p u, i.standing lookup = .contradicted p ∧ i.get? p = some u ∧ Excludes A p u := by
  obtain ⟨p, u, hu, hex⟩ := hc
  have hsome : (i.terms.entries.find? fun e => relationIn lookup e = .contradicted).isSome := by
    rw [List.find?_isSome]
    refine ⟨(p, u), i.terms.get?_eq_some_iff.mp hu, ?_⟩
    rw [decide_eq_true_eq, relationIn_eq_contradicted h (hi p u hu)]
    exact hex
  obtain ⟨⟨q, w⟩, hfind⟩ := Option.isSome_iff_exists.mp hsome
  have hq : i.get? q = some w := i.terms.get?_eq_some_iff.mpr (List.mem_of_find?_eq_some hfind)
  have hrel : relationIn lookup (q, w) = .contradicted := by simpa using List.find?_some hfind
  refine ⟨q, w, by rw [standing_eq, hfind], hq, ?_⟩
  exact (relationIn_eq_contradicted h (hi q w hq)).mp hrel

theorem standing_eq_contradicted (h : Describes lookup A) (hi : i.IsContingent)
    (hs : i.standing lookup = .contradicted p) : i.ContradictedBy A := by
  by_contra hnot
  obtain ⟨opened, hopened, -, -⟩ := standing_of_not_contradictedBy h hi hnot
  exact standingOfOpen_ne_contradicted p (hopened.symm.trans hs)

theorem not_contradictedBy_of_standing (h : Describes lookup A) (hi : i.IsContingent)
    (hs : ∀ p, i.standing lookup ≠ .contradicted p) : ¬ i.ContradictedBy A := by
  intro hc
  obtain ⟨p, u, hp, -⟩ := standing_of_contradictedBy h hi hc
  exact hs p hp

theorem standing_eq_satisfied_iff (h : Describes lookup A) (hi : i.IsContingent) :
    i.standing lookup = .satisfied ↔ i.SatisfiedBy A := by
  constructor
  · intro hs p u hu
    have hnot := not_contradictedBy_of_standing h hi (by simp [hs])
    obtain ⟨opened, hopened, -, hmem⟩ := standing_of_not_contradictedBy h hi hnot
    have hnil : opened = [] := standingOfOpen_eq_satisfied_iff.mp (hopened.symm.trans hs)
    by_contra hent
    have hp := (hmem p).mpr ⟨u, hu, hent⟩
    rw [hnil] at hp
    cases hp
  · intro hs
    obtain ⟨opened, hopened, -, hmem⟩ :=
      standing_of_not_contradictedBy h hi (hs.not_contradictedBy h.consistent)
    have hnil : opened = [] := by
      rw [List.eq_nil_iff_forall_not_mem]
      intro p hp
      obtain ⟨u, hu, hent⟩ := (hmem p).mp hp
      exact hent (hs p u hu)
    exact hopened.trans (standingOfOpen_eq_satisfied_iff.mpr hnil)

theorem standing_eq_almostSatisfied_iff (h : Describes lookup A) (hi : i.IsContingent) :
    i.standing lookup = .almostSatisfied p ↔ i.AlmostSatisfiedBy A p := by
  constructor
  · intro hs
    have hnot := not_contradictedBy_of_standing h hi (by simp [hs])
    obtain ⟨opened, hopened, -, hmem⟩ := standing_of_not_contradictedBy h hi hnot
    have hsingle : opened = [p] :=
      standingOfOpen_eq_almostSatisfied_iff.mp (hopened.symm.trans hs)
    obtain ⟨u, hu, hent⟩ := (hmem p).mp (by simp [hsingle])
    refine ⟨⟨u, hu, hent, fun hex => hnot ⟨p, u, hu, hex⟩⟩, fun q w hw hq => ?_⟩
    by_contra hent'
    have hq' := (hmem q).mpr ⟨w, hw, hent'⟩
    rw [hsingle, List.mem_singleton] at hq'
    exact hq hq'
  · intro halmost
    have hnot := halmost.not_contradictedBy h.consistent
    obtain ⟨⟨u, hu, hent, hex⟩, hothers⟩ := halmost
    obtain ⟨opened, hopened, hnodup, hmem⟩ := standing_of_not_contradictedBy h hi hnot
    have hsingle : opened = [p] := by
      have honly : ∀ q ∈ opened, q = p := by
        intro q hq
        obtain ⟨w, hw, hent'⟩ := (hmem q).mp hq
        by_contra hne
        exact hent' (hothers q w hw hne)
      have hmemp := (hmem p).mpr ⟨u, hu, hent⟩
      rcases opened with _ | ⟨a, _ | ⟨b, rest⟩⟩
      · cases hmemp
      · rw [honly a (List.mem_singleton_self a)]
      · have ha := honly a (by simp)
        have hb := honly b (by simp)
        simp [ha, hb] at hnodup
    exact hopened.trans (standingOfOpen_eq_almostSatisfied_iff.mpr hsingle)

theorem standing_eq_inconclusive (h : Describes lookup A) (hi : i.IsContingent)
    (hs : i.standing lookup = .inconclusive) :
    ∃ p q u w, p ≠ q ∧ i.get? p = some u ∧ i.get? q = some w ∧ ¬ Entails A p u ∧ ¬ Entails A q w ∧
      ¬ i.ContradictedBy A := by
  have hnot := not_contradictedBy_of_standing h hi (by simp [hs])
  obtain ⟨opened, hopened, hnodup, hmem⟩ := standing_of_not_contradictedBy h hi hnot
  obtain ⟨p, q, rest, rfl⟩ := standingOfOpen_eq_inconclusive_iff.mp (hopened.symm.trans hs)
  obtain ⟨u, hu, hent⟩ := (hmem p).mp (by simp)
  obtain ⟨w, hw, hent'⟩ := (hmem q).mp (by simp)
  have hne : p ≠ q := by
    rintro rfl
    simp at hnodup
  exact ⟨p, q, u, w, hne, hu, hw, hent, hent', hnot⟩

end Incompatibility

end knowledge

/-! ## What a trail allows -/

section trail

variable [VersionSet S V] [LawfulVersionSet S V]

/-- The values of which the terms of all assignments of a package hold. -/
def Allows (t : List (Assignment P V S)) : Knowledge P S V :=
  fun p x => ∀ a ∈ t, a.package = p → a.term.Holds x

theorem Allows.mono {t t' : List (Assignment P V S)} (hle : ∀ a ∈ t, a ∈ t') {p : P} {x : Value S V}
    (h : Allows t' p x) : Allows t p x :=
  fun a ha hp => h a (hle a ha) hp

theorem allows_upTo {t : List (Assignment P V S)} {l : Nat} {p : P} {x : Value S V} (h : Allows t p x) :
    Allows (upTo l t) p x :=
  h.mono fun _ ha => (mem_upTo_iff.mp ha).1

theorem allows_before {t : List (Assignment P V S)} {n : Nat} {p : P} {x : Value S V}
    (h : Allows t p x) : Allows (before n t) p x :=
  h.mono fun _ ha => (mem_before_iff.mp ha).1

theorem allows_append_singleton {t : List (Assignment P V S)} {a : Assignment P V S} {p : P}
    {x : Value S V} :
    Allows (t ++ [a]) p x ↔ Allows t p x ∧ (a.package = p → a.term.Holds x) := by
  constructor
  · intro h
    exact ⟨h.mono fun b hb => List.mem_append_left _ hb,
      fun hp => h a (List.mem_append_right _ (List.mem_singleton_self a)) hp⟩
  · rintro ⟨h, ha⟩ b hb hp
    rcases List.mem_append.mp hb with hb | hb
    · exact h b hb hp
    · rw [List.mem_singleton] at hb
      subst hb
      exact ha hp

def ProperTrail (t : List (Assignment P V S)) : Prop := ∀ a ∈ t, a.term.IsProper

namespace PackageAssignments

theorem Accumulates.isProper {ds : List (Derivation P S)} {u : Term S} (h : Accumulates ds u)
    (hp : ∀ d ∈ ds, d.term.IsProper) : u.IsProper := by
  induction h with
  | first h => exact h ▸ hp _ (List.mem_singleton_self _)
  | next hds h ih =>
    rw [h]
    exact (ih fun d hd => hp d (List.mem_append_left _ hd)).intersection
      (hp _ (List.mem_append_right _ (List.mem_singleton_self _)))

theorem Accumulates.holds_iff {ds : List (Derivation P S)} {u : Term S} (h : Accumulates ds u)
    (hp : ∀ d ∈ ds, d.term.IsProper) (x : Value S V) : u.Holds x ↔ ∀ d ∈ ds, d.term.Holds x := by
  induction h with
  | first h => simp [h]
  | next hds h ih =>
    have hp' := fun d hd => hp d (List.mem_append_left _ hd)
    rw [h, Term.holds_intersection (hds.isProper hp')
      (hp _ (List.mem_append_right _ (List.mem_singleton_self _))), ih hp']
    simp only [List.mem_append, List.mem_singleton]
    constructor
    · rintro ⟨hds', hd⟩ e (he | rfl)
      · exact hds' e he
      · exact hd
    · exact fun h' => ⟨fun e he => h' e (Or.inl he), h' _ (Or.inr rfl)⟩

omit [LawfulVersionSet S V] in
/-- What was derived up to some derivation is what its accumulated term says. -/
theorem Accumulates.take {ds : List (Derivation P S)} {u : Term S} (h : Accumulates ds u) {i : Nat}
    {d : Derivation P S} (hd : ds[i]? = some d) : Accumulates (ds.take (i + 1)) d.accumulated := by
  induction h with
  | first h =>
    obtain ⟨hi, rfl⟩ := List.getElem?_eq_some_iff.mp hd
    have hzero : i = 0 := by simpa using hi
    subst hzero
    exact .first h
  | @next ds t e hds h ih =>
    by_cases hi : i < ds.length
    · rw [List.getElem?_append_left hi] at hd
      rw [List.take_append_of_le_length (by omega)]
      exact ih hd
    · have hlt := (List.getElem?_eq_some_iff.mp hd).1
      have hi' : i = ds.length := by
        rw [List.length_append, List.length_singleton] at hlt
        omega
      subst hi'
      rw [List.getElem?_append_right (le_refl _), Nat.sub_self] at hd
      cases hd
      rw [List.take_of_length_le (by simp)]
      exact .next hds h

end PackageAssignments

namespace PartialSolution

variable [DecidableEq P] {s : PartialSolution P V S} {t : List (Assignment P V S)} {p : P}

namespace Trail

theorem isProper_derivation (h : Trail s t) (hp : ProperTrail t) {a : PackageAssignments P V S}
    (ha : s.packages.get? p = some a) : ∀ d ∈ a.derivations.toList, d.term.IsProper :=
  fun _ hd => hp _ ((h.mem_derivation_iff ha).mp hd).1

theorem isProper_derived (h : Trail s t) (hp : ProperTrail t) {a : PackageAssignments P V S}
    (ha : s.packages.get? p = some a) : a.derived.IsProper :=
  (h.records ha).derived.isProper (h.isProper_derivation hp ha)

theorem holds_derived_iff (h : Trail s t) (hp : ProperTrail t) {a : PackageAssignments P V S}
    (ha : s.packages.get? p = some a) (hnone : a.decision = none) (x : Value S V) :
    a.derived.Holds x ↔ Allows t p x := by
  rw [(h.records ha).derived.holds_iff (h.isProper_derivation hp ha)]
  constructor
  · intro hd b hb hbp
    have hmem := (h.mem_assignments_iff ha).mpr ⟨hb, hbp⟩
    rw [PackageAssignments.assignments, hnone] at hmem
    simp only [Option.toList_none, List.map_nil, List.append_nil, List.mem_map] at hmem
    obtain ⟨d, hd', rfl⟩ := hmem
    exact hd d hd'
  · intro hall d hd
    obtain ⟨hdt, hdp⟩ := (h.mem_derivation_iff ha).mp hd
    exact hall _ hdt hdp

omit [LawfulVersionSet S V] in
theorem mem_decision_iff (h : Trail s t) {a : PackageAssignments P V S}
    (ha : s.packages.get? p = some a) {d : Decision P V S} :
    a.decision = some d ↔ .decision d ∈ t ∧ d.package = p := by
  have hiff := h.mem_assignments_iff ha (b := .decision d)
  rw [PackageAssignments.assignments] at hiff
  simpa [Assignment.package, eq_comm] using hiff

omit [LawfulVersionSet S V] in
theorem decision_term (h : Trail s t) {d : Decision P V S} (hd : .decision d ∈ t) :
    ∃ a, s.packages.get? d.package = some a ∧ a.decision = some d ∧ a.derived.isPositive = true ∧
      a.derived.contains d.version = true ∧ d.term = .exact d.version := by
  cases ha : s.packages.get? d.package with
  | none => exact absurd rfl (h.absent_iff.mp ha _ hd)
  | some a =>
    have hdec := (h.mem_decision_iff ha).mpr ⟨hd, rfl⟩
    obtain ⟨v, hpos, hin, rfl, hterm⟩ := (h.records ha).decided d hdec
    exact ⟨a, rfl, hdec, hpos, hin, hterm⟩

omit [LawfulVersionSet S V] in
theorem eq_of_decision (h : Trail s t) {d e : Decision P V S} (hd : .decision d ∈ t) (he : .decision e ∈ t)
    (hp : d.package = e.package) : d = e := by
  obtain ⟨a, ha, hdec, -⟩ := h.decision_term hd
  rw [hp] at ha
  have he' := (h.mem_decision_iff ha).mpr ⟨he, rfl⟩
  rw [hdec, Option.some.injEq] at he'
  exact he'

theorem holds_exact_iff (h : Trail s t) (hp : ProperTrail t) {d : Decision P V S}
    (hd : .decision d ∈ t) (x : Value S V) :
    (Term.exact d.version : Term S).Holds x ↔ Allows t d.package x := by
  obtain ⟨a, ha, hdec, -, hin, hterm⟩ := h.decision_term hd
  constructor
  · intro hx b hb hbp
    have hmem := (h.mem_assignments_iff ha).mpr ⟨hb, hbp⟩
    rw [PackageAssignments.assignments, hdec] at hmem
    simp only [Option.toList_some, List.map_cons, List.map_nil, List.mem_append, List.mem_map,
      List.mem_singleton] at hmem
    rcases hmem with ⟨e, he, rfl⟩ | rfl
    · have hderived : a.derived.Holds x :=
        (Term.holds_iff_of_holds_exact hx (h.isProper_derived hp ha)).mpr hin
      exact ((h.records ha).derived.holds_iff (h.isProper_derivation hp ha) x).mp hderived e he
    · change d.term.Holds x
      rwa [hterm]
  · intro hall
    have hx := hall _ hd rfl
    change d.term.Holds x at hx
    rwa [hterm] at hx

/-- The term kept for a package is what is allowed of it. -/
theorem holds_term?_iff (h : Trail s t) (hp : ProperTrail t) {u : Term S} (hu : s.term? p = some u) :
    u.IsProper ∧ ∀ x, u.Holds x ↔ Allows t p x := by
  obtain ⟨a, ha, rfl⟩ := Option.map_eq_some_iff.mp hu
  unfold PackageAssignments.term
  cases hdec : a.decision with
  | none => exact ⟨h.isProper_derived hp ha, h.holds_derived_iff hp ha hdec⟩
  | some d =>
    obtain ⟨hd, rfl⟩ := (h.mem_decision_iff ha).mp hdec
    obtain ⟨-, -, -, -, -, hterm⟩ := h.decision_term hd
    dsimp only
    rw [hterm]
    exact ⟨Term.isProper_exact _, h.holds_exact_iff hp hd⟩

omit [LawfulVersionSet S V] in
theorem term?_eq_none_iff (h : Trail s t) : s.term? p = none ↔ ∀ a ∈ t, a.package ≠ p :=
  Option.map_eq_none_iff.trans h.absent_iff

theorem describes (h : Trail s t) (hp : ProperTrail t) (hc : Consistent (Allows t)) :
    Describes s.term? (Allows t) where
  known _ _ hu := h.holds_term?_iff hp hu
  unknown _ hnone _ := fun a ha hap => absurd hap (h.term?_eq_none_iff.mp hnone a ha)
  consistent := hc

end Trail

end PartialSolution

end trail

end DependencyResolution
