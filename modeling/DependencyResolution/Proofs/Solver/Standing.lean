import DependencyResolution.Proofs.Solver.Resolution
import DependencyResolution.Proofs.Version.Built

/-!
# What a standing says

The standing of an incompatibility is found in one pass over its terms. It says where the pass stopped,
or how many packages it left open: it names the first package whose term excludes all that is known of
the package, and where there is none it tells whether no package, exactly one or several fail, a package
failing where what is known of it is not included in its term (`Incompatibility.standing_classifies`).
So the order of the terms decides which package is named and never the kind of standing. A standing
that names one failing package says what propagation may derive: the negation of the term of that
package holds in all that is still possible.

Inclusion and exclusion are read on all values of a package. Where sets with the same versions are equal
they may as well be read on the versions and absence.
-/

namespace DependencyResolution

open LawfulVersionSet

/-! ## Inclusion and exclusion -/

namespace Term

variable {S V : Type} [VersionSet S V] [LawfulVersionSet S V] {t u : Term S}

def IncludedIn (u t : Term S) : Prop := ∀ x : Value S V, u.Holds x → t.Holds x

def ExcludedBy (u t : Term S) : Prop := ∀ x : Value S V, u.Holds x → ¬ t.Holds x

theorem IncludedIn.admits (h : u.IncludedIn t) {v : Option V} (hv : u.Admits v) : t.Admits v :=
  (admits_iff_holds v).mpr (h _ ((admits_iff_holds v).mp hv))

theorem admits_negate (v : Option V) : t.negate.Admits v ↔ ¬ t.Admits v := by
  rw [admits_iff_holds, holds_negate, admits_iff_holds]

theorem admits_intersection (ht : t.IsProper) (hu : u.IsProper) (v : Option V) :
    (t.intersection u).Admits v ↔ t.Admits v ∧ u.Admits v := by
  simp only [admits_iff_holds, holds_intersection ht hu]

theorem includedIn_iff_excludedBy_negate : u.IncludedIn t ↔ u.ExcludedBy t.negate := by
  unfold IncludedIn ExcludedBy
  simp only [holds_negate, not_not]

/-- Terms that no version and not absence satisfies are those of the empty set, where sets with the same
versions are equal. -/
theorem forall_not_holds_iff_admits (heq : SemanticEquality S V) (ht : t.IsProper) :
    (∀ x : Value S V, ¬ t.Holds x) ↔ ∀ v : Option V, ¬ t.Admits v := by
  classical
  have hany := isAny_iff_admits heq ht.negate
  rw [isAny_iff ht.negate] at hany
  simpa only [holds_negate, admits_negate] using hany

theorem excludedBy_iff_admits (heq : SemanticEquality S V) (hu : u.IsProper) (ht : t.IsProper) :
    u.ExcludedBy t ↔ ∀ v : Option V, u.Admits v → ¬ t.Admits v := by
  have hboth := forall_not_holds_iff_admits heq (hu.intersection ht)
  simp only [holds_intersection hu ht, admits_intersection hu ht, not_and] at hboth
  exact hboth

theorem includedIn_iff_admits (heq : SemanticEquality S V) (hu : u.IsProper) (ht : t.IsProper) :
    u.IncludedIn t ↔ ∀ v : Option V, u.Admits v → t.Admits v := by
  rw [includedIn_iff_excludedBy_negate, excludedBy_iff_admits heq hu ht.negate]
  simp only [admits_negate, not_not]

end Term

/-- A standing without the package that it names. -/
def Standing.kind {P : Type} : Standing P → Standing Unit
  | satisfied => satisfied
  | contradicted _ => contradicted ()
  | almostSatisfied _ => almostSatisfied ()
  | inconclusive => inconclusive

namespace Incompatibility

variable {P S V M : Type} [DecidableEq P] [VersionSet S V] {i j : Incompatibility P V S M}
  {known : P → Option (Term S)} {p q : P} {t : Term S}

section readings

variable [LawfulVersionSet S V]

def Included (known : P → Option (Term S)) (p : P) (t : Term S) : Prop :=
  ∃ u, known p = some u ∧ u.IncludedIn t

def Excluded (known : P → Option (Term S)) (p : P) (t : Term S) : Prop :=
  ∃ u, known p = some u ∧ u.ExcludedBy t

/-- The packages whose term does not include what is known of them. -/
def failing (i : Incompatibility P V S M) (known : P → Option (Term S)) : Set P :=
  {p | ∃ t, i.get? p = some t ∧ ¬ Included known p t}

/-- The package is the first one whose term excludes what is known of it. -/
def FirstExcluded (i : Incompatibility P V S M) (known : P → Option (Term S)) (q : P) : Prop :=
  ∃ before t after, i.terms.entries = before ++ (q, t) :: after ∧ Excluded known q t ∧
    ∀ e ∈ before, ¬ Excluded known e.1 e.2

end readings

/-! ## The pass over the terms -/

variable [DecidableEq S]

omit [DecidableEq P] in
theorem kind_standingOfOpen_eq {opened opened' : List P} (h : opened.length = opened'.length) :
    (standingOfOpen opened).kind = (standingOfOpen opened').kind := by
  rcases opened with _ | ⟨a, _ | ⟨b, rest⟩⟩ <;> rcases opened' with _ | ⟨a', _ | ⟨b', rest'⟩⟩ <;>
    first
    | rfl
    | simp at h

omit [DecidableEq P] in
theorem kind_standing_eq_of_perm (h : j.terms.entries.Perm i.terms.entries) :
    (j.standing known).kind = (i.standing known).kind := by
  have hnone : (j.terms.entries.find? fun e => relationIn known e = .contradicted) = none ↔
      (i.terms.entries.find? fun e => relationIn known e = .contradicted) = none := by
    simp only [List.find?_eq_none, h.mem_iff]
  rw [standing_eq, standing_eq]
  cases hj : j.terms.entries.find? fun e => relationIn known e = .contradicted with
  | none =>
    rw [hnone.mp hj]
    exact kind_standingOfOpen_eq ((h.filter _).map _).length_eq
  | some e =>
    cases hi : i.terms.entries.find? fun e => relationIn known e = .contradicted with
    | none => rw [hnone.mpr hi] at hj; cases hj
    | some e' => rfl

variable [LawfulVersionSet S V]

/-- What is known of packages is proper and leaves something possible. -/
def Informative (known : P → Option (Term S)) : Prop := ∀ p u, known p = some u → u.IsProper ∧ u ≠ Term.none

omit [DecidableEq P] in
theorem Informative.exists_holds (h : Informative known) {u : Term S} (hu : known p = some u) :
    ∃ x : Value S V, u.Holds x := by
  obtain ⟨hproper, hne⟩ := h p u hu
  apply (Term.isEmpty_eq_false_iff hproper).mp
  cases u with
  | positive s =>
    have hs : s ≠ VersionSet.empty := fun hs => hne (congrArg Term.positive hs)
    exact decide_eq_false hs
  | negative s => rfl

omit [DecidableEq P] in
theorem relationIn_eq_satisfied_iff_included (h : Informative known) (ht : t.IsProper) :
    relationIn known (p, t) = .satisfied ↔ Included known p t := by
  unfold relationIn Included
  cases hu : known p with
  | none => simp
  | some u =>
    simp only [Option.elim_some, Option.some.injEq, exists_eq_left']
    exact Term.relationWith_eq_satisfied ht (h p u hu).1

omit [DecidableEq P] in
theorem relationIn_eq_contradicted_iff_excluded (h : Informative known) (ht : t.IsProper) :
    relationIn known (p, t) = .contradicted ↔ Excluded known p t := by
  unfold relationIn Excluded
  cases hu : known p with
  | none => simp
  | some u =>
    simp only [Option.elim_some, Option.some.injEq, exists_eq_left']
    exact Term.relationWith_eq_contradicted ht (h p u hu).1 (h.exists_holds hu)

omit [DecidableEq S] in
theorem isProper_of_mem_entries (hi : i.IsProper) {e : P × Term S} (he : e ∈ i.terms.entries) :
    e.2.IsProper :=
  hi e.1 e.2 (i.terms.get?_eq_some_iff.mpr he)

theorem standing_eq_contradicted_iff_firstExcluded (hi : i.IsProper) (h : Informative known) :
    i.standing known = .contradicted q ↔ i.FirstExcluded known q := by
  have hexcluded : ∀ e ∈ i.terms.entries, relationIn known e = .contradicted ↔ Excluded known e.1 e.2 :=
    fun e he => relationIn_eq_contradicted_iff_excluded h (isProper_of_mem_entries hi he)
  have hfind : i.standing known = .contradicted q ↔ ∃ e : P × Term S, e.1 = q ∧
      (i.terms.entries.find? fun e => relationIn known e = .contradicted) = some e := by
    rw [standing_eq]
    cases i.terms.entries.find? fun e => relationIn known e = .contradicted with
    | none => simp [standingOfOpen_ne_contradicted]
    | some e => simp
  rw [hfind]
  simp only [List.find?_eq_some_iff_append, decide_eq_true_eq, Bool.not_eq_true', decide_eq_false_iff_not]
  constructor
  · rintro ⟨⟨_, t⟩, rfl, hrel, before, after, hentries, hbefore⟩
    refine ⟨before, t, after, hentries, (hexcluded _ (by simp [hentries])).mp hrel, fun e he => ?_⟩
    rw [← hexcluded e (by simp [hentries, he])]
    exact hbefore e he
  · rintro ⟨before, t, after, hentries, hex, hbefore⟩
    refine ⟨(q, t), rfl, (hexcluded _ (by simp [hentries])).mpr hex, before, after, hentries, fun e he => ?_⟩
    rw [hexcluded e (by simp [hentries, he])]
    exact hbefore e he

theorem exists_opened (hi : i.IsProper) (h : Informative known) (hnone : ∀ q, ¬ i.FirstExcluded known q) :
    ∃ opened : List P, opened.Nodup ∧ (∀ p, p ∈ opened ↔ p ∈ i.failing known) ∧
      i.standing known = standingOfOpen opened := by
  have hfind : (i.terms.entries.find? fun e => relationIn known e = .contradicted) = none := by
    cases hfind : i.terms.entries.find? fun e => relationIn known e = .contradicted with
    | none => rfl
    | some e =>
      refine absurd ((standing_eq_contradicted_iff_firstExcluded hi h).mp ?_) (hnone e.1)
      rw [standing_eq, hfind]
  have hopen : ∀ e ∈ i.terms.entries, relationIn known e = .inconclusive ↔ ¬ Included known e.1 e.2 := by
    intro e he
    have hnot : relationIn known e ≠ .contradicted := by simpa using List.find?_eq_none.mp hfind e he
    rw [← relationIn_eq_satisfied_iff_included h (isProper_of_mem_entries hi he)]
    cases hrel : relationIn known e <;> simp_all
  refine ⟨(i.terms.entries.filter fun e => relationIn known e = .inconclusive).map Prod.fst,
    OrderedMap.keys_filter_nodup _ i.terms.nodup, fun p => ?_, by rw [standing_eq, hfind]⟩
  simp only [List.mem_map, List.mem_filter, decide_eq_true_eq, failing, Set.mem_ofPred_eq]
  constructor
  · rintro ⟨e, ⟨he, hrel⟩, rfl⟩
    exact ⟨e.2, i.terms.get?_eq_some_iff.mpr he, (hopen e he).mp hrel⟩
  · rintro ⟨t, ht, hfails⟩
    have he := i.terms.get?_eq_some_iff.mp ht
    exact ⟨(p, t), ⟨he, (hopen _ he).mpr hfails⟩, rfl⟩

section opened

variable {opened : List P} {failing : Set P} (hnodup : opened.Nodup) (hmem : ∀ p, p ∈ opened ↔ p ∈ failing)

include hmem

omit [DecidableEq P] in
theorem standingOfOpen_eq_satisfied_iff_eq_empty : standingOfOpen opened = .satisfied ↔ failing = ∅ := by
  rw [standingOfOpen_eq_satisfied_iff, List.eq_nil_iff_forall_not_mem, Set.eq_empty_iff_forall_notMem]
  simp only [hmem]

include hnodup

omit [DecidableEq P] in
theorem standingOfOpen_eq_almostSatisfied_iff_eq_singleton :
    standingOfOpen opened = .almostSatisfied q ↔ failing = {q} := by
  rw [standingOfOpen_eq_almostSatisfied_iff, Set.ext_iff]
  simp only [← hmem, Set.mem_singleton_iff]
  constructor
  · rintro rfl
    simp
  · intro h
    exact List.perm_singleton.mp ((List.perm_ext_iff_of_nodup hnodup (List.nodup_singleton q)).mpr (by simpa))

omit [DecidableEq P] in
theorem standingOfOpen_eq_inconclusive_iff_nontrivial :
    standingOfOpen opened = .inconclusive ↔ failing.Nontrivial := by
  unfold Set.Nontrivial
  simp only [standingOfOpen_eq_inconclusive_iff, ← hmem]
  constructor
  · rintro ⟨a, b, rest, rfl⟩
    refine ⟨a, by simp, b, by simp, ?_⟩
    rintro rfl
    simp at hnodup
  · rintro ⟨a, ha, b, hb, hne⟩
    rcases opened with _ | ⟨c, _ | ⟨d, rest⟩⟩
    · cases ha
    · exact absurd ((List.mem_singleton.mp ha).trans (List.mem_singleton.mp hb).symm) hne
    · exact ⟨c, d, rest, rfl⟩

end opened

omit [DecidableEq S] in
/-- If one package is all that fails, what is possible and does not satisfy all terms satisfies the
negation of the term of this package. -/
theorem admits_negate_of_failing_eq (hfailing : i.failing known = {q}) {selection : P → Option V}
    (hselection : ∀ p u, known p = some u → u.Admits (selection p)) (hnot : ¬ i.Admits selection) :
    ∃ t, i.get? q = some t ∧ t.negate.Admits (selection q) := by
  unfold Admits at hnot
  push Not at hnot
  obtain ⟨p, t, ht, hnot⟩ := hnot
  have hfails : p ∈ i.failing known := by
    refine ⟨t, ht, ?_⟩
    rintro ⟨u, hu, hincluded⟩
    exact hnot (hincluded.admits (hselection p u hu))
  rw [hfailing, Set.mem_singleton_iff] at hfails
  subst hfails
  exact ⟨t, ht, (Term.admits_negate _).mpr hnot⟩

/-- The standing of an incompatibility names the first package whose term excludes what is known of the
package. If there is none, it is satisfied, almost satisfied or inconclusive as no package, one or more
fail. The kind is the same for all orders of the terms; and if only one package fails, whatever is
possible without satisfying all terms satisfies the negation of its term. -/
theorem standing_classifies (hi : i.IsProper) (hknown : Informative known) :
    (∀ q, i.standing known = .contradicted q ↔ i.FirstExcluded known q) ∧
      ((∀ q, ¬ i.FirstExcluded known q) →
        (i.standing known = .satisfied ↔ i.failing known = ∅) ∧
        (∀ q, i.standing known = .almostSatisfied q ↔ i.failing known = {q}) ∧
        (i.standing known = .inconclusive ↔ (i.failing known).Nontrivial)) ∧
      (∀ j : Incompatibility P V S M, j.terms.entries.Perm i.terms.entries →
        (j.standing known).kind = (i.standing known).kind) ∧
      (∀ q, i.standing known = .almostSatisfied q → ∀ selection : P → Option V,
        (∀ p u, known p = some u → u.Admits (selection p)) → ¬ i.Admits selection →
          ∃ t, i.get? q = some t ∧ t.negate.Admits (selection q)) ∧
      (SemanticEquality S V → ∀ p t u, i.get? p = some t → known p = some u →
        (u.IncludedIn t ↔ ∀ v : Option V, u.Admits v → t.Admits v) ∧
        (u.ExcludedBy t ↔ ∀ v : Option V, u.Admits v → ¬ t.Admits v)) := by
  have hcon := fun q => standing_eq_contradicted_iff_firstExcluded (q := q) hi hknown
  have hcount : (∀ q, ¬ i.FirstExcluded known q) →
      (i.standing known = .satisfied ↔ i.failing known = ∅) ∧
      (∀ q, i.standing known = .almostSatisfied q ↔ i.failing known = {q}) ∧
      (i.standing known = .inconclusive ↔ (i.failing known).Nontrivial) := by
    intro hnone
    obtain ⟨opened, hnodup, hmem, hstanding⟩ := exists_opened hi hknown hnone
    rw [hstanding]
    exact ⟨standingOfOpen_eq_satisfied_iff_eq_empty hmem,
      fun q => standingOfOpen_eq_almostSatisfied_iff_eq_singleton hnodup hmem,
      standingOfOpen_eq_inconclusive_iff_nontrivial hnodup hmem⟩
  refine ⟨hcon, hcount, fun j => kind_standing_eq_of_perm, fun q hq selection => ?_, fun heq p t u ht hu => ?_⟩
  · have hnone : ∀ p, ¬ i.FirstExcluded known p := by
      intro p hp
      rw [← hcon p, hq] at hp
      cases hp
    exact admits_negate_of_failing_eq (((hcount hnone).2.1 q).mp hq)
  · exact ⟨Term.includedIn_iff_admits heq (hknown p u hu).1 (hi p t ht),
      Term.excludedBy_iff_admits heq (hknown p u hu).1 (hi p t ht)⟩

/-- `false` at 1 depends on `true` from 2 on. -/
def falseNeedsTrue : Incompatibility Bool ℕ (Ranges ℕ) String :=
  ⟨(OrderedMap.single false (.exact 1)).insert true (.negative (.atLeast 2)),
    .fact (.dependency false (.singleton 1) true (.atLeast 2))⟩

/-- `false` is at 1, and nothing is known of `true`. -/
def falseKnown : Bool → Option (Term (Ranges ℕ))
  | false => some (.exact 1)
  | true => none

/-- Then the dependency is almost satisfied, and in every selection that is possible and does not break it
`true` is from 2 on. -/
theorem standing_classifies_falseNeedsTrue :
    falseNeedsTrue.IsProper ∧ Informative falseKnown ∧
      falseNeedsTrue.standing falseKnown = .almostSatisfied true ∧
      falseNeedsTrue.failing falseKnown = {true} ∧
      ∀ selection : Bool → Option ℕ, selection false = some 1 → ¬ falseNeedsTrue.Admits selection →
        ∃ v, selection true = some v ∧ 2 ≤ v := by
  have hproper : falseNeedsTrue.IsProper := by
    rintro (_ | _) t ht
    · obtain rfl := Option.some.inj ht
      exact Term.isProper_exact 1
    · obtain rfl := Option.some.inj ht
      exact Ranges.canonical_atLeast 2
  have hknown : Informative falseKnown := by
    rintro (_ | _) u hu
    · obtain rfl := Option.some.inj hu
      exact ⟨Term.isProper_exact 1, by decide⟩
    · cases hu
  have hstanding : falseNeedsTrue.standing falseKnown = .almostSatisfied true := by decide
  obtain ⟨hcon, hcount, -, hderive, -⟩ := standing_classifies hproper hknown
  refine ⟨hproper, hknown, hstanding, ?_, fun selection hfalse hnot => ?_⟩
  · refine ((hcount fun q hq => ?_).2.1 true).mp hstanding
    rw [← hcon q, hstanding] at hq
    cases hq
  · have hpossible : ∀ p u, falseKnown p = some u → u.Admits (selection p) := by
      rintro (_ | _) u hu
      · obtain rfl := Option.some.inj hu
        rw [Term.admits_iff_holds, Term.holds_exact_ofOption]
        exact hfalse
      · cases hu
    obtain ⟨t, ht, hadmits⟩ := hderive true hstanding selection hpossible hnot
    obtain rfl := Option.some.inj ht
    rw [Term.admits_iff_holds] at hadmits
    obtain ⟨v, hv, hin⟩ := Term.holds_positive_ofOption.mp hadmits
    exact ⟨v, hv, (Ranges.contains_atLeast 2 v).mp hin⟩

end Incompatibility

end DependencyResolution
