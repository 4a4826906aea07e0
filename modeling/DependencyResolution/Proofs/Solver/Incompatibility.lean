import DependencyResolution.Proofs.OrderedMap
import DependencyResolution.Proofs.Solver.Term
import DependencyResolution.Solver.Incompatibility

/-!
# What incompatibilities say

A world gives every package a value, and an incompatibility rules out the worlds in which all its terms
hold (`HoldsIn`). What the solver does with incompatibilities is described in these words:

* a dependency rules out what the dependency says it does (`holdsIn_ofDependency`), and one that is
  merged from two rules out what the two do (`mergeDependents_spec`);
* a resolvent says nothing that the two incompatibilities together do not (`holdsIn_resolvent`);
* the standing counts the terms that are open and names the first one that is contradicted
  (`standing_eq`).
-/

namespace DependencyResolution

abbrev World (P : Type) (S V : Type) [VersionSet S V] [LawfulVersionSet S V] := P → Value S V

def World.ofSelection {P S V : Type} [VersionSet S V] [LawfulVersionSet S V] (selection : P → Option V) :
    World P S V :=
  fun p => Value.ofOption (selection p)

namespace Incompatibility

variable {P V S M : Type} [DecidableEq P] [VersionSet S V]

variable {i j r : Incompatibility P V S M} {p q : P} {t u : Term S}

section meaning

variable [LawfulVersionSet S V]

def HoldsIn (i : Incompatibility P V S M) (w : World P S V) : Prop :=
  ∀ p t, i.get? p = some t → t.Holds (w p)

def IsProper (i : Incompatibility P V S M) : Prop :=
  ∀ p t, i.get? p = some t → t.IsProper

theorem holdsIn_single {c : Cause P V S M} {w : World P S V} :
    HoldsIn ⟨.single p t, c⟩ w ↔ t.Holds (w p) := by
  constructor
  · intro h
    exact h p t (by simp [get?])
  · intro h q u hq
    simp only [get?, OrderedMap.get?_single] at hq
    split_ifs at hq with hpq
    · cases hq
      exact hpq ▸ h

theorem isProper_single {c : Cause P V S M} (ht : t.IsProper) : IsProper ⟨.single p t, c⟩ := by
  intro q u hu
  simp only [get?, OrderedMap.get?_single] at hu
  split_ifs at hu
  cases hu
  exact ht

end meaning

/-! ## Resolution -/

section resolution

theorem get?_conjoin (terms : OrderedMap P (Term S)) (e : P × Term S) (q : P) :
    (conjoin terms e).get? q =
      if e.1 = q then Option.merge Term.intersection (terms.get? q) (some e.2) else terms.get? q := by
  unfold conjoin
  split
  · next h =>
    rw [OrderedMap.get?_insert]
    split_ifs with he
    · subst he; simp [h]
    · rfl
  · next term h =>
    rw [OrderedMap.get?_insert]
    split_ifs with he
    · subst he; simp [h]
    · rfl

theorem get?_foldl_conjoin (entries : List (P × Term S)) (hn : (entries.map Prod.fst).Nodup)
    (terms : OrderedMap P (Term S)) (q : P) :
    (entries.foldl conjoin terms).get? q =
      Option.merge Term.intersection (terms.get? q) (OrderedMap.lookup q entries) := by
  induction entries generalizing terms with
  | nil => simp [OrderedMap.lookup]
  | cons e rest ih =>
    obtain ⟨k, a⟩ := e
    simp only [List.map_cons, List.nodup_cons] at hn
    rw [List.foldl_cons, ih hn.2, get?_conjoin, OrderedMap.lookup]
    by_cases hk : k = q
    · have hnone : OrderedMap.lookup q rest = none :=
        (OrderedMap.lookup_eq_none_iff q).mpr (hk ▸ hn.1)
      simp [hk, hnone]
    · simp [hk]

variable [DecidableEq S]

/-- The terms of a resolvent: the union on the package itself, if it says anything, and what both say
on the others. -/
theorem get?_resolvent {first second : Nat} (h : i.resolvent j first second p = .ok r) :
    ∃ t u, i.get? p = some t ∧ j.get? p = some u ∧ r.cause = .derived first second ∧
      ∀ q, r.get? q =
        if q = p then (if (t.union u).isAny then none else some (t.union u))
        else Option.merge Term.intersection (i.get? q) (j.get? q) := by
  unfold resolvent at h
  split at h
  · next t u hi hj =>
    cases h
    refine ⟨t, u, hi, hj, rfl, fun q => ?_⟩
    have hothers : ∀ q, (List.foldl conjoin (i.terms.erase p) (j.terms.erase p).entries).get? q =
        if q = p then none else Option.merge Term.intersection (i.get? q) (j.get? q) := by
      intro q
      rw [get?_foldl_conjoin _ (j.terms.erase p).nodup]
      change Option.merge _ _ ((j.terms.erase p).get? q) = _
      rw [OrderedMap.get?_erase, OrderedMap.get?_erase]
      by_cases hq : q = p
      · simp [hq]
      · simp [hq, Ne.symm hq, get?]
    by_cases hq : q = p
    · rw [if_pos hq]
      split_ifs with hany
      · simp only [get?, hothers, if_pos hq]
      · simp only [get?, OrderedMap.get?_insert, if_pos hq.symm]
    · rw [if_neg hq]
      by_cases hany : (t.union u).isAny = true
      · simp only [get?, if_pos hany, hothers, if_neg hq]
      · simp only [get?, if_neg hany, OrderedMap.get?_insert, if_neg (Ne.symm hq), hothers, if_neg hq]
  · cases h

theorem exists_resolvent (first second : Nat) (hi : i.get? p = some t) (hj : j.get? p = some u) :
    ∃ r, i.resolvent j first second p = .ok r := by
  unfold resolvent
  rw [hi, hj]
  exact ⟨_, rfl⟩

variable [LawfulVersionSet S V]

omit [DecidableEq P] [DecidableEq S] in
theorem holds_merge_iff {a b : Option (Term S)} (ha : ∀ t, a = some t → t.IsProper)
    (hb : ∀ t, b = some t → t.IsProper) (x : Value S V) :
    (∀ t, Option.merge Term.intersection a b = some t → t.Holds x) ↔
      (∀ t, a = some t → t.Holds x) ∧ ∀ t, b = some t → t.Holds x := by
  cases a with
  | none => simp
  | some t =>
    cases b with
    | none => simp
    | some u => simp [Term.holds_intersection (ha t rfl) (hb u rfl)]

/-- A resolvent holds where both incompatibilities hold on the other packages and one of them on the
package. -/
theorem holdsIn_resolvent {first second : Nat} (hi : i.IsProper) (hj : j.IsProper)
    (h : i.resolvent j first second p = .ok r) (w : World P S V) :
    r.HoldsIn w ↔
      (∀ q, q ≠ p → (∀ t, i.get? q = some t → t.Holds (w q)) ∧ ∀ t, j.get? q = some t → t.Holds (w q)) ∧
        ((∀ t, i.get? p = some t → t.Holds (w p)) ∨ ∀ t, j.get? p = some t → t.Holds (w p)) := by
  obtain ⟨t, u, ht, hu, -, hget⟩ := get?_resolvent h
  have ht' := hi p t ht
  have hu' := hj p u hu
  have hother : ∀ q, q ≠ p → ((∀ t, r.get? q = some t → t.Holds (w q)) ↔
      (∀ t, i.get? q = some t → t.Holds (w q)) ∧ ∀ t, j.get? q = some t → t.Holds (w q)) := by
    intro q hq
    rw [hget q, if_neg hq]
    exact holds_merge_iff (hi q) (hj q) (w q)
  have hself : (∀ s, r.get? p = some s → s.Holds (w p)) ↔ t.Holds (w p) ∨ u.Holds (w p) := by
    rw [hget p, if_pos rfl, ← Term.holds_union ht' hu']
    split_ifs with hany
    · simp [(Term.isAny_iff (ht'.union hu')).mp hany (w p)]
    · simp
  simp only [ht, hu, Option.some.injEq, forall_eq']
  rw [← hself]
  constructor
  · exact fun h => ⟨fun q hq => (hother q hq).mp (h q), h p⟩
  · intro h q
    by_cases hq : q = p
    · exact hq ▸ h.2
    · exact (hother q hq).mpr (h.1 q hq)

theorem holdsIn_of_resolvent {first second : Nat} (hi : i.IsProper) (hj : j.IsProper)
    (h : i.resolvent j first second p = .ok r) {w : World P S V} (hw : r.HoldsIn w) :
    i.HoldsIn w ∨ j.HoldsIn w := by
  rw [holdsIn_resolvent hi hj h] at hw
  rcases hw with ⟨hothers, hself | hself⟩
  · left
    intro q
    by_cases hq : q = p
    · exact hq ▸ hself
    · exact (hothers q hq).1
  · right
    intro q
    by_cases hq : q = p
    · exact hq ▸ hself
    · exact (hothers q hq).2

theorem isProper_resolvent {first second : Nat} (hi : i.IsProper) (hj : j.IsProper)
    (h : i.resolvent j first second p = .ok r) : r.IsProper := by
  obtain ⟨t, u, ht, hu, -, hget⟩ := get?_resolvent h
  intro q s hs
  rw [hget q] at hs
  split_ifs at hs with hq
  · cases hs
    exact (hi p t ht).union (hj p u hu)
  · cases hti : i.get? q with
    | none => exact hj q s (by simpa [hti] using hs)
    | some a =>
      cases htj : j.get? q with
      | none => exact hi q s (by simpa [hti, htj] using hs)
      | some b =>
        simp only [hti, htj, Option.merge_some_some, Option.some.injEq] at hs
        exact hs ▸ (hi q a hti).intersection (hj q b htj)

end resolution

/-! ## Dependencies -/

section dependency

variable [DecidableEq S] {needed : P} {versions allowed : S}

theorem cause_ofDependency (h : ofDependency p versions needed allowed = some i) :
    i.cause = .fact (.dependency p versions needed allowed) := by
  unfold ofDependency at h
  dsimp only at h
  split_ifs at h <;> cases h <;> rfl

theorem get?_ofDependency_self (h : ofDependency p versions p allowed = some i) :
    i.get? q = if p = q then some ((Term.positive versions).intersection (.negative allowed))
      else none := by
  unfold ofDependency at h
  dsimp only at h
  rw [if_pos rfl] at h
  split_ifs at h
  cases h
  simp [get?]

/-- A dependency on another package mentions the package, and the other one unless nothing of it is
allowed. -/
theorem get?_ofDependency (hne : needed ≠ p) (h : ofDependency p versions needed allowed = some i) :
    i.get? q = if q = p then some (.positive versions)
      else if q = needed ∧ VersionSet.isEmpty allowed = false then some (.negative allowed)
      else none := by
  unfold ofDependency at h
  dsimp only at h
  rw [if_neg hne] at h
  split_ifs at h with hempty
  · cases h
    simp [get?, hempty, eq_comm]
  · cases h
    rw [Bool.not_eq_true] at hempty
    simp only [get?, OrderedMap.get?_insert, OrderedMap.get?_single, hempty, and_true]
    by_cases hq : q = p
    · subst hq
      simp [hne]
    · simp [hq, Ne.symm hq, eq_comm]

theorem exists_ofDependency (hne : needed ≠ p) :
    ∃ i : Incompatibility P V S M, ofDependency p versions needed allowed = some i := by
  unfold ofDependency
  dsimp only
  rw [if_neg hne]
  split_ifs
  · exact ⟨_, rfl⟩
  · exact ⟨_, rfl⟩

omit [VersionSet S V] [DecidableEq S] in
theorem asDependency_eq_some_iff {pair : P × P} :
    i.asDependency = some pair ↔
      pair.1 ≠ pair.2 ∧ ∃ versions allowed, i.cause = .fact (.dependency pair.1 versions pair.2 allowed) := by
  obtain ⟨a, b⟩ := pair
  unfold asDependency
  split
  · next package versions needed allowed hc =>
    rw [hc]
    split_ifs with he
    · simp only [false_iff, not_and, not_exists]
      rintro hab _ _ hc'
      cases hc'
      exact hab he
    · simp only [Option.some.injEq, Prod.mk.injEq, Cause.fact.injEq, Fact.dependency.injEq]
      constructor
      · rintro ⟨rfl, rfl⟩
        exact ⟨he, _, _, rfl, rfl, rfl, rfl⟩
      · rintro ⟨-, _, _, rfl, -, rfl, -⟩
        exact ⟨rfl, rfl⟩
  · next hc =>
    simp only [reduceCtorEq, false_iff, not_and, not_exists]
    intro _ versions allowed hc'
    exact hc _ _ _ _ hc'

omit [VersionSet S V] [DecidableEq S] in
theorem asDependency_of_cause (hne : p ≠ needed)
    (h : i.cause = .fact (.dependency p versions needed allowed)) : i.asDependency = some (p, needed) :=
  asDependency_eq_some_iff.mpr ⟨hne, versions, allowed, h⟩

theorem asDependency_ofDependency (hne : needed ≠ p)
    (h : ofDependency p versions needed allowed = some i) : i.asDependency = some (p, needed) :=
  asDependency_of_cause (Ne.symm hne) (cause_ofDependency h)

/-- Two dependencies of one package on another either do not combine, or allow the same and become the
dependency of the versions of both. -/
theorem mergeDependents_spec {v v' a a' : S} (hne : needed ≠ p)
    (hi : ofDependency p v needed a = some i) (hj : ofDependency p v' needed a' = some j) :
    i.mergeDependents j = .ok none ∨
      a = a' ∧ ∃ k, ofDependency p (VersionSet.union v v') needed a = some k ∧
        i.mergeDependents j = .ok (some k) := by
  have hic := cause_ofDependency hi
  have hid := asDependency_ofDependency hne hi
  have hip : i.get? p = some (.positive v) := by rw [get?_ofDependency hne hi, if_pos rfl]
  have hjp : j.get? p = some (.positive v') := by rw [get?_ofDependency hne hj, if_pos rfl]
  unfold mergeDependents
  rw [hic, hid]
  dsimp only
  rw [hip, hjp]
  split_ifs with hsame
  · right
    obtain ⟨k, hk⟩ : ∃ k : Incompatibility P V S M,
        ofDependency p (VersionSet.union v v') needed a = some k :=
      exists_ofDependency hne
    refine ⟨?_, k, hk, ?_⟩
    · have hget := hsame.2.2
      rw [get?_ofDependency hne hi, get?_ofDependency hne hj, if_neg hne, if_neg hne] at hget
      cases ha : VersionSet.isEmpty a <;> cases ha' : VersionSet.isEmpty a' <;>
        simp [ha, ha'] at hget
      · exact hget
      · simp only [VersionSet.isEmpty, decide_eq_true_eq] at ha ha'
        rw [ha, ha']
    · simp only [Term.positiveVersions]
      change Except.ok (ofDependency p (VersionSet.union v v') needed a) = _
      rw [hk]
  · exact Or.inl rfl

theorem keys_ofDependency {v v' : S} (hne : needed ≠ p) (hi : ofDependency p v needed allowed = some i)
    (hj : ofDependency p v' needed allowed = some j) : i.terms.keys = j.terms.keys := by
  unfold ofDependency at hi hj
  dsimp only at hi hj
  rw [if_neg hne] at hi hj
  split_ifs at hi hj with hempty
  · cases hi
    cases hj
    rfl
  · cases hi
    cases hj
    simp [OrderedMap.keys, OrderedMap.insert, OrderedMap.single, OrderedMap.write, Ne.symm hne]

theorem mergeDependents_of_eq {v v' a : S} (hne : needed ≠ p) (hi : ofDependency p v needed a = some i)
    (hj : ofDependency p v' needed a = some j) :
    ∃ k, ofDependency p (VersionSet.union v v') needed a = some k ∧ i.mergeDependents j = .ok (some k) := by
  have hsame : i.get? needed = j.get? needed := by
    rw [get?_ofDependency hne hi, get?_ofDependency hne hj, if_neg hne, if_neg hne]
  have hcond : j.asDependency = some (p, needed) ∧ i.terms.keys = j.terms.keys ∧
      i.get? needed = j.get? needed :=
    ⟨asDependency_ofDependency hne hj, keys_ofDependency hne hi hj, hsame⟩
  obtain ⟨k, hk⟩ : ∃ k : Incompatibility P V S M,
      ofDependency p (VersionSet.union v v') needed a = some k := exists_ofDependency hne
  refine ⟨k, hk, ?_⟩
  unfold mergeDependents
  rw [cause_ofDependency hi, asDependency_ofDependency hne hi]
  dsimp only
  rw [if_pos hcond, get?_ofDependency hne hi, get?_ofDependency hne hj, if_pos rfl, if_pos rfl, ← hk]
  rfl

theorem mergeDependents_of_ne {v v' a a' : S} (hne : needed ≠ p)
    (hi : ofDependency p v needed a = some i) (hj : ofDependency p v' needed a' = some j) (ha : a ≠ a') :
    i.mergeDependents j = .ok none :=
  (mergeDependents_spec hne hi hj).resolve_right fun h => ha h.1

variable [LawfulVersionSet S V]

theorem isProper_ofDependency (hv : LawfulVersionSet.Proper versions)
    (ha : LawfulVersionSet.Proper allowed) (h : ofDependency p versions needed allowed = some i) :
    i.IsProper := by
  intro q t hq
  by_cases hne : needed = p
  · subst hne
    rw [get?_ofDependency_self h] at hq
    split_ifs at hq
    cases hq
    exact Term.IsProper.intersection (t := .positive versions) (u := .negative allowed) hv ha
  · rw [get?_ofDependency hne h] at hq
    split_ifs at hq <;> cases hq
    · exact hv
    · exact ha

theorem holdsIn_ofDependency (hv : LawfulVersionSet.Proper versions)
    (ha : LawfulVersionSet.Proper allowed) (h : ofDependency p versions needed allowed = some i)
    (w : World P S V) :
    i.HoldsIn w ↔ (Term.positive versions).Holds (w p) ∧ ¬ (Term.positive allowed).Holds (w needed) := by
  have hneg : ∀ x : Value S V, (Term.negative allowed).Holds x ↔ ¬ (Term.positive allowed).Holds x :=
    Term.holds_negate (.positive allowed)
  have hva : ∀ x : Value S V,
      ((Term.positive versions).intersection (.negative allowed)).Holds x ↔
        (Term.positive versions).Holds x ∧ ¬ (Term.positive allowed).Holds x := by
    intro x
    rw [Term.holds_intersection (t := .positive versions) (u := .negative allowed) hv ha, hneg]
  by_cases hne : needed = p
  · subst hne
    constructor
    · exact fun hi => (hva _).mp (hi needed _ (by rw [get?_ofDependency_self h, if_pos rfl]))
    · intro hw q t hq
      rw [get?_ofDependency_self h] at hq
      split_ifs at hq with hqp
      cases hq
      exact hqp ▸ (hva _).mpr hw
  · constructor
    · intro hi
      refine ⟨hi p _ (by rw [get?_ofDependency hne h, if_pos rfl]), ?_⟩
      by_cases hempty : VersionSet.isEmpty allowed = true
      · exact (Term.isEmpty_iff (t := .positive allowed) ha).mp hempty (w needed)
      · rw [Bool.not_eq_true] at hempty
        refine (hneg _).mp (hi needed _ ?_)
        rw [get?_ofDependency hne h, if_neg hne, if_pos ⟨rfl, hempty⟩]
    · rintro ⟨hp, hn⟩ q t hq
      rw [get?_ofDependency hne h] at hq
      split_ifs at hq with hqp hqn <;> cases hq
      · exact hqp ▸ hp
      · exact hqn.1 ▸ (hneg _).mpr hn

theorem holds_of_ofDependency_eq_none (hv : LawfulVersionSet.Proper versions)
    (ha : LawfulVersionSet.Proper allowed)
    (h : (ofDependency p versions needed allowed : Option (Incompatibility P V S M)) = none) :
    needed = p ∧ ∀ x : Value S V, (Term.positive versions).Holds x → (Term.positive allowed).Holds x := by
  by_cases hne : needed = p
  · refine ⟨hne, fun x hx => ?_⟩
    have hempty : ((Term.positive versions).intersection (.negative allowed)).isEmpty = true := by
      unfold ofDependency at h
      dsimp only at h
      rw [if_pos hne] at h
      split_ifs at h with hempty
      exact hempty
    rw [Term.isEmpty_iff (Term.IsProper.intersection (t := .positive versions) (u := .negative allowed)
      hv ha)] at hempty
    by_contra hc
    exact hempty x ((Term.holds_intersection (t := .positive versions) (u := .negative allowed)
      hv ha x).mpr ⟨hx, (Term.holds_negate (.positive allowed) x).mpr hc⟩)
  · obtain ⟨i, hi⟩ : ∃ i : Incompatibility P V S M, ofDependency p versions needed allowed = some i :=
      exists_ofDependency hne
    rw [hi] at h
    cases h

end dependency

/-! ## Standing -/

section standing

variable [DecidableEq S]

omit [DecidableEq P] in
/-- How a term of a package relates to what is known of the package. -/
def relationIn (lookup : P → Option (Term S)) (e : P × Term S) : Relation :=
  (lookup e.1).elim .inconclusive e.2.relationWith

/-- The standing of an incompatibility of which no term is contradicted and these packages' terms are
open. -/
def standingOfOpen : List P → Standing P
  | [] => .satisfied
  | [p] => .almostSatisfied p
  | _ => .inconclusive

section opened

variable {opened : List P}

omit [DecidableEq P] in
theorem standingOfOpen_ne_contradicted (p : P) : standingOfOpen opened ≠ .contradicted p := by
  rcases opened with _ | ⟨a, _ | ⟨b, rest⟩⟩ <;> simp [standingOfOpen]

omit [DecidableEq P] in
theorem standingOfOpen_eq_satisfied_iff : standingOfOpen opened = .satisfied ↔ opened = [] := by
  rcases opened with _ | ⟨a, _ | ⟨b, rest⟩⟩ <;> simp [standingOfOpen]

omit [DecidableEq P] in
theorem standingOfOpen_eq_almostSatisfied_iff {p : P} :
    standingOfOpen opened = .almostSatisfied p ↔ opened = [p] := by
  rcases opened with _ | ⟨a, _ | ⟨b, rest⟩⟩ <;> simp [standingOfOpen]

omit [DecidableEq P] in
theorem standingOfOpen_eq_inconclusive_iff :
    standingOfOpen opened = .inconclusive ↔ ∃ p q rest, opened = p :: q :: rest := by
  rcases opened with _ | ⟨a, _ | ⟨b, rest⟩⟩ <;> simp [standingOfOpen]

end opened

section entry

variable {lookup : P → Option (Term S)} {e : P × Term S} {rest : List (P × Term S)}

omit [DecidableEq P] in
theorem standingFrom_cons (found : Standing P) :
    standingFrom lookup found (e :: rest) =
      match relationIn lookup e with
      | .satisfied => standingFrom lookup found rest
      | .contradicted => .contradicted e.1
      | .inconclusive =>
        match found with
        | .satisfied => standingFrom lookup (.almostSatisfied e.1) rest
        | _ => standingFrom lookup .inconclusive rest :=
  rfl

omit [DecidableEq P] in
theorem standingFrom_of_inconclusive {opened : List P} (h : relationIn lookup e = .inconclusive) :
    standingFrom lookup (standingOfOpen opened) (e :: rest) =
      standingFrom lookup (standingOfOpen (opened ++ [e.1])) rest := by
  rw [standingFrom_cons, h]
  rcases opened with _ | ⟨a, _ | ⟨b, c⟩⟩ <;> rfl

end entry

omit [DecidableEq P] in
theorem standingFrom_eq (lookup : P → Option (Term S)) (opened : List P) (entries : List (P × Term S)) :
    standingFrom lookup (standingOfOpen opened) entries =
      match entries.find? fun e => relationIn lookup e = .contradicted with
      | some e => .contradicted e.1
      | none => standingOfOpen
          (opened ++ (entries.filter fun e => relationIn lookup e = .inconclusive).map Prod.fst) := by
  induction entries generalizing opened with
  | nil => simp [standingFrom]
  | cons e rest ih =>
    rw [List.find?_cons, List.filter_cons]
    cases hrel : relationIn lookup e with
    | satisfied =>
      rw [standingFrom_cons, hrel]
      simp [ih]
    | contradicted =>
      rw [standingFrom_cons, hrel]
      simp
    | inconclusive =>
      rw [standingFrom_of_inconclusive hrel, ih]
      simp

omit [DecidableEq P] in
/-- The standing names the first contradicted term, and else depends on how many terms are open. -/
theorem standing_eq (i : Incompatibility P V S M) (lookup : P → Option (Term S)) :
    i.standing lookup =
      match i.terms.entries.find? fun e => relationIn lookup e = .contradicted with
      | some e => .contradicted e.1
      | none => standingOfOpen
          ((i.terms.entries.filter fun e => relationIn lookup e = .inconclusive).map Prod.fst) :=
  standingFrom_eq lookup [] i.terms.entries

theorem standing_eq_satisfied_iff_relationIn (i : Incompatibility P V S M) (lookup : P → Option (Term S)) :
    i.standing lookup = .satisfied ↔ ∀ q u, i.get? q = some u → relationIn lookup (q, u) = .satisfied := by
  have hentries : (∀ q u, i.get? q = some u → relationIn lookup (q, u) = .satisfied) ↔
      ∀ e ∈ i.terms.entries, relationIn lookup e = .satisfied :=
    ⟨fun h e he => h e.1 e.2 (i.terms.get?_eq_some_iff.mpr he),
      fun h q u hu => h (q, u) (i.terms.get?_eq_some_iff.mp hu)⟩
  rw [standing_eq, hentries]
  cases hfind : i.terms.entries.find? fun e => relationIn lookup e = .contradicted with
  | some e =>
    have hrel : relationIn lookup e = .contradicted := by simpa using List.find?_some hfind
    simp only [reduceCtorEq, false_iff]
    intro hall
    rw [hall e (List.mem_of_find?_eq_some hfind)] at hrel
    cases hrel
  | none =>
    rw [List.find?_eq_none] at hfind
    simp only [standingOfOpen_eq_satisfied_iff, List.map_eq_nil_iff, List.filter_eq_nil_iff,
      decide_eq_true_eq] at hfind ⊢
    refine forall₂_congr fun e he => ?_
    have hnot := hfind e he
    cases hrel : relationIn lookup e <;> simp_all

end standing

end Incompatibility

end DependencyResolution
