import DependencyResolution.Proofs.Solver.Catalogue
import Mathlib.Combinatorics.Enumerative.DoubleCounting
import Mathlib.Data.Finset.Option

/-!
# The vocabulary of a run

A vocabulary is a finite number of packages and of version sets. A term is over some sets if it cannot
tell values apart that are in the same ones of them; such terms are closed under the connectives, so
what a run stores stays over the vocabulary of the catalogue, however much it learns (`Surveyed`).

Every derivation forbids a value that was allowed, and with it those that are in the same sets. So the
length of a trail is bounded by the number of ways in which values can differ (`Surveyed.length_le`).
-/

namespace DependencyResolution

open Incompatibility

variable {σ P V S M π E : Type} [DecidableEq P] [DecidableEq S] [VersionSet S V] [LawfulVersionSet S V]

/-! ## Terms over sets -/

section terms

open scoped Classical in
/-- Which of the sets a value is in, if the package is selected. -/
noncomputable def Value.signature (sets : Finset S) (x : Value S V) : Option (Finset S) :=
  x.map fun y => sets.filter y.In

omit [DecidableEq S] in
theorem Value.signature_mem (sets : Finset S) (x : Value S V) :
    x.signature sets ∈ sets.powerset.insertNone := by
  classical
  rw [Finset.mem_insertNone]
  intro seen hseen
  obtain ⟨y, -, rfl⟩ := Option.map_eq_some_iff.mp hseen
  exact Finset.mem_powerset.mpr (Finset.filter_subset _ _)

def Term.IsOver (u : Term S) (sets : Finset S) : Prop :=
  ∀ x y : Value S V, x.signature sets = y.signature sets → (u.Holds x ↔ u.Holds y)

namespace Term.IsOver

variable {sets : Finset S} {u w : Term S}

omit [DecidableEq S] in
theorem positive {s : S} (h : s ∈ sets) : (Term.positive s).IsOver sets := by
  intro x y hxy
  cases x with
  | none =>
    cases y with
    | none => exact Iff.rfl
    | some y => cases hxy
  | some x =>
    cases y with
    | none => cases hxy
    | some y =>
      simp only [Value.signature, Option.map_some, Option.some.injEq] at hxy
      have hmem := Finset.ext_iff.mp hxy s
      simpa [h, Term.Holds] using hmem

omit [DecidableEq S] in
theorem negate (h : u.IsOver sets) : u.negate.IsOver sets := by
  intro x y hxy
  rw [Term.holds_negate, Term.holds_negate, h x y hxy]

omit [DecidableEq S] in
theorem intersection (hu : u.IsOver sets) (hw : w.IsOver sets) (hup : u.IsProper) (hwp : w.IsProper) :
    (u.intersection w).IsOver sets := by
  intro x y hxy
  rw [Term.holds_intersection hup hwp, Term.holds_intersection hup hwp, hu x y hxy, hw x y hxy]

omit [DecidableEq S] in
theorem union (hu : u.IsOver sets) (hw : w.IsOver sets) (hup : u.IsProper) (hwp : w.IsProper) :
    (u.union w).IsOver sets := by
  intro x y hxy
  rw [Term.holds_union hup hwp, Term.holds_union hup hwp, hu x y hxy, hw x y hxy]

end Term.IsOver

end terms

/-! ## Incompatibilities over a vocabulary -/

/-- The packages and the version sets that a run speaks of. -/
structure Vocabulary (P S : Type) where
  packages : Finset P
  sets : Finset S

section incompatibilities

variable {G : Vocabulary P S} {i j k r : Incompatibility P V S M} {p needed : P} {versions allowed : S}

def Incompatibility.IsOver (i : Incompatibility P V S M) (G : Vocabulary P S) : Prop :=
  ∀ q u, i.get? q = some u → q ∈ G.packages ∧ u.IsOver G.sets

omit [DecidableEq S] in
theorem Incompatibility.isOver_single {u : Term S} {c : Cause P V S M} (hp : p ∈ G.packages)
    (hu : u.IsOver G.sets) : IsOver ⟨.single p u, c⟩ G := by
  intro q w hw
  simp only [get?, OrderedMap.get?_single] at hw
  split_ifs at hw with hq
  cases hw
  exact ⟨hq ▸ hp, hu⟩

theorem Incompatibility.isOver_ofDependency (hv : LawfulVersionSet.Proper versions)
    (ha : LawfulVersionSet.Proper allowed) (h : ofDependency p versions needed allowed = some i)
    (hp : p ∈ G.packages) (hn : needed ∈ G.packages) (hvs : (Term.positive versions).IsOver G.sets)
    (has : (Term.positive allowed).IsOver G.sets) : i.IsOver G := by
  intro q u hu
  by_cases hne : needed = p
  · subst hne
    rw [get?_ofDependency_self h] at hu
    split_ifs at hu with hq
    cases hu
    exact ⟨hq ▸ hp, hvs.intersection has.negate hv ha⟩
  · rw [get?_ofDependency hne h] at hu
    split_ifs at hu with hq hq'
    · cases hu
      exact ⟨hq ▸ hp, hvs⟩
    · cases hu
      exact ⟨hq'.1 ▸ hn, has.negate⟩

theorem Incompatibility.IsOver.resolvent {first second : Nat} (hi : i.IsOver G) (hj : j.IsOver G)
    (hip : i.IsProper) (hjp : j.IsProper) (h : i.resolvent j first second p = .ok r) : r.IsOver G := by
  obtain ⟨t, u, ht, hu, -, hget⟩ := get?_resolvent h
  intro q w hw
  rw [hget q] at hw
  split_ifs at hw with hq
  · cases hw
    exact ⟨hq ▸ (hi p t ht).1, (hi p t ht).2.union (hj p u hu).2 (hip p t ht) (hjp p u hu)⟩
  · cases hti : i.get? q with
    | none => exact hj q w (by simpa [hti] using hw)
    | some a =>
      cases htj : j.get? q with
      | none => exact hi q w (by simpa [hti, htj] using hw)
      | some b =>
        simp only [hti, htj, Option.merge_some_some, Option.some.injEq] at hw
        subst hw
        exact ⟨(hi q a hti).1, (hi q a hti).2.intersection (hj q b htj).2 (hip q a hti) (hjp q b htj)⟩

theorem Incompatibility.Joins.isOver (h : Joins i j k) (hi : i.IsOver G) (hj : j.IsOver G) : k.IsOver G := by
  obtain ⟨hne, hv, hw, ha, hi', hj', hk⟩ := h
  intro q u hu
  rw [get?_ofDependency hne hk] at hu
  split_ifs at hu with hq hq'
  · cases hu
    subst hq
    obtain ⟨hp, hvs⟩ := hi q _ (by rw [get?_ofDependency hne hi', if_pos rfl])
    obtain ⟨-, hws⟩ := hj q _ (by rw [get?_ofDependency hne hj', if_pos rfl])
    exact ⟨hp, hvs.union hws hv hw⟩
  · cases hu
    exact hi q _ (by rw [get?_ofDependency hne hi', if_neg hq, if_pos hq'])

theorem Store.Made.isOver {store : Store P V S M} (h : store.Made i)
    (hs : ∀ n j, store.get? n = some j → j.IsOver G) : i.IsOver G := by
  induction h with
  | stored h => exact hs _ _ h
  | joined _ _ h ihi ihj => exact h.isOver ihi ihj

end incompatibilities

/-! ## Runs over a vocabulary -/

/-- What a run has stored and decided is over the vocabulary. -/
structure Surveyed (G : Vocabulary P S) (s : SolverState P V S M) (t : List (Assignment P V S)) : Prop where
  stored : ∀ n i, s.store.get? n = some i → i.IsOver G
  decided : ∀ d, .decision d ∈ t → d.package ∈ G.packages ∧ d.term.IsOver G.sets

namespace Surveyed

variable {G : Vocabulary P S} {s : SolverState P V S M} {t : List (Assignment P V S)} {p : P}

theorem assigned (hs : Surveyed G s t) (h : Invariant s t) {a : Assignment P V S} (ha : a ∈ t) :
    a.package ∈ G.packages ∧ a.term.IsOver G.sets := by
  cases a with
  | decision d => exact hs.decided d ha
  | derivation d =>
    obtain ⟨c, hc, hj⟩ := h.justified d ha
    obtain ⟨hp, hu⟩ := hs.stored _ c hc _ _ hj.term
    refine ⟨hp, ?_⟩
    have hterm := hu.negate
    rwa [Term.negate_negate] at hterm

theorem allows_iff (hs : Surveyed G s t) (h : Invariant s t) {x y : Value S V}
    (hxy : x.signature G.sets = y.signature G.sets) : Allows t p x ↔ Allows t p y :=
  forall₂_congr fun _ ha => forall_congr' fun _ => (hs.assigned h ha).2 x y hxy

theorem isOver_pending (hs : Surveyed G s t) (h : Invariant s t) {versions : S}
    (hp : s.solution.IsPending p versions) :
    p ∈ G.packages ∧ (Term.positive versions).IsOver G.sets := by
  constructor
  · obtain ⟨a, ha, -, -⟩ := hp
    by_contra hnot
    have habsent := (h.trail.absent_iff (p := p)).mpr fun b hb hbp => hnot (hbp ▸ (hs.assigned h hb).1)
    rw [ha] at habsent
    cases habsent
  · intro x y hxy
    rw [← h.allows_iff hp, ← h.allows_iff hp, hs.allows_iff h hxy]

end Surveyed

/-! ## Steps -/

section steps

variable {G : Vocabulary P S} {s s' : SolverState P V S M} {t t' : List (Assignment P V S)}
  {i : Incompatibility P V S M} {p : P} {v : V} {id : Nat}

omit [DecidableEq S] in
theorem Surveyed.alloc (hs : Surveyed G s t) (hi : i.IsOver G) :
    Surveyed G { s with store := (s.store.alloc i).1 } t where
  stored n j hj := by
    dsimp only at hj
    rw [Store.get?_alloc] at hj
    split_ifs at hj
    · cases hj
      exact hi
    · exact hs.stored n j hj
  decided := hs.decided

theorem Inserted.surveyed (h : Inserted s s' i id) (hs : Surveyed G s t) (hi : i.IsOver G) :
    Surveyed G s' t where
  stored n j hj := (h.made n j hj).isOver (hs.alloc hi).stored
  decided := hs.decided

theorem Adds.surveyed {facts : List (Incompatibility P V S M)} {ids : List Nat} (h : Adds s facts s' ids)
    (hs : Surveyed G s t) (hf : ∀ i ∈ facts, i.IsOver G) : Surveyed G s' t := by
  induction h with
  | nil => exact hs
  | cons h _ ih =>
    rw [List.forall_mem_cons] at hf
    exact ih (h.surveyed hs hf.1) hf.2

theorem isOver_dependencyFacts {requirements : List (P × S)}
    (hr : ∀ r ∈ requirements, LawfulVersionSet.Proper r.2) (hp : p ∈ G.packages)
    (hv : VersionSet.singleton v ∈ G.sets) (hs : ∀ r ∈ requirements, r.1 ∈ G.packages ∧ r.2 ∈ G.sets) :
    ∀ i ∈ (dependencyFacts p v requirements : List (Incompatibility P V S M)), i.IsOver G := by
  intro i hi
  obtain ⟨r, hmem, h⟩ := List.mem_filterMap.mp hi
  exact isOver_ofDependency (LawfulVersionSet.proper_singleton v) (hr r hmem) h hp (hs r hmem).1
    (.positive hv) (.positive (hs r hmem).2)

omit [DecidableEq S] in
theorem Surveyed.of_decide (hs : Surveyed G s t) (hstore : s'.store = s.store) (hp : p ∈ G.packages)
    (hv : VersionSet.singleton v ∈ G.sets) (solution : PartialSolution P V S) :
    Surveyed G s' (t ++ [.decision (solution.decision p v)]) where
  stored n i hi := hs.stored n i (hstore ▸ hi)
  decided d hd := by
    rcases List.mem_append.mp hd with hd | hd
    · exact hs.decided d hd
    · rw [List.mem_singleton, Assignment.decision.injEq] at hd
      subst hd
      exact ⟨hp, .positive hv⟩

variable [DecidableEq V] {provider : Provider σ P V S M π E} {catalogue : Catalogue P V S M}
  {x y : Session σ P V S M π E} {φ φ' : Phase P}

/-- The vocabulary has the versions of the catalogue and what they depend on. -/
structure Vocabulary.Covers (G : Vocabulary P S) (catalogue : Catalogue P V S M) : Prop where
  versions : ∀ p v d, catalogue.find? p v = some d → VersionSet.singleton v ∈ G.sets
  requirements : ∀ p v requirements, catalogue.find? p v = some (.available requirements) →
    ∀ r ∈ requirements.entries, r.1 ∈ G.packages ∧ r.2 ∈ G.sets

omit [DecidableEq V] in
theorem Advance.surveyed_of_ne_decide (h : Invariant x.state t) (hne : φ ≠ .decide)
    (hs : Surveyed G x.state t) (hstep : Advance provider x t φ y t' φ') : Surveyed G y.state t' := by
  cases hstep with
  | skip _ | wait _ _ _ | clash _ _ _ => exact hs
  | turn _ hs' _ | mark _ _ hs' _ =>
    rw [hs']
    exact ⟨hs.stored, hs.decided⟩
  | derive _ _ _ _ _ hs' _ | learned _ _ _ _ hs' _ =>
    rw [hs']
    exact ⟨hs.stored, fun d hd => hs.decided d (by simpa using hd)⟩
  | resolve hi _ _ hc hr hs' _ =>
    rw [hs']
    exact hs.alloc ((hs.stored _ _ hi).resolvent (hs.stored _ _ hc) (h.isContingent hi).isProper
      (h.isContingent hc).isProper hr)
  | @learn _ _ changed _ _ _ _ _ _ _ _ _ _ _ _ hs' _ =>
    rw [hs']
    refine ⟨fun n i hi => hs.stored n i ?_, fun d hd => hs.decided d (mem_upTo_iff.mp hd).1⟩
    cases changed <;> exact hi
  | missing _ _ _ _ _ | unusable _ _ _ _ _ _ _ | refused _ _ _ _ _ _ _ _ _ _ | decided _ _ _ _ _ _ _ _ _
  | again _ _ _ _ _ _ _ _ _ => exact absurd rfl hne

/-- A step says nothing that is not over the vocabulary of the catalogue. -/
theorem Advance.surveyed (h : Invariant x.state t) (hfrom : provider.AnswersFrom catalogue)
    (hG : G.Covers catalogue) (hs : Surveyed G x.state t) (hstep : Advance provider x t φ y t' φ') :
    Surveyed G y.state t' := by
  by_cases hne : φ = .decide
  · subst hne
    have hchosen : ∀ {p : P} {versions : S} {v : V},
        (∃ c, (provider.chooseVersion p versions c).1 = .ok (some v)) → VersionSet.singleton v ∈ G.sets := by
      rintro p versions v ⟨c, hc⟩
      obtain ⟨-, d, hd⟩ := hfrom.chosen p versions c v hc
      exact hG.versions p v d hd
    have hfacts : ∀ {p : P} {versions : S} {v : V} {requirements : OrderedMap P S},
        x.state.solution.IsPending p versions →
        (∃ c, (provider.chooseVersion p versions c).1 = .ok (some v)) →
        (∃ c, (provider.dependencies p v c).1 = .ok (.available requirements)) →
        ∀ i ∈ (dependencyFacts p v requirements.entries : List (Incompatibility P V S M)), i.IsOver G := by
      intro p versions v requirements hp hc hd
      have hfind := hfrom.find? ⟨versions, hc⟩ hd
      exact isOver_dependencyFacts (Catalogue.proper_of_find? hfind) (hs.isOver_pending h hp).1 (hchosen hc)
        (hG.requirements _ _ _ hfind)
    cases hstep with
    | turn hturn _ _ => cases hturn
    | missing hp _ hs' _ _ =>
      obtain ⟨hpackage, hversions⟩ := hs.isOver_pending h hp
      exact hs'.surveyed hs (isOver_single hpackage hversions)
    | unusable hp _ hc _ hs' _ _ =>
      exact hs'.surveyed hs (isOver_single (hs.isOver_pending h hp).1 (.positive (hchosen hc)))
    | refused hp _ hc hd hs' _ _ _ _ _ => exact hs'.surveyed hs (hfacts hp hc hd)
    | decided hp _ hc hd hadds _ hs' _ _ =>
      exact (hadds.surveyed hs (hfacts hp hc hd)).of_decide (by rw [hs']) (hs.isOver_pending h hp).1
        (hchosen hc) _
    | again hp _ hc _ _ _ hs' _ _ =>
      exact hs.of_decide (by rw [hs']) (hs.isOver_pending h hp).1 (hchosen hc) _
  · exact hstep.surveyed_of_ne_decide h hne hs

end steps

/-! ## The length of a trail -/

section length

variable {G : Vocabulary P S} {s : SolverState P V S M} {t : List (Assignment P V S)}

/-- What tells the assignments of a trail apart: the package, and for a derivation the sets that some
value is in which it forbids. -/
def Vocabulary.labels (G : Vocabulary P S) : Finset (P × Option (Option (Finset S))) :=
  G.packages ×ˢ G.sets.powerset.insertNone.insertNone

/-- The assignment forbids a value that was allowed before, and the label says which sets it is in. -/
def Assignment.Forbids (t : List (Assignment P V S)) (G : Vocabulary P S) :
    Assignment P V S → P × Option (Option (Finset S)) → Prop
  | .decision d, label => label = (d.package, none)
  | .derivation d, label => ∃ x : Value S V, Allows (before d.index t) d.package x ∧ ¬ d.term.Holds x ∧
      label = (d.package, some (x.signature G.sets))

/-- Of two derivations for a package the later one does not forbid what the earlier one did. -/
theorem Surveyed.index_le_of_forbids (hs : Surveyed G s t) (h : Invariant s t) {d e : Derivation P S}
    (hd : .derivation d ∈ t) {label : P × Option (Option (Finset S))}
    (hdl : (Assignment.derivation d).Forbids t G label) (hel : (Assignment.derivation e).Forbids t G label) :
    e.index ≤ d.index := by
  obtain ⟨x, -, hxd, rfl⟩ := hdl
  obtain ⟨y, hy, -, heq⟩ := hel
  simp only [Prod.mk.injEq, Option.some.injEq] at heq
  obtain ⟨hpackage, hsame⟩ := heq
  by_contra hlt
  push Not at hlt
  have hyd := hy _ (mem_before_iff.mpr ⟨hd, hlt⟩) hpackage
  exact hxd (((hs.assigned h hd).2 x y hsame).mpr hyd)

/-- A trail is no longer than there are labels. -/
theorem Surveyed.length_le (hs : Surveyed G s t) (h : Invariant s t) : t.length ≤ G.labels.card := by
  classical
  -- every assignment forbids some label, and no two forbid the same one
  rw [← List.toFinset_card_of_nodup h.trail.nodup]
  refine Finset.card_le_card_of_forall_subsingleton (Assignment.Forbids t G) ?_ ?_
  · intro a ha
    rw [List.mem_toFinset] at ha
    have hp := (hs.assigned h ha).1
    cases a with
    | decision d =>
      exact ⟨(d.package, none), Finset.mem_product.mpr ⟨hp, Finset.none_mem_insertNone⟩, rfl⟩
    | derivation d =>
      obtain ⟨c, -, hj⟩ := h.justified d ha
      obtain ⟨x, hx⟩ := not_forall.mp hj.narrows
      rw [Classical.not_imp] at hx
      refine ⟨(d.package, some (x.signature G.sets)), Finset.mem_product.mpr ⟨hp, ?_⟩, x, hx.1, hx.2, rfl⟩
      exact Finset.some_mem_insertNone.mpr (x.signature_mem G.sets)
  · rintro label - a ⟨ha, hal⟩ b ⟨hb, hbl⟩
    rw [List.mem_toFinset] at ha hb
    refine h.trail.eq_of_index_eq ha hb ?_
    cases a with
    | decision d =>
      cases b with
      | decision e =>
        rw [h.trail.eq_of_decision ha hb (congrArg Prod.fst (hal.symm.trans hbl))]
      | derivation e =>
        obtain ⟨y, -, -, heq⟩ := hbl
        exact absurd (congrArg Prod.snd (hal.symm.trans heq)) (by simp)
    | derivation d =>
      cases b with
      | decision e =>
        obtain ⟨x, -, -, heq⟩ := hal
        exact absurd (congrArg Prod.snd (hbl.symm.trans heq)) (by simp)
      | derivation e =>
        exact le_antisymm (hs.index_le_of_forbids h hb hbl hal) (hs.index_le_of_forbids h ha hal hbl)

end length

/-! ## The vocabulary of a catalogue -/

section catalogue

variable [DecidableEq V] (catalogue : Catalogue P V S M) (root : P) (version : V)

namespace Catalogue

def listed : List (V × Dependencies P S M) := catalogue.entries.entries.flatMap fun e => e.2.entries

def requirements : List (P × S) :=
  catalogue.listed.flatMap fun e =>
    match e.2 with
    | .available requirements => requirements.entries
    | .unavailable _ => []

/-- The packages and sets that a run speaks of when the provider answers from the catalogue. -/
def vocabulary : Vocabulary P S where
  packages := insert root (catalogue.requirements.map Prod.fst).toFinset
  sets := insert (VersionSet.singleton version)
    ((catalogue.listed.map Prod.fst).map VersionSet.singleton ++
      catalogue.requirements.map Prod.snd).toFinset

variable {catalogue}

omit [DecidableEq S] in
theorem mem_listed_of_find? {p : P} {v : V} {d : Dependencies P S M} (h : catalogue.find? p v = some d) :
    (v, d) ∈ catalogue.listed := by
  obtain ⟨versions, hp, hv⟩ := Option.bind_eq_some_iff.mp h
  exact List.mem_flatMap.mpr ⟨_, catalogue.entries.get?_eq_some_iff.mp hp, versions.get?_eq_some_iff.mp hv⟩

theorem covers_vocabulary : (catalogue.vocabulary root version).Covers catalogue where
  versions p v d h := by
    refine Finset.mem_insert_of_mem (List.mem_toFinset.mpr (List.mem_append_left _ ?_))
    exact List.mem_map_of_mem (List.mem_map_of_mem (mem_listed_of_find? h))
  requirements p v requirements h r hr := by
    have hmem : r ∈ catalogue.requirements := List.mem_flatMap.mpr ⟨_, mem_listed_of_find? h, hr⟩
    constructor
    · exact Finset.mem_insert_of_mem (List.mem_toFinset.mpr (List.mem_map_of_mem hmem))
    · exact Finset.mem_insert_of_mem
        (List.mem_toFinset.mpr (List.mem_append_right _ (List.mem_map_of_mem hmem)))

end Catalogue

omit [DecidableEq V] in
theorem Surveyed.opened {x : Session σ P V S M π E} (h : x.Opened root version) :
    Surveyed (catalogue.vocabulary root version) x.state [.derivation (rootDerivation root version)] where
  stored n i hi := by
    rw [h.state] at hi
    change (SolverState.start root version).store.get? n = some i at hi
    rw [get?_start] at hi
    split_ifs at hi
    cases hi
    exact isOver_single (Finset.mem_insert_self _ _)
      (Term.IsOver.negate (.positive (Finset.mem_insert_self _ _)))
  decided d hd := by simp at hd

end catalogue

end DependencyResolution
