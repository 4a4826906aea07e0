import DependencyResolution.Proofs.PackageTable
import DependencyResolution.Proofs.Solver.Derivation
import DependencyResolution.Proofs.Solver.History

/-!
# Derivations are justified

At every moment of a run each live derivation has a reason in the store: the incompatibility that caused
it says the opposite of the derivation about its package, and all that it says of other packages was
known before. A derivation is only made if it says something new, and never leaves nothing of its package
(`resolveWithin_justified`).

What was known before is counted from the live assignments themselves: it is the intersection of their
terms (`knownFrom`).
-/

namespace DependencyResolution

open Incompatibility

variable {P V S M : Type} [DecidableEq P] [VersionSet S V]

/-! ## What some assignments say of a package -/

/-- What some assignments say of a package: the intersection of their terms, if there are any. -/
def knownFrom (l : List (Assignment P V S)) (p : P) : Option (Term S) :=
  match l.filter fun a => a.package = p with
  | [] => none
  | a :: rest => some (rest.foldl (fun u b => u.intersection b.term) a.term)

section knownFrom

variable [LawfulVersionSet S V] {l : List (Assignment P V S)} {p : P} {u : Term S}

omit [DecidableEq P] in
theorem foldl_intersection_spec (rest : List (Assignment P V S)) (hp : ProperTrail rest) (hu : u.IsProper) :
    (rest.foldl (fun u b => u.intersection b.term) u).IsProper ∧
      ∀ x : Value S V, (rest.foldl (fun u b => u.intersection b.term) u).Holds x ↔
        u.Holds x ∧ ∀ b ∈ rest, b.term.Holds x := by
  induction rest generalizing u with
  | nil => exact ⟨hu, by simp⟩
  | cons b rest ih =>
    have hb := hp b List.mem_cons_self
    obtain ⟨hproper, hholds⟩ := ih (fun c hc => hp c (List.mem_cons_of_mem _ hc)) (hu.intersection hb)
    refine ⟨hproper, fun x => ?_⟩
    rw [List.foldl_cons, hholds, Term.holds_intersection hu hb, List.forall_mem_cons, and_assoc]

theorem knownFrom_eq_some (hp : ProperTrail l) (h : knownFrom l p = some u) :
    u.IsProper ∧ ∀ x, u.Holds x ↔ Allows l p x := by
  unfold knownFrom at h
  split at h
  · cases h
  · next a rest hl =>
    have hmem : ∀ b, b ∈ a :: rest ↔ b ∈ l ∧ b.package = p := by
      intro b
      rw [← hl, List.mem_filter, decide_eq_true_eq]
    have hproper : ProperTrail (a :: rest) := fun b hb => hp b ((hmem b).mp hb).1
    obtain ⟨huproper, hholds⟩ := foldl_intersection_spec rest
      (fun b hb => hproper b (List.mem_cons_of_mem _ hb)) (hproper a List.mem_cons_self)
    obtain rfl := Option.some.inj h
    refine ⟨huproper, fun x => ?_⟩
    rw [hholds, ← List.forall_mem_cons (p := fun b : Assignment P V S => b.term.Holds x)]
    simp only [hmem, and_imp, Allows]

theorem knownFrom_eq_none (h : knownFrom l p = none) (x : Value S V) : Allows l p x := by
  unfold knownFrom at h
  split at h
  · next hl =>
    intro a ha hap
    have hmem : a ∈ l.filter fun b => b.package = p := List.mem_filter.mpr ⟨ha, decide_eq_true hap⟩
    rw [hl] at hmem
    cases hmem
  · cases h

theorem describes_knownFrom (hp : ProperTrail l) (hc : Consistent (Allows l)) :
    Describes (knownFrom l) (Allows l) where
  known _ _ h := knownFrom_eq_some hp h
  unknown _ h := knownFrom_eq_none h
  consistent := hc

end knownFrom

/-! ## Justified derivations -/

section justified

variable [DecidableEq S]

/-- The store holds the reason for a derivation among the live assignments: an incompatibility with the
opposite term for its package, all other terms of which were satisfied by what came before. The derivation
narrowed what was known of its package, if anything was, and something is left. -/
structure Derivation.JustifiedIn (d : Derivation P S) (s : SolverState P V S M) : Prop where
  cause : ∃ c u, s.store.get? d.cause = some c ∧ c.get? d.package = some u ∧ d.term = u.negate ∧
    ∀ q w, c.get? q = some w → q ≠ d.package →
      (knownFrom (before d.index s.solution.assignments) q).map w.relationWith = some .satisfied
  narrows :
    match knownFrom (before d.index s.solution.assignments) d.package with
    | none => d.accumulated = d.term
    | some u => d.accumulated = u.intersection d.term ∧ d.accumulated ≠ u
  isEmpty : d.accumulated.isEmpty = false

variable [LawfulVersionSet S V]

omit [DecidableEq S] in
/-- What is allowed up to an assignment is what was allowed before it and satisfies its term. -/
theorem PartialSolution.Trail.allows_before_index_succ {s : PartialSolution P V S}
    {t : List (Assignment P V S)} (h : s.Trail t) {a : Assignment P V S} (ha : a ∈ t) (x : Value S V) :
    Allows (before (a.index + 1) t) a.package x ↔
      Allows (before a.index t) a.package x ∧ a.term.Holds x := by
  constructor
  · intro hx
    refine ⟨hx.mono fun b hb => ?_, hx a (mem_before_iff.mpr ⟨ha, Nat.lt_succ_self _⟩) rfl⟩
    rw [mem_before_iff] at hb ⊢
    exact ⟨hb.1, Nat.lt_succ_of_lt hb.2⟩
  · rintro ⟨hx, hterm⟩ b hb hp
    rw [mem_before_iff] at hb
    rcases Nat.lt_succ_iff_lt_or_eq.mp hb.2 with hlt | heq
    · exact hx b (mem_before_iff.mpr ⟨hb.1, hlt⟩) hp
    · rwa [h.eq_of_index_eq hb.1 ha heq]

namespace Invariant

variable {s : SolverState P V S M} {t : List (Assignment P V S)} {d : Derivation P S}
  {a : PackageAssignments P V S} {p : P} {n : Nat}

theorem properTrail_before (h : Invariant s t) (n : Nat) : ProperTrail (before n t) :=
  fun a ha => h.properTrail a (mem_before_iff.mp ha).1

theorem consistent_before (h : Invariant s t) (n : Nat) : Consistent (Allows (before n t)) :=
  fun p => (h.consistent p).imp fun _ => allows_before

theorem accumulated_spec (h : Invariant s t) (hd : .derivation d ∈ t) :
    d.accumulated.IsProper ∧ ∀ x, d.accumulated.Holds x ↔
      Allows (before d.index t) d.package x ∧ d.term.Holds x := by
  obtain ⟨a, ha⟩ : ∃ a, s.solution.packages.get? d.package = some a := by
    rw [← Option.ne_none_iff_exists']
    exact fun hnone => h.trail.absent_iff.mp hnone _ hd rfl
  obtain ⟨k, hk⟩ := List.mem_iff_getElem?.mp ((h.trail.mem_derivation_iff ha).mpr ⟨hd, rfl⟩)
  have htake := (h.trail.records ha).derived.take hk
  refine ⟨htake.isProper fun e he => ?_, fun x => ?_⟩
  · exact h.trail.isProper_derivation h.properTrail ha e (List.mem_of_mem_take he)
  · rw [h.trail.holds_accumulated_iff h.properTrail ha hk]
    exact h.trail.allows_before_index_succ hd x

theorem justifiedIn (h : Invariant s t) (hd : .derivation d ∈ s.solution.assignments) :
    d.JustifiedIn s := by
  have hassignments := h.trail.assignments_eq
  rw [hassignments] at hd
  obtain ⟨c, hc, hterm, hothers, hnarrows⟩ := h.justified d hd
  obtain ⟨hproper, hholds⟩ := h.accumulated_spec hd
  have hdescribes := describes_knownFrom (h.properTrail_before d.index) (h.consistent_before d.index)
  refine ⟨⟨c, _, hc, hterm, (Term.negate_negate _).symm, fun q w hw hq => ?_⟩, ?_, ?_⟩
  · have hsat := (relationIn_eq_satisfied hdescribes (h.isContingent hc q w hw)).mpr (hothers q w hw hq)
    rw [hassignments]
    unfold relationIn at hsat
    cases hl : knownFrom (before d.index t) q with
    | none =>
      rw [hl] at hsat
      cases hsat
    | some u =>
      rw [hl] at hsat
      exact congrArg some hsat
  · have hdproper : d.term.IsProper := h.properTrail _ hd
    rw [hassignments]
    split
    · next hnone =>
      refine Term.eq_of_holds hproper hdproper fun x => ?_
      rw [hholds, and_iff_right (knownFrom_eq_none hnone x)]
    · next u hu =>
      obtain ⟨huproper, huholds⟩ := knownFrom_eq_some (h.properTrail_before d.index) hu
      refine ⟨Term.eq_of_holds hproper (huproper.intersection hdproper) fun x => ?_, fun heq => ?_⟩
      · rw [hholds, Term.holds_intersection huproper hdproper, huholds]
      · exact hnarrows fun x hx => ((hholds x).mp (heq ▸ (huholds x).mpr hx)).2
  · obtain ⟨x, hx⟩ := h.consistent d.package
    exact (Term.isEmpty_eq_false_iff hproper).mpr ⟨x, (hholds x).mpr ⟨allows_before hx, hx _ hd rfl⟩⟩

theorem isEmpty_term (h : Invariant s t) (ha : s.solution.packages.get? p = some a) :
    a.term.isEmpty = false ∧ a.derived.isEmpty = false := by
  have hterm : s.solution.term? p = some a.term := by rw [PartialSolution.term?, ha, Option.map_some]
  obtain ⟨hproper, hholds⟩ := h.describes.known p a.term hterm
  obtain ⟨x, hx⟩ := h.consistent p
  refine ⟨(Term.isEmpty_eq_false_iff hproper).mpr ⟨x, (hholds x).mpr hx⟩, ?_⟩
  obtain ⟨d, hd, hacc⟩ := (h.trail.records ha).derived.getLast
  have hdt := ((h.trail.mem_derivation_iff ha).mp (List.mem_of_getLast? hd)).1
  rw [← hacc]
  exact (h.justifiedIn (h.trail.assignments_eq.symm ▸ hdt)).isEmpty

end Invariant

/-! ## Runs -/

variable {σ π E : Type} [DecidableEq V] [LT π] [DecidableLT π] {provider : Provider σ P V S M π E}

/-- Whatever the state in which a run is left, every live derivation is justified, something is left of
every package, and no term in the store admits nothing or everything. -/
theorem resolveWithin_justified (hproper : provider.AnswersProper) (steps : Nat) (client : σ) (root : P)
    (version : V) :
    let s := (resolveWithin steps provider client root version).2.state
    (∀ d, .derivation d ∈ s.solution.assignments → d.JustifiedIn s) ∧
      (∀ p a, s.solution.packages.get? p = some a → a.term.isEmpty = false ∧ a.derived.isEmpty = false) ∧
      ∀ id i p u, s.store.get? id = some i → i.get? p = some u → u.isEmpty = false ∧ u.isAny = false := by
  have hgrounded := resolveWithin_grounded hproper steps client root version
  have hlive : ∀ x φ, Reached provider client root version x φ →
      (∀ d, .derivation d ∈ x.state.solution.assignments → d.JustifiedIn x.state) ∧
        ∀ p a, x.state.solution.packages.get? p = some a → a.term.isEmpty = false ∧ a.derived.isEmpty = false := by
    intro x φ hx
    rcases hx.cases (I := fun _ _ _ => True) hproper (fun _ => trivial) (fun _ _ _ _ => trivial) with
      hfresh | ⟨t, hinv, -, -⟩
    · have hsolution : x.state.solution = .empty := by rw [hfresh.state]; rfl
      rw [hsolution, PartialSolution.Trail.empty.assignments_eq]
      exact ⟨nofun, nofun⟩
    · exact ⟨fun d hd => hinv.justifiedIn hd, fun p a ha => hinv.isEmpty_term ha⟩
  obtain ⟨hjustified, hleft⟩ := resolveWithin_moment hproper hlive
    (fun x y hxy hQ => by rwa [hxy.state]) steps
  refine ⟨hjustified, hleft, fun id i p u hi hu => ?_⟩
  have hcontingent := (hgrounded.wellFormed id i hi).isContingent p u hu
  refine ⟨(Term.isEmpty_eq_false_iff hcontingent.proper).mpr hcontingent.holds, ?_⟩
  rw [← Bool.not_eq_true, Term.isAny_iff hcontingent.proper]
  exact fun hall => hcontingent.fails.elim fun x hx => hx (hall x)

end justified

/-- The derivation that the conflict over version 2 of package 1 leads to is justified by what was learned
from it. -/
theorem resolveWithin_fourPackages_justified :
    ∃ d, .derivation d ∈ (resolveWithin 67 PackageTable.fourPackages.provider () 0
        1).2.state.solution.assignments ∧
      d.package = 1 ∧ d.term = .negative (.singleton 2) ∧ d.cause = 6 ∧
      d.JustifiedIn (resolveWithin 67 PackageTable.fourPackages.provider () 0 1).2.state := by
  have hproper := PackageTable.provider_answersProper PackageTable.fourPackages_proper
  have hlive : ∃ e ∈ (resolveWithin 67 PackageTable.fourPackages.provider () 0 1).2.state.solution.packages.entries,
      ∃ d ∈ e.2.derivations.toList, d.package = 1 ∧ d.term = .negative (.singleton 2) ∧ d.cause = 6 := by
    rw [PackageTable.fourPackages_ascending.provider_eq]
    decide +kernel
  obtain ⟨e, he, d, hd, hpackage, hterm, hcause⟩ := hlive
  have hmem : .derivation d ∈ e.2.assignments := List.mem_append_left _ (List.mem_map_of_mem hd)
  have hassignment : .derivation d ∈ (resolveWithin 67 PackageTable.fourPackages.provider () 0
      1).2.state.solution.assignments :=
    List.mem_mergeSort.mpr (List.mem_flatMap.mpr ⟨e, he, hmem⟩)
  exact ⟨d, hassignment, hpackage, hterm, hcause, (resolveWithin_justified hproper 67 () 0 1).1 d hassignment⟩

end DependencyResolution
