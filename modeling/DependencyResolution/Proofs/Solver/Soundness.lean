import DependencyResolution.Proofs.PackageTable
import DependencyResolution.Proofs.Solver.Registration

/-!
# Solutions are sound

What the provider says about a version is registered as a fact about its package (`Informed`), and a
fact about a decided package is contradicted as soon as propagation has looked at it; going back never
undoes that, because facts about a package are only added while it is not decided. So when no package
waits any more, nothing that the provider said excludes the decisions: `resolveWithin_sound`.
-/

namespace DependencyResolution

open Incompatibility

variable {σ P V S M π E : Type} [DecidableEq P] [DecidableEq S] [VersionSet S V] [LawfulVersionSet S V]

/-! ## Facts about decided packages -/

/-- A registered fact about a decided package is contradicted at the level of the decision, unless the
decision is the last one and propagation has not come to it yet. -/
structure Settled (s : SolverState P V S M) (t : List (Assignment P V S)) (φ : Phase P) : Prop where
  facts : ∀ d, .decision d ∈ t → ∀ n i, n ∈ s.store.idsFor d.package → s.store.get? n = some i →
    i.cause.subject = some d.package → i.ContradictedBy (Allows (upTo d.level t)) ∨
      d.level = s.solution.level ∧ (n ∈ φ.due s.store ∨ ∃ id changed, φ = .conflict id changed)
  derived : ∀ id, φ = .conflict id true →
    ∃ i first second, s.store.get? id = some i ∧ i.cause = .derived first second

variable {provider : Provider σ P V S M π E} {x y : Session σ P V S M π E} {t t' : List (Assignment P V S)}
  {φ φ' : Phase P}

section settled

variable {s : SolverState P V S M} {p : P} {versions : S}

omit [DecidableEq S] [LawfulVersionSet S V] in
theorem package_ne_of_isPending (h : s.solution.Trail t) (hp : s.solution.IsPending p versions)
    {d : Decision P V S} (hd : .decision d ∈ t) : d.package ≠ p := by
  rintro rfl
  obtain ⟨a, hpa, hnone, -⟩ := hp
  rw [(h.mem_decision_iff hpa).mpr ⟨hd, rfl⟩] at hnone
  cases hnone

theorem Settled.adds {s' : SolverState P V S M} {facts : List (Incompatibility P V S M)} {ids : List Nat}
    (h : Invariant s t) (hset : Settled s t .decide) (hp : s.solution.IsPending p versions)
    (hf : ∀ i ∈ facts, i.Restates ∧ i.cause.subject = some p) (hadds : Adds s facts s' ids)
    {d : Decision P V S} (hd : .decision d ∈ t) {n : Nat} {i : Incompatibility P V S M}
    (hn : n ∈ s'.store.idsFor d.package) (hi : s'.store.get? n = some i)
    (hsub : i.cause.subject = some d.package) : i.ContradictedBy (Allows (upTo d.level t)) := by
  obtain ⟨hn', hi'⟩ := hadds.old_of_subject h hf (package_ne_of_isPending h.trail hp hd) hn hi hsub
  rcases hset.facts d hd n i hn' hi' hsub with hcon | ⟨-, hdue | ⟨_, _, hc⟩⟩
  · exact hcon
  · cases hdue
  · cases hc

omit [DecidableEq S] in
/-- Deciding a package leaves the facts about it to the round that follows. -/
theorem Settled.decide {s' : SolverState P V S M} {v : V}
    (hold : ∀ d, .decision d ∈ t → ∀ n i, n ∈ s'.store.idsFor d.package → s'.store.get? n = some i →
      i.cause.subject = some d.package → i.ContradictedBy (Allows (upTo d.level t)))
    (hlevel : s'.solution.level = s.solution.level + 1) (hle : ∀ a ∈ t, a.level ≤ s.solution.level) :
    Settled s' (t ++ [.decision (s.solution.decision p v)]) (.round p) where
  facts d hd n i hn hi hsub := by
    rcases List.mem_append.mp hd with hd | hd
    · left
      have hlt : d.level < s.solution.level + 1 := Nat.lt_succ_of_le (hle _ hd)
      rw [upTo_append_of_lt (a := .decision (s.solution.decision p v)) hlt]
      exact hold d hd n i hn hi hsub
    · rw [List.mem_singleton, Assignment.decision.injEq] at hd
      subst hd
      exact Or.inr ⟨hlevel.symm, Or.inl hn⟩
  derived id hφ := by cases hφ

omit [DecidableEq S] in
theorem Settled.derive (hset : Settled s t φ) {solution : PartialSolution P V S}
    (hlevel : solution.level = s.solution.level) (n : Nat) (d : Derivation P S) :
    Settled ({ s with solution }.markContradicted n) (t ++ [.derivation d]) φ where
  facts e he n i hn hi hsub := by
    have het : .decision e ∈ t := by
      rcases List.mem_append.mp he with he | he
      · exact he
      · simp at he
    refine (hset.facts e het n i hn hi hsub).imp Invariant.contradictedBy_append fun hdue => ?_
    exact ⟨hdue.1.trans hlevel.symm, hdue.2⟩
  derived := hset.derived

omit [DecidableEq S] in
theorem Settled.of_due (hset : Settled s t φ) (hdue : ∀ n, n ∈ φ.due s.store → n ∈ φ'.due s.store)
    (hφ : ∀ id changed, φ ≠ .conflict id changed) (hφ' : ∀ id changed, φ' ≠ .conflict id changed) :
    Settled s t φ' where
  facts d hd n i hn hi hsub := by
    refine (hset.facts d hd n i hn hi hsub).imp_right fun hlater => ⟨hlater.1, Or.inl ?_⟩
    rcases hlater.2 with hn | ⟨id, changed, hconflict⟩
    · exact hdue n hn
    · exact absurd hconflict (hφ id changed)
  derived id h := absurd h (hφ' id true)

omit [DecidableEq S] in
/-- Propagation is done with an incompatibility that is contradicted, if it is a fact about a package
that is decided. -/
theorem Settled.scan {n : Nat} {rest : List Nat} {waiting waiting' : List P}
    (hset : Settled s t (.scan (n :: rest) waiting))
    (hn : ∀ d, .decision d ∈ t → d.level = s.solution.level → ∀ i, s.store.get? n = some i →
      i.cause.subject = some d.package → i.ContradictedBy (Allows (upTo d.level t))) :
    Settled s t (.scan rest waiting') where
  facts d hd m i hm hi hsub := by
    rcases hset.facts d hd m i hm hi hsub with hcon | ⟨hl, hdue | ⟨id, changed, hconflict⟩⟩
    · exact Or.inl hcon
    · rcases List.mem_cons.mp hdue with rfl | hdue
      · exact Or.inl (hn d hd hl i hi hsub)
      · exact Or.inr ⟨hl, Or.inl hdue⟩
    · cases hconflict
  derived id h := by cases h

theorem Settled.scan_marked (h : Invariant s t) {n : Nat} {rest : List Nat} {waiting waiting' : List P}
    (hset : Settled s t (.scan (n :: rest) waiting)) (hn : s.contradicted.contains n = true) :
    Settled s t (.scan rest waiting') := by
  refine hset.scan fun d hd hl i hi _ => ?_
  obtain ⟨j, hj, hcon⟩ := h.contradictedBy_of_contains hn
  rw [hi, Option.some.injEq] at hj
  subst hj
  rwa [h.trail.upTo_eq_self hl.ge]

omit [DecidableEq S] in
theorem Settled.conflict (hset : Settled s t φ) {id : Nat} {changed : Bool}
    (hderived : changed = true → ∃ i first second, s.store.get? id = some i ∧
      i.cause = .derived first second) : Settled s t (.conflict id changed) where
  facts d hd n i hn hi hsub :=
    (hset.facts d hd n i hn hi hsub).imp_right fun hdue => ⟨hdue.1, Or.inr ⟨id, changed, rfl⟩⟩
  derived id' h := by
    cases h
    exact hderived rfl

theorem Settled.alloc (h : Invariant s t) {id : Nat} {changed : Bool}
    (hset : Settled s t (.conflict id changed)) {r : Incompatibility P V S M} {first second : Nat}
    (hr : r.cause = .derived first second) :
    Settled { s with store := (s.store.alloc r).1 } t (.conflict s.store.size true) where
  facts d hd n i hn hi hsub := by
    obtain ⟨j, -, hj, -⟩ := h.indexed d.package n hn
    dsimp only at hi
    rw [Store.get?_alloc_of_some _ hj, Option.some.injEq] at hi
    subst hi
    exact (hset.facts d hd n j hn hj hsub).imp_right fun hdue => ⟨hdue.1, Or.inr ⟨_, _, rfl⟩⟩
  derived id' h := by
    cases h
    exact ⟨r, first, second, Store.get?_alloc_self s.store r, hr⟩

omit [DecidableEq S] in
theorem Settled.old_of_learned {id n : Nat} {changed : Bool} (hset : Settled s t (.conflict id changed))
    {i : Incompatibility P V S M}
    (hn : n ∈ (if changed then s.store.registered id else s.store).idsFor p)
    (hi : (if changed then s.store.registered id else s.store).get? n = some i)
    (hsub : i.cause.subject = some p) : n ∈ s.store.idsFor p ∧ s.store.get? n = some i := by
  cases changed with
  | false => exact ⟨hn, hi⟩
  | true =>
    refine ⟨?_, hi⟩
    rcases Store.mem_idsFor_registered.mp hn with hn | ⟨rfl, -⟩
    · exact hn
    · obtain ⟨j, first, second, hj, hcause⟩ := hset.derived n rfl
      rw [show s.store.get? n = some i from hi, Option.some.injEq] at hj
      subst hj
      rw [hcause] at hsub
      cases hsub

omit [DecidableEq S] in
/-- Facts about the packages that stay decided were contradicted at the level that is gone back to. -/
theorem Settled.learn {id : Nat} {changed : Bool} (hset : Settled s t (.conflict id changed)) {l : Nat}
    (hl : l < s.solution.level) (solution : PartialSolution P V S) (q : P) :
    Settled { { s with solution }.forgetAbove l with
      store := if changed then s.store.registered id else s.store } (upTo l t) (.learned q id) where
  facts d hd n i hn hi hsub := by
    obtain ⟨hdt, hdl⟩ := mem_upTo_iff.mp hd
    obtain ⟨hn, hi⟩ := hset.old_of_learned hn hi hsub
    rcases hset.facts d hdt n i hn hi hsub with hcon | ⟨hlevel, -⟩
    · left
      rwa [upTo_upTo (show d.level ≤ l from hdl)]
    · simp only [Assignment.level] at hdl
      omega
  derived id' h := by cases h

end settled

omit [DecidableEq S] in
theorem Settled.opened (s : SolverState P V S M) (root : P) (version : V) :
    Settled s [.derivation (rootDerivation root version)] (.scan [] [root]) where
  facts d hd := by simp at hd
  derived id hφ := by cases hφ

/-- A step settles facts about decided packages, or leaves them as they are. -/
theorem Advance.settled (h : Invariant x.state t) (h' : Invariant y.state t')
    (hproper : provider.AnswersProper) (hset : Settled x.state t φ)
    (hstep : Advance provider x t φ y t' φ') : Settled y.state t' φ' := by
  cases hstep with
  | turn hturn hs _ =>
    rw [hs]
    refine hset.of_due (fun n => hturn.due_of_due) ?_ ?_
    · rintro id changed rfl
      cases hturn
    · rintro id changed rfl
      cases hturn
  | skip hc => exact hset.scan_marked h hc
  | wait _ hi hopen =>
    refine hset.scan fun d hd _ i hi' hsub => ?_
    rw [hi, Option.some.injEq] at hi'
    subst hi'
    exact absurd hopen ((h.wellFormed _ _ hi).not_openTwice hsub fun z =>
      (h.trail.holds_exact_iff h.properTrail hd z).symm)
  | @mark _ id rest waiting _ hi hcon hs _ =>
    rw [hs]
    have hmarked : Settled (x.state.markContradicted id) t (.scan (id :: rest) waiting) :=
      ⟨hset.facts, hset.derived⟩
    refine hmarked.scan fun d _ hl i hi' _ => ?_
    have hii : i = _ := Option.some.inj (hi'.symm.trans hi)
    rw [hii, h.trail.upTo_eq_self hl.ge]
    exact hcon
  | @derive _ id _ _ _ _ _ _ _ _ _ _ hsol hs _ =>
    rw [hs] at h' ⊢
    refine (hset.derive (PartialSolution.level_of_derive hsol) id _).scan_marked h' ?_
    simp [SolverState.markContradicted, OrderedMap.contains, OrderedMap.get?_insert]
  | clash _ _ _ => exact hset.conflict fun hfalse => by cases hfalse
  | resolve _ _ _ _ hr hs _ =>
    rw [hs]
    obtain ⟨_, _, -, -, hcause, -⟩ := get?_resolvent hr
    exact hset.alloc h hcause
  | learn _ hb _ hlt _ _ hs _ =>
    rw [hs]
    exact hset.learn (hlt.trans_le (h.trail.level_le _ hb.first.mem)) _ _
  | learned _ _ _ hsol hs _ =>
    rw [hs]
    refine (hset.derive (PartialSolution.level_of_derive hsol) _ _).of_due (fun n hn => ?_) (by simp)
      (by simp)
    cases hn
  | missing hp _ hs _ _ =>
    refine ⟨fun d hd n i hn hi hsub => Or.inl ?_, fun id hφ' => by cases hφ'⟩
    exact hset.adds h hp (List.forall_mem_singleton.mpr ⟨h.restates_missing hp, rfl⟩)
      (.cons hs (.nil _)) hd hn hi hsub
  | unusable hp _ _ _ hs _ _ =>
    refine ⟨fun d hd n i hn hi hsub => Or.inl ?_, fun id hφ' => by cases hφ'⟩
    exact hset.adds h hp (List.forall_mem_singleton.mpr ⟨.unusable _ _ _, rfl⟩) (.cons hs (.nil _)) hd
      hn hi hsub
  | refused hp _ hc hd' hs _ _ _ _ _ =>
    refine ⟨fun d hd n i hn hi hsub => Or.inl ?_, fun id hφ' => by cases hφ'⟩
    exact hset.adds h hp (fun j hj => ⟨hproper.restates hc hd' j hj, subject_of_mem_dependencyFacts hj⟩) hs hd
      hn hi hsub
  | decided hp _ hc hd' hadds hsol hs _ _ =>
    rw [hs]
    refine Settled.decide (fun d hd n i hn hi hsub => ?_) (PartialSolution.level_of_decide hsol)
      h.trail.level_le
    exact hset.adds h hp (fun j hj => ⟨hproper.restates hc hd' j hj, subject_of_mem_dependencyFacts hj⟩)
      hadds hd hn hi hsub
  | again hp _ _ _ _ hsol hs _ _ =>
    rw [hs]
    refine Settled.decide (fun d hd n i hn hi hsub => ?_) (PartialSolution.level_of_decide hsol)
      h.trail.level_le
    exact hset.adds h hp (fun j (hj : j ∈ []) => by cases hj) (.nil _) hd hn hi hsub

/-! ## Solutions -/

section solutions

omit [DecidableEq S] [VersionSet S V] [LawfulVersionSet S V] in
theorem PartialSolution.entries_solution (s : PartialSolution P V S) :
    s.solution.entries =
      s.packages.entries.filterMap fun e => e.2.decision.map fun d => (e.1, d.version) := by
  refine OrderedMap.entries_ofList ?_
  have hnodup := s.packages.nodup
  rw [List.Nodup, List.pairwise_map] at hnodup ⊢
  refine List.Pairwise.filterMap _ (fun e e' hne b hb b' hb' => ?_) hnodup
  obtain ⟨d, -, rfl⟩ := Option.map_eq_some_iff.mp hb
  obtain ⟨d', -, rfl⟩ := Option.map_eq_some_iff.mp hb'
  exact hne

omit [DecidableEq S] [VersionSet S V] [LawfulVersionSet S V] in
theorem PartialSolution.get?_solution_eq_some_iff {s : PartialSolution P V S} {p : P} {v : V} :
    s.solution.get? p = some v ↔
      ∃ a d, s.packages.get? p = some a ∧ a.decision = some d ∧ d.version = v := by
  rw [OrderedMap.get?_eq_some_iff, s.entries_solution, List.mem_filterMap]
  constructor
  · rintro ⟨⟨q, a⟩, hentry, hmap⟩
    obtain ⟨d, hd, heq⟩ := Option.map_eq_some_iff.mp hmap
    cases heq
    exact ⟨a, d, s.packages.get?_eq_some_iff.mpr hentry, hd, rfl⟩
  · rintro ⟨a, d, ha, hd, rfl⟩
    exact ⟨(p, a), s.packages.get?_eq_some_iff.mp ha, Option.map_eq_some_iff.mpr ⟨d, hd, rfl⟩⟩

omit [DecidableEq S] [LawfulVersionSet S V] in
theorem PartialSolution.Trail.mem_decision_of_solution {s : PartialSolution P V S} (h : s.Trail t) {p : P}
    {v : V} (hv : s.solution.get? p = some v) :
    ∃ d, .decision d ∈ t ∧ d.package = p ∧ d.version = v := by
  obtain ⟨a, d, ha, hd, rfl⟩ := PartialSolution.get?_solution_eq_some_iff.mp hv
  obtain ⟨hmem, hp⟩ := (h.mem_decision_iff ha).mp hd
  exact ⟨d, hmem, hp, rfl⟩

omit [DecidableEq S] in
/-- When no package waits, what is selected and nothing else is allowed. -/
theorem PartialSolution.Trail.allows_solution {s : PartialSolution P V S} (h : s.Trail t)
    (hp : ProperTrail t) (hpending : s.pending = []) (p : P) :
    Allows t p (Value.ofOption (s.solution.get? p)) := by
  cases hv : s.solution.get? p with
  | some v =>
    obtain ⟨d, hd, rfl, rfl⟩ := h.mem_decision_of_solution hv
    exact (h.holds_exact_iff hp hd _).mp (Term.holds_exact_ofVersion d.version)
  | none =>
    cases ha : s.packages.get? p with
    | none => exact fun a hat hap => absurd hap (h.absent_iff.mp ha a hat)
    | some a =>
      have hnone : a.decision = none := by
        rw [Option.eq_none_iff_forall_ne_some]
        intro d hd
        rw [PartialSolution.get?_solution_eq_some_iff.mpr ⟨a, d, ha, hd, rfl⟩] at hv
        cases hv
      refine (h.holds_derived_iff hp ha hnone _).mp ?_
      cases hderived : a.derived with
      | negative versions => trivial
      | positive versions =>
        have hwaits := List.filterMap_eq_nil_iff.mp hpending _ (s.packages.get?_eq_some_iff.mp ha)
        dsimp only at hwaits
        rw [hnone, hderived] at hwaits
        cases hwaits

theorem Incompatibility.Covers.holdsIn {k j : Incompatibility P V S M} (h : Covers k j)
    {w : World P S V} (hj : j.HoldsIn w) : k.HoldsIn w := by
  cases h with
  | refl => exact hj
  | @more _ _ p needed v w' allowed hne hw hv hle hj' hk =>
    intro q u hu
    rw [get?_ofDependency hne hk] at hu
    split_ifs at hu with hq hq'
    · cases hu
      subst hq
      have hp := hj q _ (by rw [get?_ofDependency hne hj', if_pos rfl])
      cases hx : w q with
      | none =>
        rw [hx] at hp
        exact absurd hp id
      | some y =>
        rw [hx] at hp
        exact hle y hp
    · cases hu
      exact hj q _ (by rw [get?_ofDependency hne hj', if_neg hq, if_pos hq'])

/-- A fact about a selected package does not hold of the solution. -/
theorem Settled.not_holdsIn {s : SolverState P V S M} (h : Invariant s t) (hset : Settled s t .decide)
    (hpending : s.solution.pending = []) {d : Decision P V S} (hd : .decision d ∈ t)
    {i : Incompatibility P V S M} (hi : s.store.Registers d.package i)
    (hsub : i.cause.subject = some d.package) :
    ¬ i.HoldsIn fun p => Value.ofOption (s.solution.solution.get? p) := by
  obtain ⟨n, k, hn, hk, hcov⟩ := hi
  rcases hset.facts d hd n k hn hk (hcov.subject.trans hsub) with hcon | ⟨-, hdue | ⟨_, _, hφ⟩⟩
  · obtain ⟨q, u, hu, hex⟩ := hcon
    intro hholds
    have hallows := h.trail.allows_solution h.properTrail hpending q
    exact hex _ (allows_upTo hallows) (hcov.holdsIn hholds q u hu)
  · cases hdue
  · cases hφ

/-- What a session says in favour of a version that is selected. -/
structure Session.Supports (x : Session σ P V S M π E) (solution : OrderedMap P V) (p : P) (v : V) :
    Prop where
  retrieved : ∃ requirements, .retrieved p v (.ok (.available requirements)) ∈ x.events
  satisfied : ∀ requirements, .retrieved p v (.ok (.available requirements)) ∈ x.events →
    ∀ needed allowed, requirements.get? needed = some allowed →
      ∃ w, solution.get? needed = some w ∧ VersionSet.contains allowed w = true
  usable : ∀ reason, .retrieved p v (.ok (.unavailable reason)) ∉ x.events
  offered : ∀ versions, .chose p versions (.ok none) ∈ x.events → VersionSet.contains versions v = false

omit [DecidableEq S] [LawfulVersionSet S V] in
theorem Session.Supports.of_quiet {solution : OrderedMap P V} {p : P} {v : V}
    (h : x.Supports solution p v) (hq : x.Quiet y) : y.Supports solution p v := by
  obtain ⟨requirements, hretrieved⟩ := h.retrieved
  exact
    { retrieved := ⟨requirements, (hq.mem_events_iff rfl).mpr hretrieved⟩
      satisfied := fun requirements he => h.satisfied requirements ((hq.mem_events_iff rfl).mp he)
      usable := fun reason he => h.usable reason ((hq.mem_events_iff rfl).mp he)
      offered := fun versions he => h.offered versions ((hq.mem_events_iff rfl).mp he) }

/-- What the provider said supports every version that is selected. -/
theorem Informed.supports (h : Invariant x.state t) (hproper : provider.AnswersProper)
    (hset : Settled x.state t .decide) (hinf : Informed provider x t)
    (hpending : x.state.solution.pending = []) {p : P} {v : V}
    (hv : x.state.solution.solution.get? p = some v) :
    x.Supports x.state.solution.solution p v := by
  obtain ⟨d, hd, rfl, rfl⟩ := h.trail.mem_decision_of_solution hv
  set w : World P S V := fun q => Value.ofOption (x.state.solution.solution.get? q) with hw
  have hwd : w d.package = Value.ofVersion d.version := congrArg Value.ofOption hv
  have hself : (Term.exact d.version : Term S).Holds (w d.package) := by
    rw [hwd]
    exact Term.holds_exact_ofVersion _
  have hnot : ∀ e ∈ x.answers, (∀ i ∈ e.facts, i.cause.subject = some d.package) → ¬ e.Refutes w :=
    fun e he hsub hrefutes => by
      obtain ⟨i, hi, hholds⟩ := hrefutes
      exact hset.not_holdsIn h hpending hd (hinf.said e he i hi _ (hsub i hi)) (hsub i hi) hholds
  have husable : ∀ reason, .retrieved d.package d.version (.ok (.unavailable reason)) ∉ x.answers :=
    fun reason he => hnot _ he (List.forall_mem_singleton.mpr rfl) (Event.refutes_unavailable.mpr hself)
  refine ⟨?_, fun requirements he needed allowed hreq => ?_, fun reason he => ?_, fun versions he => ?_⟩
  · obtain ⟨answer, he⟩ := hinf.tried _ _ (hinf.decided d hd)
    cases answer with
    | available requirements => exact ⟨requirements, (Session.mem_answers_iff rfl).mp he⟩
    | unavailable reason => exact absurd he (husable reason)
  · rw [← Session.mem_answers_iff rfl] at he
    obtain ⟨hchosen, hd'⟩ := hinf.answered _ he
    have hrefutes := hnot _ he fun i => subject_of_mem_dependencyFacts
    rw [Event.refutes_available (hproper _ _ _ hchosen hd')] at hrefutes
    have hneeded : (Term.positive allowed).Holds (w needed) := by
      by_contra hc
      exact hrefutes ⟨hself, needed, allowed, hreq, hc⟩
    rw [hw] at hneeded
    dsimp only at hneeded
    cases hget : x.state.solution.solution.get? needed with
    | none =>
      rw [hget] at hneeded
      exact absurd hneeded id
    | some v =>
      rw [hget] at hneeded
      exact ⟨v, rfl, (Term.contains_iff_holds (.positive allowed) v).mpr hneeded⟩
  · exact husable reason ((Session.mem_answers_iff rfl).mpr he)
  · rw [← Session.mem_answers_iff rfl] at he
    have hrefutes := hnot _ he (List.forall_mem_singleton.mpr rfl)
    rw [Event.refutes_missing, hwd] at hrefutes
    rw [← Bool.not_eq_true]
    exact fun hin => hrefutes ((Term.contains_iff_holds (.positive versions) _).mp hin)

theorem Invariant.get?_root {s : SolverState P V S M} (h : Invariant s t)
    (hpending : s.solution.pending = []) : s.solution.solution.get? s.root = some s.rootVersion := by
  have hroot := h.exact_of_allows (h.trail.allows_solution h.properTrail hpending s.root)
  cases hget : s.solution.solution.get? s.root with
  | none =>
    rw [hget] at hroot
    exact absurd hroot id
  | some v =>
    rw [hget] at hroot
    have hv := (Term.contains_iff_holds (.exact s.rootVersion) v).mpr hroot
    rw [(LawfulVersionSet.contains_singleton s.rootVersion v).mp hv]

variable [DecidableEq V] [LT π] [DecidableLT π]

/-- A solution selects the root at its version, and the provider's answers in the run support every
version that it selects: the version is available, and what it depends on is selected too. -/
theorem resolveWithin_sound (hproper : provider.AnswersProper) {steps : Nat} {client : σ} {root : P}
    {version : V} {solution : OrderedMap P V}
    (h : resolveWithin steps provider client root version = (.ok solution, x)) :
    solution.get? root = some version ∧
      ∀ p v, solution.get? p = some v → x.Supports solution p v := by
  refine resolveWithin_ok (F := fun _ => True) (Q := fun solution x =>
    solution.get? root = some version ∧ ∀ p v, solution.get? p = some v → x.Supports solution p v) ?_ h
  refine Solving.ensures_run (I := fun x t φ => (x.state.root = root ∧ x.state.rootVersion = version) ∧
    Settled x.state t φ ∧ Informed provider x t) hproper ?_ ?_ ?_ (fun _ _ _ _ => trivial)
    (fun _ _ => trivial) trivial client steps
  · intro x hx
    refine ⟨?_, .opened _ root version, .opened hx⟩
    rw [hx.state]
    exact ⟨rfl, rfl⟩
  · rintro x y t t' φ φ' hinv hφ ⟨⟨hroot, hversion⟩, hset, hinf⟩ hstep
    obtain ⟨hroot', hversion'⟩ := hstep.root_eq
    exact ⟨⟨hroot'.trans hroot, hversion'.trans hversion⟩,
      hstep.settled hinv (hstep.invariant hinv hφ hproper) hproper hset, hstep.informed hinv hproper hinf⟩
  · rintro x y t hinv hφ ⟨⟨rfl, rfl⟩, hset, hinf⟩ hpending hs hq
    refine ⟨hinv.get?_root hpending, fun p v hv => ?_⟩
    exact (hinf.supports hinv hproper hset hpending hv).of_quiet hq

end solutions

/-- A run that finds a solution, in which the first package needs the second. -/
theorem resolveWithin_twoPackages_three : ∃ solution x,
    resolveWithin 25 (PackageTable.twoPackages 3).provider () 0 1 = (.ok solution, x) ∧
      solution.get? 0 = some 1 ∧ solution.get? 1 = some 3 ∧
      ∀ p v, solution.get? p = some v → x.Supports solution p v := by
  have hrun : resolveWithin 25 (PackageTable.twoPackages 3).provider () 0 1 =
      (.ok ((OrderedMap.single 0 1).insert 1 3),
        (resolveWithin 25 (PackageTable.twoPackages 3).provider () 0 1).2) :=
    Prod.ext (by decide +kernel) rfl
  obtain ⟨hroot, hsupports⟩ :=
    resolveWithin_sound (PackageTable.provider_answersProper (PackageTable.twoPackages_proper 3)) hrun
  exact ⟨_, _, hrun, hroot, rfl, hsupports⟩

end DependencyResolution
