import DependencyResolution.Proofs.Explanation.Graph
import DependencyResolution.Proofs.Solver.Conflict
import DependencyResolution.Proofs.Solver.Insertion

/-!
# The invariant of a run

`Invariant s t` says of a state and its trail that the store is well formed and listed in the index,
that causes were stored before what was derived from them, that something is still allowed of every package, that every derivation is justified by its cause, that
what is marked as contradicted is contradicted, and that the trail begins with the root. It holds from
the first derivation on, and every change that the solver makes to its state preserves it.
-/

namespace DependencyResolution

variable {P V S M : Type} [DecidableEq P] [DecidableEq S] [VersionSet S V] [LawfulVersionSet S V]

open Incompatibility

namespace PartialSolution

def derivation (s : PartialSolution P V S) (p : P) (u : Term S) (c : Nat) : Derivation P S :=
  ⟨p, u, c, s.level, s.nextIndex, s.narrowed p u⟩

def decision (s : PartialSolution P V S) (p : P) (v : V) : Decision P V S :=
  ⟨p, v, .exact v, s.level + 1, s.nextIndex⟩

end PartialSolution

/-- What holds of the state of a run and of its trail. -/
structure Invariant (s : SolverState P V S M) (t : List (Assignment P V S)) : Prop where
  trail : s.solution.Trail t
  consistent : Consistent (Allows t)
  wellFormed : ∀ n i, s.store.get? n = some i → i.WellFormed
  derived : ∀ n i first second, s.store.get? n = some i → i.cause = .derived first second →
    first < n ∧ second < n
  indexed : ∀ p n, n ∈ s.store.idsFor p → ∃ i u, s.store.get? n = some i ∧ i.get? p = some u
  merged : s.MergedValid
  justified : ∀ d, .derivation d ∈ t → ∃ c, s.store.get? d.cause = some c ∧ c.Justifies t d
  inert : ∀ n l, s.contradicted.get? n = some l →
    l ≤ s.solution.level ∧ ∃ i, s.store.get? n = some i ∧ i.ContradictedBy (Allows (upTo l t))
  rooted : ∃ d rest, t = .derivation d :: rest ∧ d.package = s.root ∧
    d.term = .exact s.rootVersion ∧ d.level = 0
  rootFirst : ∀ d, .decision d ∈ t → d.level = 1 → d.package = s.root

namespace Invariant

variable {s : SolverState P V S M} {t : List (Assignment P V S)} {i : Incompatibility P V S M} {id n : Nat}
  {p : P} {u : Term S}

/-! ## Consequences -/

theorem isContingent (h : Invariant s t) (hi : s.store.get? n = some i) : i.IsContingent :=
  (h.wellFormed n i hi).isContingent

theorem properTrail (h : Invariant s t) : ProperTrail t := by
  intro a ha
  cases a with
  | derivation d =>
    obtain ⟨c, hc, hj⟩ := h.justified d ha
    have hproper := (h.isContingent hc _ _ hj.term).proper.negate
    rwa [Term.negate_negate] at hproper
  | decision d =>
    obtain ⟨-, -, -, -, -, hterm⟩ := h.trail.decision_term ha
    change d.term.IsProper
    rw [hterm]
    exact Term.isProper_exact _

theorem satisfiedBy_resolvent (h : Invariant s t) (hi : s.store.get? id = some i) {d : Derivation P S}
    (hb : i.LastSatisfied t p u (.derivation d)) {c r : Incompatibility P V S M} {first second : Nat}
    (hc : s.store.get? d.cause = some c) (hr : i.resolvent c first second p = .ok r) :
    r.SatisfiedBy (Allows (before d.index t)) := by
  obtain ⟨c', hc', hj⟩ := h.justified d hb.first.mem
  rw [hc, Option.some.injEq] at hc'
  subst hc'
  exact Incompatibility.satisfiedBy_resolvent h.trail (h.isContingent hi).isProper
    (h.isContingent hc).isProper hb hj hr

theorem describes (h : Invariant s t) : Describes s.solution.term? (Allows t) :=
  h.trail.describes h.properTrail h.consistent

/-- The decision of level 1 comes after the root was narrowed down to its version. -/
theorem exists_before_first (h : Invariant s t) (d : Decision P V S) (hd : .decision d ∈ t)
    (hl : d.level = 1) :
    ∃ e ∈ t, e.package = d.package ∧ e.index < d.index ∧ ∃ v, e.term = .exact v := by
  obtain ⟨e, rest, ht, hep, hterm, -⟩ := h.rooted
  refine ⟨.derivation e, by rw [ht]; exact List.mem_cons_self, hep.trans (h.rootFirst d hd hl).symm, ?_,
    _, hterm⟩
  have hpair := h.trail.ordered
  rw [ht] at hd hpair
  rw [List.mem_cons] at hd
  rcases hd with hd | hd
  · cases hd
  · exact ((List.pairwise_cons.mp hpair).1 _ hd).1

theorem isDecided_eq_false (h : Invariant s t) (hu : u.IsProper) (hent : ¬ Entails (Allows t) p u)
    (hex : ¬ Excludes (Allows t) p u) : s.solution.isDecided p = false := by
  rw [PartialSolution.isDecided_eq_false_iff]
  intro a ha
  by_contra hsome
  obtain ⟨d, hdec⟩ := Option.ne_none_iff_exists'.mp hsome
  obtain ⟨hd, rfl⟩ := (h.trail.mem_decision_iff ha).mp hdec
  have hiff := h.trail.holds_exact_iff h.properTrail hd
  by_cases hin : u.contains d.version = true
  · exact hent fun x hx => (Term.holds_iff_of_holds_exact ((hiff x).mpr hx) hu).mpr hin
  · exact hex fun x hx hux => hin ((Term.holds_iff_of_holds_exact ((hiff x).mpr hx) hu).mp hux)

theorem contradictedBy_of_contains (h : Invariant s t) (hn : s.contradicted.contains n = true) :
    ∃ i, s.store.get? n = some i ∧ i.ContradictedBy (Allows t) := by
  obtain ⟨l, hl⟩ := (OrderedMap.contains_iff _).mp hn
  obtain ⟨-, i, hi, hcon⟩ := h.inert n l hl
  exact ⟨i, hi, hcon.mono fun _ _ => allows_upTo⟩

theorem build_eq_ok (h : Invariant s t) (hi : s.store.get? id = some i) :
    Explanation.build s.store id = .ok (.ofStore s.store id) := by
  refine Explanation.build_eq_ok (fun n c hc => ?_) (Store.lt_size hi)
  obtain ⟨j, first, second, hj, hcause, hfirst | hsecond⟩ := Store.mem_causesOf_iff.mp hc
  · exact hfirst ▸ (h.derived n j first second hj hcause).1
  · exact hsecond ▸ (h.derived n j first second hj hcause).2

/-! ## Marking -/

theorem markContradicted (h : Invariant s t) (hi : s.store.get? id = some i)
    (hcon : i.ContradictedBy (Allows t)) : Invariant (s.markContradicted id) t :=
  { h with
    inert := by
      intro n l hl
      simp only [SolverState.markContradicted] at hl ⊢
      rw [OrderedMap.get?_insert] at hl
      split_ifs at hl with hn
      · cases hl
        subst hn
        exact ⟨le_rfl, i, hi, by rwa [h.trail.upTo_eq_self le_rfl]⟩
      · exact h.inert n l hl }

/-! ## Growing the trail -/

omit [DecidableEq S] in
theorem justifies_append {c : Incompatibility P V S M} {d : Derivation P S} {a : Assignment P V S}
    (hj : c.Justifies t d) (hle : d.index ≤ a.index) : c.Justifies (t ++ [a]) d := by
  refine ⟨hj.term, ?_, ?_⟩
  · rw [before_append_of_le hle]
    exact hj.others
  · rw [before_append_of_le hle]
    exact hj.narrows

omit [DecidableEq S] in
theorem contradictedBy_append {a : Assignment P V S} {l : Nat}
    (hcon : i.ContradictedBy (Allows (upTo l t))) : i.ContradictedBy (Allows (upTo l (t ++ [a]))) :=
  hcon.mono fun q x hx => hx.mono fun b hb => by
    rw [mem_upTo_iff] at hb ⊢
    exact ⟨List.mem_append_left _ hb.1, hb.2⟩

theorem exists_derive (h : Invariant s t) (hi : s.store.get? id = some i) (hu : i.get? p = some u)
    (halmost : i.AlmostSatisfiedBy (Allows t) p) :
    ∃ solution, s.solution.derive p u.negate id = .ok solution := by
  obtain ⟨⟨u', hu', hent, hex⟩, -⟩ := halmost
  rw [hu, Option.some.injEq] at hu'
  subst hu'
  have hproper := (h.isContingent hi p u hu).proper
  exact h.trail.exists_derive (h.isDecided_eq_false hproper hent hex) _ _

theorem derive (h : Invariant s t) (hi : s.store.get? id = some i) (hu : i.get? p = some u)
    (halmost : i.AlmostSatisfiedBy (Allows t) p) {solution : PartialSolution P V S}
    (hok : s.solution.derive p u.negate id = .ok solution) :
    Invariant ({ s with solution }.markContradicted id)
      (t ++ [.derivation (s.solution.derivation p u.negate id)]) := by
  obtain ⟨⟨u', hu', hent, hex⟩, hothers⟩ := halmost
  rw [hu, Option.some.injEq] at hu'
  subst hu'
  have hlevel := PartialSolution.level_of_derive hok
  have hbefore : before s.solution.nextIndex
      (t ++ [.derivation (s.solution.derivation p u.negate id)]) = t := by
    rw [before_append_of_le (le_refl s.solution.nextIndex), h.trail.before_eq_self]
  have hnew : i.Justifies (t ++ [.derivation (s.solution.derivation p u.negate id)])
      (s.solution.derivation p u.negate id) := by
    refine ⟨?_, ?_, ?_⟩
    · rw [PartialSolution.derivation, Term.negate_negate]
      exact hu
    · intro q w hw hq
      change Entails (Allows (before s.solution.nextIndex _)) q w
      rw [hbefore]
      exact hothers q w hw hq
    · change ¬ Entails (Allows (before s.solution.nextIndex _)) p u.negate
      rw [hbefore]
      exact fun hc => hex fun x hx => (Term.holds_negate u x).mp (hc x hx)
  have hgrown : Invariant { s with solution }
      (t ++ [.derivation (s.solution.derivation p u.negate id)]) :=
    { trail := h.trail.derive hok
      consistent := by
        intro q
        by_cases hq : q = p
        · subst hq
          simp only [Entails, not_forall] at hent
          obtain ⟨x, hx, hux⟩ := hent
          exact ⟨x, allows_append_singleton.mpr ⟨hx, fun _ => (Term.holds_negate u x).mpr hux⟩⟩
        · obtain ⟨x, hx⟩ := h.consistent q
          exact ⟨x, allows_append_singleton.mpr ⟨hx, fun hp => absurd hp.symm hq⟩⟩
      wellFormed := h.wellFormed
      derived := h.derived
      indexed := h.indexed
      merged := h.merged
      justified := by
        intro d hd
        rcases List.mem_append.mp hd with hd | hd
        · obtain ⟨c, hc, hj⟩ := h.justified d hd
          exact ⟨c, hc, justifies_append hj (h.trail.index_lt _ hd).le⟩
        · rw [List.mem_singleton, Assignment.derivation.injEq] at hd
          subst hd
          exact ⟨i, hi, hnew⟩
      inert := by
        intro n l hl
        obtain ⟨hle, j, hj, hcon⟩ := h.inert n l hl
        exact ⟨hlevel ▸ hle, j, hj, contradictedBy_append hcon⟩
      rooted := by
        obtain ⟨d, rest, ht, hd⟩ := h.rooted
        exact ⟨d, _, by rw [ht]; rfl, hd⟩
      rootFirst := by
        intro d hd
        rcases List.mem_append.mp hd with hd | hd
        · exact h.rootFirst d hd
        · simp at hd }
  -- the new assignment is what contradicts the incompatibility, so it is marked last
  refine hgrown.markContradicted hi ⟨p, u, hu, fun x hx hux => ?_⟩
  exact (Term.holds_negate u x).mp ((allows_append_singleton.mp hx).2 rfl) hux

/-- Deciding a package that may be decided; the first one is the root. -/
theorem decide (h : Invariant s t) {v : V} {solution : PartialSolution P V S}
    (hok : s.solution.decide p v = .ok solution) (hroot : s.solution.level = 0 → p = s.root) :
    Invariant { s with solution } (t ++ [.decision (s.solution.decision p v)]) := by
  obtain ⟨a, ha, hnone, -, hin, -⟩ := PartialSolution.decide_eq_ok_iff.mp hok
  have hlevel := PartialSolution.level_of_decide hok
  exact
    { trail := h.trail.decide hok
      consistent := by
        intro q
        by_cases hq : q = p
        · subst hq
          refine ⟨Value.ofVersion v, allows_append_singleton.mpr ⟨?_, fun _ => ?_⟩⟩
          · rw [← h.trail.holds_derived_iff h.properTrail ha hnone]
            exact (Term.contains_iff_holds _ v).mp hin
          · exact Term.holds_exact_ofVersion v
        · obtain ⟨x, hx⟩ := h.consistent q
          exact ⟨x, allows_append_singleton.mpr ⟨hx, fun hp => absurd hp.symm hq⟩⟩
      wellFormed := h.wellFormed
      derived := h.derived
      indexed := h.indexed
      merged := h.merged
      justified := by
        intro d hd
        rcases List.mem_append.mp hd with hd | hd
        · obtain ⟨c, hc, hj⟩ := h.justified d hd
          exact ⟨c, hc, justifies_append hj (h.trail.index_lt _ hd).le⟩
        · simp at hd
      inert := by
        intro n l hl
        obtain ⟨hle, j, hj, hcon⟩ := h.inert n l hl
        exact ⟨hlevel ▸ Nat.le_succ_of_le hle, j, hj, contradictedBy_append hcon⟩
      rooted := by
        obtain ⟨d, rest, ht, hd⟩ := h.rooted
        exact ⟨d, _, by rw [ht]; rfl, hd⟩
      rootFirst := by
        intro d hd hl
        rcases List.mem_append.mp hd with hd | hd
        · exact h.rootFirst d hd hl
        · rw [List.mem_singleton, Assignment.decision.injEq] at hd
          subst hd
          refine hroot ?_
          simp only [PartialSolution.decision] at hl
          omega }

/-! ## Going back -/

/-- Going back to a level forgets what came above it. -/
theorem backtrack (h : Invariant s t) {l : Nat} (hl : l ≤ s.solution.level)
    {solution : PartialSolution P V S} (hok : s.solution.backtrack l = .ok solution) :
    solution.level = l ∧ Invariant ({ s with solution }.forgetAbove l) (upTo l t) := by
  obtain ⟨solution', hok', htrail, hlevel, -⟩ := h.trail.backtrack hl
  rw [hok, Except.ok.injEq] at hok'
  subst hok'
  refine ⟨hlevel, ?_⟩
  exact
    { trail := htrail
      consistent := fun q => (h.consistent q).imp fun _ => allows_upTo
      wellFormed := h.wellFormed
      derived := h.derived
      indexed := h.indexed
      merged := h.merged
      justified := by
        intro d hd
        -- what comes before an assignment that stays is never above the level
        obtain ⟨hdt, hdl⟩ := mem_upTo_iff.mp hd
        obtain ⟨c, hc, hj⟩ := h.justified d hdt
        have hsame : before d.index (upTo l t) = before d.index t := h.trail.before_upTo hdt hdl
        refine ⟨c, hc, hj.term, ?_, ?_⟩
        · rw [hsame]
          exact hj.others
        · rw [hsame]
          exact hj.narrows
      inert := by
        intro n k hk
        simp only [SolverState.forgetAbove] at hk ⊢
        rw [OrderedMap.get?_filter, Option.filter_eq_some_iff, decide_eq_true_eq] at hk
        obtain ⟨-, j, hj, hcon⟩ := h.inert n k hk.1
        refine ⟨hlevel ▸ hk.2, j, hj, ?_⟩
        rwa [upTo_upTo hk.2]
      rooted := by
        obtain ⟨d, rest, ht, hp, hterm, hd⟩ := h.rooted
        refine ⟨d, upTo l rest, ?_, hp, hterm, hd⟩
        rw [ht]
        exact List.filter_cons_of_pos (by simp [Assignment.level, hd])
      rootFirst := fun d hd => h.rootFirst d (mem_upTo_iff.mp hd).1 }

/-! ## The store -/

theorem register (h : Invariant s t) (hi : s.store.get? id = some i) :
    Invariant { s with store := s.store.registered id } t :=
  { h with
    indexed := by
      intro q n hn
      rcases Store.mem_idsFor_registered.mp hn with hn | ⟨rfl, j, w, hj, hw⟩
      · exact h.indexed q n hn
      · exact ⟨j, w, hj, hw⟩ }

theorem alloc (h : Invariant s t) (hi : i.WellFormed)
    (hc : ∀ first second, i.cause = .derived first second → first < s.store.size ∧ second < s.store.size) :
    Invariant { s with store := (s.store.alloc i).1 } t where
  trail := h.trail
  consistent := h.consistent
  wellFormed n j hj := by
    dsimp only at hj
    rw [Store.get?_alloc] at hj
    split_ifs at hj
    · cases hj
      exact hi
    · exact h.wellFormed n j hj
  derived n j first second hj hcause := by
    dsimp only at hj
    rw [Store.get?_alloc] at hj
    split_ifs at hj with hn
    · cases hj
      exact hn ▸ hc first second hcause
    · exact h.derived n j first second hj hcause
  indexed q n hn := by
    obtain ⟨j, w, hj, hw⟩ := h.indexed q n hn
    exact ⟨j, w, Store.get?_alloc_of_some i hj, hw⟩
  merged pair ids hids n hn :=
    (h.merged pair ids hids n hn).mono fun _ _ hj => Store.get?_alloc_of_some i hj
  justified d hd := by
    obtain ⟨c, hc, hj⟩ := h.justified d hd
    exact ⟨c, Store.get?_alloc_of_some i hc, hj⟩
  inert n l hl := by
    obtain ⟨hle, j, hj, hcon⟩ := h.inert n l hl
    exact ⟨hle, j, Store.get?_alloc_of_some i hj, hcon⟩
  rooted := h.rooted
  rootFirst := h.rootFirst

theorem inserted {s' : SolverState P V S M} (h : Invariant s t) (hi : i.Restates)
    (hins : Inserted s s' i id) : Invariant s' t where
  trail := hins.solution ▸ h.trail
  consistent := h.consistent
  wellFormed n j hj := by
    refine (hins.made n j hj).wellFormed fun m k hk => ?_
    rw [Store.get?_alloc] at hk
    split_ifs at hk
    · cases hk
      exact .fact hi
    · exact h.wellFormed m k hk
  derived n j first second hj hc := by
    obtain ⟨m, hmn, hm⟩ := hins.exists_of_derived hi.exists_fact hj hc
    obtain ⟨hfirst, hsecond⟩ := h.derived m j first second hm hc
    exact ⟨hfirst.trans_le hmn, hsecond.trans_le hmn⟩
  indexed q n hn := by
    rcases hins.listed q n hn with hn | ⟨rfl, j, w, hj, hw⟩
    · obtain ⟨j, w, hj, hw⟩ := h.indexed q n hn
      exact ⟨j, w, hins.stored n j hj, hw⟩
    · exact ⟨j, w, hj, hw⟩
  merged := hins.merged
  justified d hd := by
    obtain ⟨c, hc, hj⟩ := h.justified d hd
    exact ⟨c, hins.stored _ c hc, hj⟩
  inert n l hl := by
    rw [hins.contradicted] at hl
    obtain ⟨hle, j, hj, hcon⟩ := h.inert n l hl
    exact ⟨hins.solution ▸ hle, j, hins.stored n j hj, hcon⟩
  rooted := by
    rw [hins.root, hins.rootVersion]
    exact h.rooted
  rootFirst := by
    rw [hins.root]
    exact h.rootFirst

theorem adds {s' : SolverState P V S M} {facts : List (Incompatibility P V S M)} {ids : List Nat}
    (h : Invariant s t) (hf : ∀ i ∈ facts, i.Restates) (hadds : Adds s facts s' ids) :
    Invariant s' t := by
  induction hadds with
  | nil s => exact h
  | cons hins _ ih =>
    rw [List.forall_mem_cons] at hf
    exact ih (h.inserted hf.1 hins) hf.2

end Invariant

end DependencyResolution
