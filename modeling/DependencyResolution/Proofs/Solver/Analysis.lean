import DependencyResolution.Proofs.PackageTable
import DependencyResolution.Proofs.Solver.Listing

/-!
# Resolving conflicts

At any moment of a run, what is satisfied can be resolved: that comes to an end
(`Reached.resolveConflict_concludes`). Every resolvent on the way is satisfied, and its satisfier comes
before that of what it was resolved from (`Descent`), so the numbers of the satisfiers go down. In the
end there is no solution, or the client gives up, and only the store has changed; or something is
learned of which a single term is open at the level gone back to (`Concluded`).

A resolvent that is learned is listed once under every package that it mentions. What needed no
resolution is not registered again; of a number that was listed nowhere to begin with this leaves nothing
in the index (`PackageTable.resolveConflict_unlisted`).
-/

namespace DependencyResolution

open Incompatibility

variable {σ P V S M π E : Type} [DecidableEq P] [DecidableEq S] [VersionSet S V]

/-! ## The numbers of the satisfiers -/

namespace PartialSolution

/-- The number of the satisfier that is found of a satisfied incompatibility with terms. -/
def satisfierIndex (s : PartialSolution P V S) (i : Incompatibility P V S M) : Option Nat :=
  ((s.satisfiers i.terms.entries).toOption.bind latest).map (·.2.index)

end PartialSolution

section satisfiers

variable [LawfulVersionSet S V] {s : PartialSolution P V S} {t : List (Assignment P V S)}
  {i : Incompatibility P V S M} {p : P} {u : Term S} {b : Assignment P V S} {k : Nat}

omit [DecidableEq S] in
/-- All terms hold as soon as the satisfier is made, and not before. -/
theorem Incompatibility.LastSatisfied.satisfiedBy_iff (hb : i.LastSatisfied t p u b)
    (hu : u.IsContingent) : i.SatisfiedBy (Allows (before k t)) ↔ b.index < k := by
  have hmono : ∀ {m n : Nat}, m ≤ n → ∀ {q : P} {w : Term S},
      Entails (Allows (before m t)) q w → Entails (Allows (before n t)) q w := by
    intro m n hmn q w hent
    refine hent.mono fun x hx => hx.mono fun a ha => ?_
    rw [mem_before_iff] at ha ⊢
    exact ⟨ha.1, by omega⟩
  constructor
  · intro hsat
    by_contra hle
    refine hb.first.not_excludes hu.negate.holds (excludes_negate_iff.mpr ?_)
    exact hmono (not_lt.mp hle) (hsat p u hb.term)
  · intro hlt q w hw
    by_cases hq : q = p
    · subst hq
      rw [hb.term, Option.some.injEq] at hw
      subst hw
      exact hmono hlt (excludes_negate_iff.mp hb.first.excludes)
    · exact hmono hlt.le (hb.others q w hw hq)

theorem PartialSolution.Trail.exists_satisfierIndex (h : s.Trail t) (hp : ProperTrail t)
    (hi : i.IsContingent) (hsat : i.SatisfiedBy (Allows (before k t))) (hne : i.terms.entries ≠ []) :
    ∃ m, s.satisfierIndex i = some m ∧ m < k := by
  obtain ⟨found, p, u, b, hok, -, hlatest, hb⟩ :=
    h.exists_satisfier hp hi (hsat.mono fun _ _ => allows_before) hne
  refine ⟨b.index, ?_, (hb.satisfiedBy_iff (hi p u hb.term)).mp hsat⟩
  simp only [satisfierIndex, hok, Except.toOption, Option.bind_some, hlatest, Option.map_some,
    Assignment.index_satisfier]

theorem PartialSolution.Trail.satisfierIndex_eq (h : s.Trail t) (hp : ProperTrail t)
    (hi : i.IsContingent) (hb : i.LastSatisfied t p u b) : s.satisfierIndex i = some b.index := by
  have hiff := fun k => hb.satisfiedBy_iff (k := k) (hi p u hb.term)
  have hne : i.terms.entries ≠ [] :=
    List.ne_nil_of_mem (i.terms.get?_eq_some_iff.mp hb.term)
  obtain ⟨found, q, w, c, hok, -, hlatest, hc⟩ := h.exists_satisfier hp hi
    (((hiff (b.index + 1)).mpr (Nat.lt_succ_self _)).mono fun _ _ => allows_before) hne
  -- both are the first number after which all terms hold
  have hiff' := fun k => hc.satisfiedBy_iff (k := k) (hi q w hc.term)
  have hbc := (hiff _).mp ((hiff' (c.index + 1)).mpr (Nat.lt_succ_self _))
  have hcb := (hiff' _).mp ((hiff (b.index + 1)).mpr (Nat.lt_succ_self _))
  simp only [satisfierIndex, hok, Except.toOption, Option.bind_some, hlatest, Option.map_some,
    Assignment.index_satisfier, Option.some.injEq]
  omega

end satisfiers

/-! ## Resolvents -/

/-- The resolution of `id` has come to a store and to an incompatibility in it. What it passed through
is satisfied and stored on top of what there was, and the satisfier of a resolvent, unless there is
nothing to satisfy, comes before the satisfier of what it was resolved from. -/
inductive Descent (s : SolverState P V S M) (id : Nat) : Store P V S M → Nat → Prop
  | start : Descent s id s.store id
  | resolve {store : Store P V S M} {n cause : Nat} {i c r : Incompatibility P V S M} {p : P}
      (h : Descent s id store n) (hi : store.get? n = some i) (hc : store.get? cause = some c)
      (hr : i.resolvent c n cause p = .ok r) (hsat : s.solution.standing r = .satisfied)
      (hdown : r.terms.entries ≠ [] → ∃ k m, s.solution.satisfierIndex r = some k ∧
        s.solution.satisfierIndex i = some m ∧ k < m) :
      Descent s id (store.alloc r).1 store.size

namespace Descent

variable {s : SolverState P V S M} {store : Store P V S M} {id n m : Nat}

theorem index_eq (h : Descent s id store n) : store.index = s.store.index := by
  induction h with
  | start => rfl
  | resolve _ _ _ _ _ _ ih => exact ih

theorem idsFor_eq (h : Descent s id store n) (p : P) : store.idsFor p = s.store.idsFor p := by
  rw [Store.idsFor, h.index_eq, Store.idsFor]

theorem stored (h : Descent s id store n) {j : Incompatibility P V S M} (hj : s.store.get? m = some j) :
    store.get? m = some j := by
  induction h with
  | start => exact hj
  | resolve _ _ _ _ _ _ ih => exact Store.get?_alloc_of_some _ ih

end Descent

/-- How the resolution of `id` ends that has come to a store and to the incompatibility `n`. -/
inductive Concluded (provider : Provider σ P V S M π E) (s : SolverState P V S M) (id : Nat)
    (store : Store P V S M) (n : Nat) :
    EStateM.Result (Failure P V S E) (Session σ P V S M π E) (P × Nat) → Prop
  | noSolution {i : Incompatibility P V S M} {y : Session σ P V S M π E} (hi : store.get? n = some i)
      (hterm : i.isTerminal s.root s.rootVersion = true) (hs : y.state = { s with store }) :
      Concluded provider s id store n (.error (.noSolution n) y)
  | cancelled {fault : Option E} {y : Session σ P V S M π E}
      (h : ∃ c, (provider.shouldCancel c).1 ≠ .ok false) (hs : y.state = { s with store }) :
      Concluded provider s id store n (.error (.cancelled fault) y)
  | learned {p : P} {i : Incompatibility P V S M} {y : Session σ P V S M π E}
      (hstored : ∀ m, y.state.store.get? m = store.get? m) (hi : store.get? n = some i)
      (hpos : 1 ≤ y.state.solution.level) (hlt : y.state.solution.level < s.solution.level)
      (halmost : y.state.solution.standing i = .almostSatisfied p)
      (hopen : y.state.solution.isDecided p = false)
      (hlisted : (n = id → ∃ q, id ∈ s.store.idsFor q) → ∀ q u, i.get? q = some u →
        (y.state.store.idsFor q).count n = 1) :
      Concluded provider s id store n (.ok (p, n) y)

section resolution

variable [LawfulVersionSet S V] {provider : Provider σ P V S M π E} {s : SolverState P V S M}
  {x y : Session σ P V S M π E} {t : List (Assignment P V S)} {φ : Phase P} {id n k : Nat} {changed : Bool}

/-- The resolution of `id`, begun in the state `s`, has come to the incompatibility `n`, which is
satisfied before number `k`. -/
structure Resolving (s : SolverState P V S M) (t : List (Assignment P V S)) (id : Nat)
    (x : Session σ P V S M π E) (n : Nat) (changed : Bool) (k : Nat) : Prop where
  invariant : Invariant x.state t
  state : x.state = { s with store := x.state.store }
  descent : Descent s id x.state.store n
  satisfied : ∃ i, x.state.store.get? n = some i ∧ i.SatisfiedBy (Allows (before k t))
  tidy : x.state.store.Tidy
  resolvent : changed = true → x.state.store.Omits n
  unchanged : changed = false → n = id

omit [DecidableEq S] in
/-- All that the resolution of a conflict takes for granted is that it is one. -/
theorem Ready.of_satisfiedBy {i : Incompatibility P V S M} (hi : s.store.get? n = some i)
    (hsat : i.SatisfiedBy (Allows t)) : Ready s t (.conflict n changed) where
  due m hm := by cases hm
  conflict id changed' h := by
    cases h
    exact ⟨i, hi, hsat⟩
  learned p id h := by cases h
  ground _ := Or.inr (Or.inl ⟨_, _, rfl⟩)

namespace Resolving

theorem concluded_of_error (h : Resolving s t id x n changed k) {f : Failure P V S E}
    (hstep : Solving.deduce (Solving.poll provider) (.conflict n changed) x = .error f y) :
    Concluded provider s id x.state.store n (.error f y) := by
  have hs : y.state = { s with store := x.state.store } :=
    (Solving.breaks_deduce provider _ x f y hstep).state.trans h.state
  obtain ⟨i, hi, hsat⟩ := h.satisfied
  have hroot : x.state.root = s.root ∧ x.state.rootVersion = s.rootVersion := by
    rw [h.state]
    exact ⟨rfl, rfl⟩
  rw [Solving.deduce] at hstep
  cases hpoll : Solving.poll provider x with
  | error g z =>
    obtain ⟨fault, rfl, hcancel⟩ := Solving.cancelled_of_poll provider hpoll
    simp only [bind, EStateM.bind, hpoll] at hstep
    cases hstep
    exact .cancelled hcancel hs
  | ok _ z =>
    have hz := Solving.poll_spec provider x
    rw [hpoll] at hz
    rw [Solving.bind_of_ok hpoll] at hstep
    have hspec : Solving.Ensures (Solving.nextConflict n changed z)
        (fun φ w => ∃ t', Advance provider z t (.conflict n changed) w t' φ) _ :=
      Solving.nextConflict_spec (hz.1 ▸ h.invariant) (hz.1 ▸ hi) (hsat.mono fun _ _ => allows_before)
    rw [hstep, hz.1, hroot.1, hroot.2] at hspec
    obtain ⟨rfl, hterm⟩ := hspec
    exact .noSolution hi hterm hs

/-- To store the resolvent with the cause of the satisfier is a step down: it is satisfied before the
satisfier. -/
theorem resolve (h : Resolving s t id x n changed k) {i c r : Incompatibility P V S M} {p : P} {u : Term S}
    {d : Derivation P S} (hi : x.state.store.get? n = some i) (hd : i.LastSatisfied t p u (.derivation d))
    (hc : x.state.store.get? d.cause = some c) (hr : i.resolvent c n d.cause p = .ok r)
    (hs : y.state = { x.state with store := (x.state.store.alloc r).1 }) (hinv : Invariant y.state t) :
    Resolving s t id y x.state.store.size true d.index := by
  have hsolution : x.state.solution = s.solution := by rw [h.state]
  have htrail : s.solution.Trail t := hsolution ▸ h.invariant.trail
  have hproper := h.invariant.properTrail
  have hstored : y.state.store.get? x.state.store.size = some r := by
    rw [hs]
    exact Store.get?_alloc_self x.state.store r
  have hrcontingent := hinv.isContingent hstored
  have hrsat := h.invariant.satisfiedBy_resolvent hi hd hc hr
  have hstanding : s.solution.standing r = .satisfied := by
    rw [← hsolution]
    exact (standing_eq_satisfied_iff h.invariant.describes hrcontingent).mpr
      (hrsat.mono fun _ _ => allows_before)
  have hdown : r.terms.entries ≠ [] → ∃ k m, s.solution.satisfierIndex r = some k ∧
      s.solution.satisfierIndex i = some m ∧ k < m := by
    intro hne
    obtain ⟨m, hm, hlt⟩ := htrail.exists_satisfierIndex hproper hrcontingent hrsat hne
    exact ⟨m, d.index, hm, htrail.satisfierIndex_eq hproper (h.invariant.isContingent hi) hd, hlt⟩
  have hdescent := h.descent.resolve hi hc hr hstanding hdown
  exact
    { invariant := hinv
      state := by rw [hs, h.state]
      descent := by
        rw [hs]
        exact hdescent
      satisfied := ⟨r, hstored, hrsat⟩
      tidy := by
        rw [hs]
        exact h.tidy.alloc r
      resolvent := fun _ => by
        rw [hs]
        exact (h.tidy.omits le_rfl).alloc r
      unchanged := by simp }

theorem concluded_of_learn (h : Resolving s t id x n changed k) {i : Incompatibility P V S M} {p : P}
    {u : Term S} {b : Assignment P V S} {l : Nat} {solution : PartialSolution P V S}
    (hi : x.state.store.get? n = some i) (hb : i.LastSatisfied t p u b) (hpos : 1 ≤ l) (hlt : l < b.level)
    (halmost : i.AlmostSatisfiedBy (Allows (upTo l t)) p) (hsol : x.state.solution.backtrack l = .ok solution)
    (hs : y.state = { { x.state with solution }.forgetAbove l with
      store := if changed then x.state.store.registered n else x.state.store })
    (hinv : Invariant y.state (upTo l t)) :
    Concluded provider s id x.state.store n (.ok (p, n) y) := by
  have hsolution : x.state.solution = s.solution := by rw [h.state]
  have hcontingent := h.invariant.isContingent hi
  have hle : b.level ≤ x.state.solution.level := h.invariant.trail.level_le b hb.first.mem
  have hlevel : y.state.solution.level = l := by
    rw [hs]
    exact (h.invariant.backtrack (hlt.le.trans hle) hsol).1
  have hstored : ∀ m, y.state.store.get? m = x.state.store.get? m := by
    intro m
    rw [hs]
    cases changed <;> rfl
  have hlists : (n = id → ∃ q, id ∈ s.store.idsFor q) → y.state.store.Lists n := by
    intro hgiven
    rw [hs]
    cases changed with
    | true => exact (h.resolvent rfl).lists_registered
    | false =>
      -- what was given is not registered now, but it was listed
      obtain rfl := h.unchanged rfl
      obtain ⟨q, hq⟩ := hgiven rfl
      rw [← h.descent.idsFor_eq q] at hq
      exact h.tidy.lists hq
  obtain ⟨w, hw, hent, hex⟩ := halmost.1
  refine .learned hstored hi (hlevel ▸ hpos) ?_ ?_ ?_ ?_
  · rw [hlevel, ← hsolution]
    omega
  · exact (standing_eq_almostSatisfied_iff hinv.describes hcontingent).mpr halmost
  · exact hinv.isDecided_eq_false (hcontingent p w hw).proper hent hex
  · intro hgiven q v hv
    exact (hlists hgiven).count_eq_one ((hstored n).trans hi) hv

theorem step (h : Resolving s t id x n changed k) (hproper : provider.AnswersProper)
    (hstep : Solving.deduce (Solving.poll provider) (.conflict n changed) x = .ok φ y) :
    (∃ m k', k' < k ∧ φ = .conflict m true ∧ Resolving s t id y m true k') ∨
      ∃ p, φ = .learned p n ∧ Concluded provider s id x.state.store n (.ok (p, n) y) := by
  obtain ⟨i, hi, hsat⟩ := h.satisfied
  have hready : Ready x.state t (.conflict n changed) :=
    .of_satisfiedBy hi (hsat.mono fun _ _ => allows_before)
  have hspec : Solving.Ensures (Solving.deduce (Solving.poll provider) (.conflict n changed) x) _ _ :=
    Solving.deduce_spec h.invariant hready.toPoised (by simp)
  rw [hstep] at hspec
  obtain ⟨t', hadvance⟩ := hspec
  have hinv := hadvance.invariant h.invariant hready hproper
  cases hadvance with
  | turn hturn => cases hturn
  | resolve hj _ hd hc hr hs _ =>
    obtain rfl := Option.some.inj (hi.symm.trans hj)
    have hlt := (hd.satisfiedBy_iff (h.invariant.isContingent hi _ _ hd.term)).mp hsat
    exact Or.inl ⟨_, _, hlt, rfl, h.resolve hi hd hc hr hs hinv⟩
  | learn hj hb hpos hlt halmost hsol hs _ =>
    obtain rfl := Option.some.inj (hi.symm.trans hj)
    exact Or.inr ⟨_, rfl, h.concluded_of_learn hi hb hpos hlt halmost hsol hs hinv⟩

/-- Step by step the resolution goes down to an end, which more steps do not change. -/
theorem exists_concluded (h : Resolving s t id x n changed k) (hproper : provider.AnswersProper)
    (stop : Phase P → Option (P × Nat)) (hconflict : ∀ m changed, stop (.conflict m changed) = none)
    (hlearned : ∀ p m, stop (.learned p m) = some (p, m)) :
    ∃ enough store last r, Descent s id store last ∧ Concluded provider s id store last r ∧
      ∀ steps, enough ≤ steps →
        Solving.deduceUntil stop (Solving.poll provider) steps (.conflict n changed) x = r := by
  -- on the number before which all terms hold: that of the next resolvent's satisfier is smaller
  induction k using Nat.strong_induction_on generalizing x n changed with
  | _ k ih =>
    cases hstep : Solving.deduce (Solving.poll provider) (.conflict n changed) x with
    | error f y =>
      refine ⟨1, x.state.store, n, _, h.descent, h.concluded_of_error hstep, fun steps hsteps => ?_⟩
      obtain ⟨m, rfl⟩ := Nat.exists_eq_add_of_le' hsteps
      rw [Solving.deduceUntil, hconflict]
      simp only [bind, EStateM.bind, hstep]
    | ok φ y =>
      have hnext : ∀ m, Solving.deduceUntil stop (Solving.poll provider) (m + 1) (.conflict n changed) x =
          Solving.deduceUntil stop (Solving.poll provider) m φ y := by
        intro m
        rw [Solving.deduceUntil, hconflict]
        exact Solving.bind_of_ok hstep
      rcases h.step hproper hstep with ⟨m, k', hlt, rfl, h'⟩ | ⟨p, rfl, hconcluded⟩
      · obtain ⟨enough, store, last, r, hdescent, hconcluded, hrun⟩ := ih k' hlt h'
        refine ⟨enough + 1, store, last, r, hdescent, hconcluded, fun steps hsteps => ?_⟩
        obtain ⟨m, rfl⟩ := Nat.exists_eq_add_of_le' (show 1 ≤ steps by omega)
        rw [hnext]
        exact hrun m (by omega)
      · refine ⟨2, x.state.store, n, _, h.descent, hconcluded, fun steps hsteps => ?_⟩
        obtain ⟨m, rfl⟩ := Nat.exists_eq_add_of_le' hsteps
        rw [hnext, Solving.deduceUntil, hlearned]
        rfl

end Resolving

end resolution

/-! ## At any moment -/

section moments

variable [LawfulVersionSet S V] [DecidableEq V] [LT π] [DecidableLT π] {provider : Provider σ P V S M π E}
  {client : σ} {root : P} {version : V} {x : Session σ P V S M π E} {φ : Phase P}

omit [LawfulVersionSet S V] [DecidableEq V] [LT π] [DecidableLT π] in
theorem Session.Fresh.standing_ne_satisfied (h : x.Fresh root version φ) {id : Nat}
    {i : Incompatibility P V S M} (hi : x.state.store.get? id = some i) :
    x.state.solution.standing i ≠ .satisfied := by
  rw [h.state, get?_start] at hi
  split_ifs at hi
  cases hi
  rw [h.state]
  have hstanding : (SolverState.start root version : SolverState P V S M).solution.standing
      (notRoot root version : Incompatibility P V S M) = .almostSatisfied root := rfl
  rw [hstanding]
  simp

/-- At every moment of a run, to resolve what is satisfied comes to an end: on the way are satisfied
resolvents only, whose satisfiers go down, and nothing that was stored changes. Either there is no
solution or the client gives up, and then only the store has grown; or something is learned of which one
term is open at a lower level, and it is listed once under every package that it mentions, unless it
was given and listed nowhere. -/
theorem Reached.resolveConflict_concludes (h : Reached provider client root version x φ)
    (hproper : provider.AnswersProper) {id : Nat} {i : Incompatibility P V S M}
    (hi : x.state.store.get? id = some i) (hsat : x.state.solution.standing i = .satisfied) :
    ∃ enough store last r, Descent x.state id store last ∧ store.index = x.state.store.index ∧
      (∀ m j, x.state.store.get? m = some j → store.get? m = some j) ∧
      Concluded provider x.state id store last r ∧
      ∀ steps, enough ≤ steps →
        Solving.resolveConflict (Solving.poll provider) steps id x = r := by
  rcases h.cases (I := fun _ _ _ => True) hproper (fun _ => trivial) fun _ _ _ _ => trivial with
    hfresh | ⟨t, hinv, -⟩
  · exact absurd hsat (hfresh.standing_ne_satisfied hi)
  · have hsatisfied := (standing_eq_satisfied_iff hinv.describes (hinv.isContingent hi)).mp hsat
    have hresolving : Resolving x.state t id x id false x.state.solution.nextIndex :=
      { invariant := hinv
        state := rfl
        descent := .start
        satisfied := ⟨i, hi, by rwa [hinv.trail.before_eq_self]⟩
        tidy := (h.shelved hproper).tidy
        resolvent := by simp
        unchanged := fun _ => rfl }
    have hconcludes : ∃ enough store last r, Descent x.state id store last ∧
        Concluded provider x.state id store last r ∧ ∀ steps, enough ≤ steps →
          Solving.resolveConflict (Solving.poll provider) steps id x = r :=
      hresolving.exists_concluded hproper _ (fun _ _ => rfl) fun _ _ => rfl
    obtain ⟨enough, store, last, r, hdescent, hconcluded, hrun⟩ := hconcludes
    exact ⟨enough, store, last, r, hdescent, hdescent.index_eq, fun _ _ => hdescent.stored, hconcluded,
      hrun⟩

end moments

/-! ## What needed no resolution -/

namespace PackageTable

/-- The moment after some steps of a run that resolves package 0. -/
def fourPackagesMoment (steps : ℕ) : Session Unit ℕ ℕ (Ranges ℕ) String Int Empty × Phase ℕ :=
  (Solving.follow fourPackages.provider steps (.start (.start 0 1) ()) (.round 0)).getD
    (.start (.start 0 1) (), .round 0)

theorem reached_fourPackagesMoment (steps : ℕ) :
    Reached fourPackages.provider () 0 1 (fourPackagesMoment steps).1 (fourPackagesMoment steps).2 := by
  unfold fourPackagesMoment
  cases hfollow : Solving.follow fourPackages.provider steps (.start (.start 0 1) ()) (.round 0) with
  | none => exact .start
  | some m => exact Reached.start.follow hfollow

/-- In the conflict that version 2 of package 1 leads to, two resolvents are stored, and the second is
learned. -/
theorem fourPackages_concludes :
    ∃ i, (fourPackagesMoment 42).1.state.store.get? 4 = some i ∧
      (fourPackagesMoment 42).1.state.solution.standing i = .satisfied ∧
      Solving.Ensures (Solving.resolveConflict (Solving.poll fourPackages.provider) 4 4
        (fourPackagesMoment 42).1) (fun r y => r = (1, 6) ∧ y.state.solution.level = 1) (fun _ => False) ∧
      ∃ enough store last r, Descent (fourPackagesMoment 42).1.state 4 store last ∧
        store.index = (fourPackagesMoment 42).1.state.store.index ∧
        (∀ m j, (fourPackagesMoment 42).1.state.store.get? m = some j → store.get? m = some j) ∧
        Concluded fourPackages.provider (fourPackagesMoment 42).1.state 4 store last r ∧
        ∀ steps, enough ≤ steps →
          Solving.resolveConflict (Solving.poll fourPackages.provider) steps 4
            (fourPackagesMoment 42).1 = r := by
  have hfound : ((fourPackagesMoment 42).1.state.store.get? 4).map
      (fourPackagesMoment 42).1.state.solution.standing = some .satisfied := by
    rw [fourPackagesMoment, fourPackages_ascending.provider_eq]
    decide +kernel
  obtain ⟨i, hi, hsat⟩ := Option.map_eq_some_iff.mp hfound
  refine ⟨i, hi, hsat, ?_, (reached_fourPackagesMoment 42).resolveConflict_concludes
    (provider_answersProper fourPackages_proper) hi hsat⟩
  rw [fourPackagesMoment, fourPackages_ascending.provider_eq]
  decide +kernel

/-- The first of these resolvents is satisfied again once version 1 of package 1 is decided. To resolve
it takes no resolution, so it is learned without being registered. -/
theorem resolveConflict_unlisted :
    ∃ i, (fourPackagesMoment 67).1.state.store.get? 5 = some i ∧
      (fourPackagesMoment 67).1.state.solution.standing i = .satisfied ∧
      i.get? 2 = some (.positive (.singleton 1)) ∧
      Reached fourPackages.provider () 0 1 (fourPackagesMoment 67).1 (.round 2) ∧
      Solving.Ensures (Solving.resolveConflict (Solving.poll fourPackages.provider) 2 5
        (fourPackagesMoment 67).1) (fun r y => r = (2, 5) ∧ (y.state.store.idsFor 2).count 5 = 0)
        (fun _ => False) := by
  have hfound : ((fourPackagesMoment 67).1.state.store.get? 5).map
      (fun i => ((fourPackagesMoment 67).1.state.solution.standing i, i.get? 2)) =
        some (.satisfied, some (.positive (.singleton 1))) := by
    rw [fourPackagesMoment, fourPackages_ascending.provider_eq]
    decide +kernel
  have hphase : (fourPackagesMoment 67).2 = .round 2 := by
    rw [fourPackagesMoment, fourPackages_ascending.provider_eq]
    decide +kernel
  obtain ⟨i, hi, heq⟩ := Option.map_eq_some_iff.mp hfound
  obtain ⟨hsat, hterm⟩ := Prod.mk.inj heq
  refine ⟨i, hi, hsat, hterm, hphase ▸ reached_fourPackagesMoment 67, ?_⟩
  rw [fourPackagesMoment, fourPackages_ascending.provider_eq]
  decide +kernel

end PackageTable

end DependencyResolution
