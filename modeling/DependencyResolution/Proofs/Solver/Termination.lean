import DependencyResolution.Proofs.PackageTable
import DependencyResolution.Proofs.Solver.Potential
import Mathlib.Data.Prod.Lex
import Mathlib.Order.Lattice.Nat

/-!
# Runs end

A step raises the potential of the trail, or it leaves it and goes to a phase of lower rank, or it gets
on with the work of its phase (`Advance.remaining_lt`). The rank says how far away the next change of the
trail is: a fact that was added instead of a decision is owed to propagation, which finds in it
something to derive or a conflict before it comes back to deciding (`Owed`). In a conflict the work left
is how much of the trail the incompatibility needs to be satisfied, and a resolvent needs less.

So when the provider answers from a catalogue a run ends (`exists_forall_resolveWithin`).
-/

namespace DependencyResolution

open Incompatibility

variable {σ P V S M π E : Type} [DecidableEq P] [DecidableEq S] [VersionSet S V] [LawfulVersionSet S V]

/-! ## What is owed -/

section owed

variable {s s' : SolverState P V S M} {t : List (Assignment P V S)} {φ : Phase P} {p : P} {v : V} {n id : Nat}
  {i : Incompatibility P V S M} {rest : List Nat} {waiting : List P} {versions : S}

def Incompatibility.IsActive (i : Incompatibility P V S M) (A : Knowledge P S V) : Prop :=
  i.SatisfiedBy A ∨ ∃ p, i.AlmostSatisfiedBy A p

/-- Propagation is about to look at an active incompatibility. -/
def Owed (s : SolverState P V S M) (t : List (Assignment P V S)) (φ : Phase P) : Prop :=
  ∃ n ∈ φ.due s.store, s.contradicted.contains n = false ∧
    ∃ i, s.store.get? n = some i ∧ i.IsActive (Allows t)

omit [DecidableEq S] in
theorem Incompatibility.OpenTwice.not_isActive {A : Knowledge P S V} (h : i.OpenTwice A) :
    ¬ i.IsActive A := by
  obtain ⟨p, q, u, w, hne, hu, hw, hp, hq⟩ := h.terms
  rintro (hsat | ⟨r, -, hothers⟩)
  · exact hp (hsat p u hu)
  · by_cases hpr : p = r
    · exact hq (hothers q w hw (hpr ▸ Ne.symm hne))
    · exact hp (hothers p u hu hpr)

omit [DecidableEq S] in
theorem Incompatibility.ContradictedBy.not_isActive {A : Knowledge P S V} (h : i.ContradictedBy A)
    (hA : Consistent A) : ¬ i.IsActive A := by
  rintro (hsat | ⟨p, halmost⟩)
  · exact hsat.not_contradictedBy hA h
  · exact halmost.not_contradictedBy hA h

omit [DecidableEq S] in
theorem Incompatibility.SatisfiedAt.isActive {A : Knowledge P S V} (h : i.SatisfiedAt A p v)
    (hv : A p (Value.ofVersion v)) : i.IsActive A := by
  by_cases hsat : i.SatisfiedBy A
  · exact Or.inl hsat
  · simp only [SatisfiedBy, not_forall] at hsat
    obtain ⟨q, u, hu, hent⟩ := hsat
    have hq : q = p := by
      by_contra hne
      exact hent (h.others q u hu hne)
    subst hq
    refine Or.inr ⟨q, ⟨u, hu, hent, fun hex => ?_⟩, h.others⟩
    exact hex _ hv ((Term.contains_iff_holds u v).mp (h.own u hu))

theorem Invariant.allows_ofVersion (h : Invariant s t) (hp : s.solution.IsPending p versions)
    (hin : VersionSet.contains versions v = true) : Allows t p (Value.ofVersion v) :=
  (h.allows_iff hp _).mpr ((Term.contains_iff_holds (.positive versions) v).mp hin)

theorem Owed.of_new (h : Invariant s t) (hcon : s'.contradicted = s.contradicted)
    (hn : s.store.size ≤ n) (hmem : n ∈ s'.store.idsFor p) (hi : s'.store.get? n = some i)
    (hactive : i.IsActive (Allows t)) : Owed s' t (.round p) :=
  ⟨n, hmem, by rw [hcon]; exact h.contains_eq_false hn, i, hi, hactive⟩

omit [DecidableEq S] in
theorem Owed.of_scan (h : Owed s t (.scan (id :: rest) waiting))
    (hid : s.contradicted.contains id = false → ∀ i, s.store.get? id = some i → ¬ i.IsActive (Allows t)) :
    Owed s t (.scan rest waiting) := by
  obtain ⟨n, hn, hnc, i, hi, hactive⟩ := h
  rcases List.mem_cons.mp hn with rfl | hn
  · exact absurd hactive (hid hnc i hi)
  · exact ⟨n, hn, hnc, i, hi, hactive⟩

omit [DecidableEq S] in
theorem Owed.markContradicted (h : Owed s t φ) (hi : s.store.get? id = some i)
    (hnot : ¬ i.IsActive (Allows t)) : Owed (s.markContradicted id) t φ := by
  obtain ⟨n, hn, hnc, j, hj, hactive⟩ := h
  have hne : id ≠ n := by
    rintro rfl
    rw [hi, Option.some.injEq] at hj
    exact hnot (hj ▸ hactive)
  refine ⟨n, hn, ?_, j, hj, hactive⟩
  simp only [SolverState.markContradicted, OrderedMap.contains, OrderedMap.get?_insert, if_neg hne]
  exact hnc

end owed

/-! ## What remains -/

section remaining

variable {s s' : SolverState P V S M} {t t' : List (Assignment P V S)} {φ φ' : Phase P} {B n id : Nat}

/-- The potential of the trail, with the derivation that is about to be made from what was learned. -/
def worth (B : Nat) (s : SolverState P V S M) (t : List (Assignment P V S)) : Phase P → Nat
  | .learned _ _ => potential B t + weight B s.solution.level
  | _ => potential B t

open scoped Classical in
/-- How far away the next change of the trail is. -/
noncomputable def rank (s : SolverState P V S M) (t : List (Assignment P V S)) : Phase P → Nat
  | .learned _ _ => 4
  | .decide => 2
  | .conflict _ _ => 0
  | φ => if Owed s t φ then 1 else 3

/-- How many assignments there must be for the incompatibility to be satisfied. -/
noncomputable def extent (s : SolverState P V S M) (t : List (Assignment P V S)) (id : Nat) : Nat :=
  sInf {n | ∃ i, s.store.get? id = some i ∧ i.SatisfiedBy (Allows (before n t))}

noncomputable def work (s : SolverState P V S M) (t : List (Assignment P V S)) : Phase P → Nat × Nat
  | .round _ => (3, 0)
  | .propagate waiting => (2 * waiting.length, 0)
  | .scan ids waiting => (2 * waiting.length + 1, ids.length)
  | .conflict id _ => (extent s t id, 0)
  | .learned _ _ => (0, 0)
  | .decide => (0, 0)

/-- What every step lowers, when trails are no longer than `B`. -/
noncomputable def remaining (B : Nat) (s : SolverState P V S M) (t : List (Assignment P V S))
    (φ : Phase P) : ℕ ×ₗ ℕ ×ₗ ℕ ×ₗ ℕ :=
  toLex ((B + 1) ^ (B + 1) - worth B s t φ, toLex (rank s t φ, toLex (work s t φ)))

omit [DecidableEq P] [DecidableEq S] [VersionSet S V] [LawfulVersionSet S V] in
theorem worth_le (h : t.length ≤ B) : worth B s t φ ≤ (B + 1) ^ (B + 1) := by
  have hpotential := potential_le h
  have hweight := weight_le B s.solution.level
  rw [Nat.pow_succ', Nat.succ_mul]
  unfold worth
  split <;> omega

omit [DecidableEq S] in
theorem remaining_lt_of_worth (h : t'.length ≤ B) (hw : worth B s t φ < worth B s' t' φ') :
    remaining B s' t' φ' < remaining B s t φ := by
  have hle := worth_le (s := s') (φ := φ') h
  refine Prod.Lex.toLex_lt_toLex.mpr (Or.inl ?_)
  dsimp only
  omega

omit [DecidableEq S] in
theorem remaining_lt_of_rank (hw : worth B s' t' φ' = worth B s t φ) (hr : rank s' t' φ' < rank s t φ) :
    remaining B s' t' φ' < remaining B s t φ :=
  Prod.Lex.toLex_lt_toLex.mpr (Or.inr ⟨by rw [hw], Prod.Lex.toLex_lt_toLex.mpr (Or.inl hr)⟩)

omit [DecidableEq S] in
theorem remaining_lt_of_work (hw : worth B s' t' φ' = worth B s t φ) (hr : rank s' t' φ' ≤ rank s t φ)
    (hwork : toLex (work s' t' φ') < toLex (work s t φ)) : remaining B s' t' φ' < remaining B s t φ := by
  rcases hr.lt_or_eq with hr | hr
  · exact remaining_lt_of_rank hw hr
  · exact Prod.Lex.toLex_lt_toLex.mpr
      (Or.inr ⟨by rw [hw], Prod.Lex.toLex_lt_toLex.mpr (Or.inr ⟨hr, hwork⟩)⟩)

omit [DecidableEq S] in
/-- Propagation comes closer to a change of the trail when something is owed. -/
theorem rank_le_of_owed {ids ids' : List Nat} {waiting waiting' : List P}
    (h : Owed s t (.scan ids waiting) → Owed s' t' (.scan ids' waiting')) :
    rank s' t' (.scan ids' waiting') ≤ rank s t (.scan ids waiting) := by
  simp only [rank]
  by_cases hbefore : Owed s t (.scan ids waiting)
  · rw [if_pos hbefore, if_pos (h hbefore)]
  · rw [if_neg hbefore]
    split_ifs <;> omega

omit [DecidableEq S] in
theorem extent_le {i : Incompatibility P V S M} (hi : s.store.get? id = some i)
    (hsat : i.SatisfiedBy (Allows (before n t))) : extent s t id ≤ n :=
  Nat.sInf_le ⟨i, hi, hsat⟩

omit [DecidableEq S] in
theorem lt_extent (h : s.solution.Trail t) {i : Incompatibility P V S M} (hi : s.store.get? id = some i)
    (hcont : i.IsContingent) (hsat : i.SatisfiedBy (Allows t)) {p : P} {u : Term S} {b : Assignment P V S}
    (hb : i.LastSatisfied t p u b) : b.index < extent s t id := by
  have hmem : extent s t id ∈ {n | ∃ i, s.store.get? id = some i ∧ i.SatisfiedBy (Allows (before n t))} :=
    Nat.sInf_mem ⟨s.solution.nextIndex, i, hi, by rwa [h.before_eq_self]⟩
  obtain ⟨j, hj, hsat'⟩ := hmem
  rw [hi, Option.some.injEq] at hj
  subst hj
  by_contra hle
  push Not at hle
  refine hb.first.not_excludes (hcont p u hb.term).negate.holds fun x hx hneg => ?_
  refine (Term.holds_negate u x).mp hneg (hsat' p u hb.term x (hx.mono fun a ha => ?_))
  rw [mem_before_iff] at ha ⊢
  exact ⟨ha.1, by omega⟩

end remaining

/-! ## Steps -/

section steps

variable {provider : Provider σ P V S M π E} {x y : Session σ P V S M π E} {t t' : List (Assignment P V S)}
  {φ φ' : Phase P} {B : Nat}

omit [DecidableEq S] in
theorem not_owed {s : SolverState P V S M} (h : φ.due s.store = []) : ¬ Owed s t φ := by
  rintro ⟨n, hn, -⟩
  rw [h] at hn
  cases hn

omit [DecidableEq S] in
theorem Phase.Turns.remaining_lt {s : SolverState P V S M} (h : φ.Turns s.store φ') :
    remaining B s t φ' < remaining B s t φ := by
  classical
  cases h with
  | round p =>
    exact remaining_lt_of_work rfl le_rfl (Prod.Lex.toLex_lt_toLex.mpr (Or.inl (by simp [work])))
  | rest =>
    refine remaining_lt_of_rank rfl ?_
    simp only [rank]
    rw [if_neg (not_owed rfl)]
    omega
  | next p waiting =>
    have hiff : Owed s t (.scan (s.store.idsFor p).reverse waiting) ↔ Owed s t (.propagate (p :: waiting)) := by
      simp only [Owed, Phase.due, List.mem_reverse]
    refine remaining_lt_of_work rfl (le_of_eq ?_) (Prod.Lex.toLex_lt_toLex.mpr (Or.inl ?_))
    · exact if_congr hiff rfl rfl
    · simp only [work, List.length_cons]
      omega
  | done waiting =>
    refine remaining_lt_of_work rfl ?_ (Prod.Lex.toLex_lt_toLex.mpr (Or.inl ?_))
    · simp only [rank]
      rw [if_neg (not_owed (φ := .scan [] waiting) rfl)]
      split_ifs <;> omega
    · simp only [work]
      omega

omit [DecidableEq S] in
/-- Looking at an incompatibility that is not active leaves less to look at. -/
theorem remaining_scan_lt {s s' : SolverState P V S M} {id : Nat} {rest : List Nat} {waiting : List P}
    (h : Owed s t (.scan (id :: rest) waiting) → Owed s' t (.scan rest waiting)) :
    remaining B s' t (.scan rest waiting) < remaining B s t (.scan (id :: rest) waiting) :=
  remaining_lt_of_work rfl (rank_le_of_owed h)
    (Prod.Lex.toLex_lt_toLex.mpr (Or.inr ⟨rfl, by simp [work]⟩))

omit [DecidableEq S] in
/-- What is owed after a decision was put off makes propagation the next step. -/
theorem remaining_round_lt {s s' : SolverState P V S M} {p : P} (h : Owed s' t (.round p)) :
    remaining B s' t (.round p) < remaining B s t .decide := by
  refine remaining_lt_of_rank rfl ?_
  simp only [rank]
  rw [if_pos h]
  omega

/-- Every step leaves less to do. -/
theorem Advance.remaining_lt (h : Invariant x.state t) (hφ : Poised x.state t φ)
    (hlen : t.length ≤ B) (hlen' : t'.length ≤ B) (hstep : Advance provider x t φ y t' φ') :
    remaining B y.state t' φ' < remaining B x.state t φ := by
  cases hstep with
  | turn hturn hs _ =>
    rw [hs]
    exact hturn.remaining_lt
  | skip hc =>
    exact remaining_scan_lt fun howed => howed.of_scan fun hnc => by simp [hc] at hnc
  | wait _ hi hopen =>
    refine remaining_scan_lt fun howed => howed.of_scan fun _ j hj => ?_
    rw [hi, Option.some.injEq] at hj
    exact hj ▸ hopen.not_isActive
  | mark hi hcon hs _ =>
    rw [hs]
    have hnot := hcon.not_isActive h.consistent
    refine remaining_scan_lt fun howed => (howed.of_scan fun _ j hj => ?_).markContradicted hi hnot
    rw [hi, Option.some.injEq] at hj
    exact hj ▸ hnot
  | derive _ _ _ _ _ _ _ =>
    refine remaining_lt_of_worth hlen' ?_
    simp only [worth, potential_append]
    exact Nat.lt_add_of_pos_right (weight_pos _ _)
  | clash _ _ _ =>
    refine remaining_lt_of_rank rfl ?_
    simp only [rank]
    split_ifs <;> omega
  | resolve hi _ hb hc hr hs _ =>
    obtain ⟨j, hj', hsat⟩ := hφ.conflict _ _ rfl
    rw [hi, Option.some.injEq] at hj'
    subst hj'
    -- the resolvent is satisfied before the satisfier of what it replaces
    have hresolvent := h.satisfiedBy_resolvent hi hb hc hr
    refine remaining_lt_of_work rfl le_rfl (Prod.Lex.toLex_lt_toLex.mpr (Or.inl ?_))
    rw [hs]
    exact (extent_le (Store.get?_alloc_self x.state.store _) hresolvent).trans_lt
      (lt_extent h.trail hi (h.isContingent hi) hsat hb)
  | learn hi hb hpos hlt halmost hsol hs _ =>
    -- the derivation that is about to be made outweighs all that is dropped
    have hle := hlt.trans_le (h.trail.level_le _ hb.first.mem)
    have hlevel := (h.backtrack hle.le hsol).1
    refine remaining_lt_of_worth hlen' ?_
    rw [hs]
    simp only [worth, SolverState.forgetAbove]
    rw [hlevel]
    exact potential_lt_upTo hlen (hle.trans_le (h.trail.level_le_length.trans hlen))
  | learned _ _ _ _ _ _ =>
    refine remaining_lt_of_rank ?_ ?_
    · simp only [worth, potential_append]
      rfl
    · simp only [rank]
      split_ifs <;> omega
  | missing hp _ hs _ _ =>
    obtain ⟨hfresh, hmem, hi⟩ := hs.get?_of_asDependency rfl ((get?_missing _ _ _).trans (if_pos rfl))
    exact remaining_round_lt (.of_new h hs.contradicted hfresh hmem hi (Or.inl (h.satisfiedBy_missing hp)))
  | unusable hp hin _ _ hs _ _ =>
    obtain ⟨hfresh, hmem, hi⟩ := hs.get?_of_asDependency rfl
      ((get?_unusableVersion _ _ _ _).trans (if_pos rfl))
    exact remaining_round_lt (.of_new h hs.contradicted hfresh hmem hi
      ((satisfiedAt_unusableVersion _ _).isActive (h.allows_ofVersion hp hin)))
  | refused hp hin _ _ hs hid hi hsat _ _ =>
    obtain ⟨hfresh, hmem⟩ := hs.mem_idsFor hid
    exact remaining_round_lt (.of_new h hs.contradicted hfresh hmem hi
      (hsat.isActive (h.allows_ofVersion hp hin)))
  | decided _ _ _ _ _ _ _ _ _ | again _ _ _ _ _ _ _ _ _ =>
    refine remaining_lt_of_worth hlen' ?_
    simp only [worth, potential_append]
    exact Nat.lt_add_of_pos_right (weight_pos _ _)

end steps

/-! ## Runs -/

section runs

variable [DecidableEq V] [LT π] [DecidableLT π] {provider : Provider σ P V S M π E}
  {catalogue : Catalogue P V S M} {G : Vocabulary P S} {x : Session σ P V S M π E}
  {t : List (Assignment P V S)} {φ : Phase P}

/-- How a run can break off when the provider answers from a catalogue. -/
def Provider.Ends (provider : Provider σ P V S M π E) (f : Failure P V S E) : Prop :=
  (∃ id, f = .noSolution id) ∨ Solving.Stops provider f

omit [DecidableEq S] [LT π] [DecidableLT π] in
theorem Halts.ends {f : Failure P V S E} (h : Halts provider x φ f)
    (hfrom : provider.AnswersFrom catalogue) : provider.Ends f := by
  cases h with
  | stopped h => exact Or.inr h
  | noSolution _ _ _ => exact Or.inl ⟨_, rfl⟩
  | choseOutside hc hv =>
    obtain ⟨c, hc⟩ := hc
    rw [(hfrom.chosen _ _ c _ hc).1] at hv
    cases hv

/-- A run that has come to a state with the invariant takes no more than some number of steps from
there. -/
theorem Solving.exists_forall_solveFrom (hfrom : provider.AnswersFrom catalogue) (hG : G.Covers catalogue)
    (h : Invariant x.state t) (hφ : Ready x.state t φ) (hs : Surveyed G x.state t) :
    ∃ N r, (∀ n, N ≤ n → solveFrom provider n φ x = r) ∧ Ensures r (fun _ _ => True) provider.Ends := by
  -- over what remains, which is well-founded; the bound is the number of labels at every step
  generalize hm : remaining G.labels.card x.state t φ = m
  induction m using WellFoundedLT.induction generalizing x t φ with
  | ind m ih =>
    have hspec := step_spec h hφ hfrom.answersProper
    cases hstep : step provider φ x with
    | error f y =>
      rw [hstep] at hspec
      refine ⟨1, .error f y, fun n hn => ?_, hspec.ends hfrom⟩
      obtain ⟨k, rfl⟩ := Nat.exists_eq_add_of_le' hn
      rw [solveFrom]
      simp only [bind, EStateM.bind, hstep]
    | ok r y =>
      rw [hstep] at hspec
      cases r with
      | inl solution =>
        refine ⟨1, .ok solution y, fun n hn => ?_, trivial⟩
        obtain ⟨k, rfl⟩ := Nat.exists_eq_add_of_le' hn
        rw [solveFrom, bind_of_ok hstep]
        rfl
      | inr φ' =>
        obtain ⟨t', hadvance⟩ := hspec
        have h' := hadvance.invariant h hφ hfrom.answersProper
        have hs' := hadvance.surveyed h hfrom hG hs
        have hlt := hadvance.remaining_lt h hφ.toPoised (hs.length_le h) (hs'.length_le h')
        obtain ⟨N, r, hrun, hr⟩ := ih _ (hm ▸ hlt) h' (hadvance.ready h hφ hfrom.answersProper) hs' rfl
        refine ⟨N + 1, r, fun n hn => ?_, hr⟩
        obtain ⟨k, rfl⟩ := Nat.exists_eq_add_of_le' (show 1 ≤ n by omega)
        rw [solveFrom_of_step hstep]
        exact hrun k (by omega)

/-- When the provider answers from a catalogue, every run that is given enough steps is the same one and
ends with a solution, for want of one, or because the provider breaks off. -/
theorem exists_forall_resolveWithin (hfrom : provider.AnswersFrom catalogue) (client : σ) (root : P)
    (version : V) :
    ∃ N outcome, (∀ n, N ≤ n → resolveWithin n provider client root version = outcome) ∧
      ∀ f, outcome.1 = .error f → provider.Ends f := by
  have hrun : ∃ N r, (∀ n, N ≤ n →
      Solving.solveFrom provider n (.round root) (.start (.start root version) client) = r) ∧
      Solving.Ensures r (fun _ _ => True) provider.Ends := by
    rcases Solving.start_spec provider root version client with ⟨f, y, hf, hrun⟩ | ⟨y, hy, hrun, -⟩
    · refine ⟨1, .error f y, fun n hn => ?_, Or.inr hf⟩
      obtain ⟨k, rfl⟩ := Nat.exists_eq_add_of_le' hn
      exact hrun k
    · obtain ⟨N, r, hrest, hr⟩ := Solving.exists_forall_solveFrom hfrom
        (Catalogue.covers_vocabulary root version) (hy.state ▸ Invariant.opened root version)
        (hy.state ▸ Ready.opened root version) (Surveyed.opened catalogue root version hy)
      refine ⟨N + 3, r, fun n hn => ?_, hr⟩
      obtain ⟨k, rfl⟩ := Nat.exists_eq_add_of_le' (show 3 ≤ n by omega)
      rw [hrun k]
      exact hrest k (by omega)
  obtain ⟨N, r, hrun, hr⟩ := hrun
  cases r with
  | ok solution y =>
    refine ⟨N, (.ok solution, y), fun n hn => ?_, fun f hf => by cases hf⟩
    simp only [resolveWithin, hrun n hn]
  | error f y =>
    refine ⟨N, (.error f, y), fun n hn => ?_, fun f' hf => ?_⟩
    · simp only [resolveWithin, hrun n hn]
    · cases hf
      exact hr

end runs

/-- Over unions of intervals of any ordered type of versions, and for any provider that answers from a
catalogue, every run that is given enough steps is the same one. If the provider never fails and never
gives up, it ends with a solution or for want of one. -/
theorem resolveWithin_ends [LinearOrder V] [LT π] [DecidableLT π]
    {provider : Provider σ P V (Ranges V) M π E} {catalogue : Catalogue P V (Ranges V) M}
    (hfrom : provider.AnswersFrom catalogue) (client : σ) (root : P) (version : V) :
    ∃ N outcome, (∀ n, N ≤ n → resolveWithin n provider client root version = outcome) ∧
      (provider.Faultless → (∃ solution, outcome.1 = .ok solution) ∨
        ∃ id, outcome.1 = .error (.noSolution id)) := by
  obtain ⟨N, outcome, hrun, hends⟩ := exists_forall_resolveWithin hfrom client root version
  refine ⟨N, outcome, hrun, fun hfaultless => ?_⟩
  cases hout : outcome.1 with
  | ok solution => exact Or.inl ⟨solution, rfl⟩
  | error f =>
    rcases hends f hout with ⟨id, rfl⟩ | hstops
    · exact Or.inr ⟨id, rfl⟩
    · exact absurd hstops (hfaultless.not_stops f)

theorem resolveWithin_twoPackages_ends : ∃ N outcome,
    (∀ n, N ≤ n → resolveWithin n (PackageTable.twoPackages 3).provider () 0 1 = outcome) ∧
      ((∃ solution, outcome.1 = .ok solution) ∨ ∃ id, outcome.1 = .error (.noSolution id)) := by
  obtain ⟨N, outcome, hrun, hends⟩ := resolveWithin_ends
    (PackageTable.provider_answersFrom (PackageTable.twoPackages_proper 3)) () 0 1
  exact ⟨N, outcome, hrun, hends (PackageTable.provider_faultless _)⟩

end DependencyResolution
