import DependencyResolution.Proofs.Solver.Analysis
import DependencyResolution.Proofs.Solver.History
import DependencyResolution.Proofs.Solver.Operation
import DependencyResolution.Proofs.Solver.Termination

/-!
# Propagation reaches a fixed point

Propagation looks at the incompatibilities of one waiting package after the other, newest first, while
what it derives changes the packages it has dealt with. What it must not overlook are the incompatibilities
of the packages that were stirred: the one it started with, and those that received a derivation. As long
as they are satisfied or imply something they are still ahead (`Chased`), since a derivation makes its
package wait, and an incompatibility is not active again before one of its packages is derived for. A
conflict calls off what was ahead, and after it only what was derived since counts (`Stirred`).

Every step leaves less to do over the finite vocabulary of what is stored. So at every moment of a run
propagation ends, and if there is a solution left to look for, with all that was stirred at rest
(`Reached.propagate_quiesces`).
-/

namespace DependencyResolution

open Incompatibility

variable {σ P V S M π E : Type}

/-! ## What is stirred -/

section stirred

variable {T T' : P → Prop} {events news : List (Event P V S M π E)} {q : P}

/-- The packages that matter after some events: those that did before, unless something was learned from a
conflict, and those that received a derivation after which nothing was. -/
def Stirred (T : P → Prop) (events : List (Event P V S M π E)) (q : P) : Prop :=
  T q ∧ (∀ e ∈ events, e.isLearned = false) ∨
    ∃ before e after, events = before ++ e :: after ∧ e.derivedFor? = some q ∧ ∀ e ∈ after, e.isLearned = false

theorem Stirred.mono (h : Stirred T events q) (hle : ∀ p, T p → T' p) : Stirred T' events q :=
  h.imp_left fun ⟨hT, hnone⟩ => ⟨hle q hT, hnone⟩

theorem Stirred.of_append (h : Stirred T (events ++ news) q) : Stirred (Stirred T events) news q := by
  rcases h with ⟨hT, hnone⟩ | ⟨before, e, after, hsplit, he, hnone⟩
  · obtain ⟨hevents, hnews⟩ := List.forall_mem_append.mp hnone
    exact Or.inl ⟨Or.inl ⟨hT, hevents⟩, hnews⟩
  · rcases List.append_eq_append_iff.mp hsplit with ⟨middle, -, hnews⟩ | ⟨middle, hevents, hrest⟩
    · exact Or.inr ⟨middle, e, after, hnews, he, hnone⟩
    · cases middle with
      | nil => exact Or.inr ⟨[], e, after, hrest.symm, he, hnone⟩
      | cons e' middle =>
        obtain ⟨rfl, rfl⟩ := List.cons.inj hrest
        obtain ⟨hmiddle, hnews⟩ := List.forall_mem_append.mp hnone
        exact Or.inl ⟨Or.inr ⟨before, e, middle, hevents, he, hmiddle⟩, hnews⟩

theorem Stirred.of_getLast? (h : events.getLast?.bind Event.derivedFor? = some q) : Stirred T events q := by
  obtain ⟨e, hlast, he⟩ := Option.bind_eq_some_iff.mp h
  obtain ⟨before, rfl⟩ := List.getLast?_eq_some_iff.mp hlast
  exact Or.inr ⟨before, e, [], rfl, he, List.forall_mem_nil _⟩

/-- One event stirs the package that it is a derivation for; if it is that something was learned, it calms
all. -/
theorem Stirred.of_singleton {e : Event P V S M π E} (h : Stirred T [e] q) :
    e.derivedFor? = some q ∨ T q ∧ e.isLearned = false := by
  rcases h with ⟨hT, hnone⟩ | ⟨before, e', after, hsplit, he, -⟩
  · exact Or.inr ⟨hT, hnone e (List.mem_singleton_self e)⟩
  · have hmem : e' ∈ [e] := by
      rw [hsplit]
      simp
    exact Or.inl (List.mem_singleton.mp hmem ▸ he)

theorem Stirred.of_quiet (h : Stirred T news q) (hnews : ∀ e ∈ news, e.stirs = false) : T q := by
  rcases h with ⟨hT, -⟩ | ⟨before, e, after, rfl, he, -⟩
  · exact hT
  · have hstirs := hnews e (by simp)
    simp [Event.stirs, he] at hstirs

end stirred

variable [DecidableEq P] [DecidableEq S] [VersionSet S V]

theorem Deduces.exists_stirred {x y : Session σ P V S M π E} {φ φ' : Phase P} {t t' : List (Assignment P V S)}
    (h : Deduces x φ y φ') (ht : x.state.solution.Trail t) (ht' : y.state.solution.Trail t') :
    ∃ news, y.events.toList = x.events.toList ++ news ∧ ∀ T q, Stirred T news q →
      (∀ p id, φ' ≠ .learned p id) ∧ (T q ∨ ∃ d, t' = t ++ [.derivation d] ∧ d.package = q) := by
  cases h with
  | idle _ hl _ hlog hnews => exact ⟨_, hlog, fun T q hq => ⟨hl, Or.inl (hq.of_quiet hnews)⟩⟩
  | @derive _ p u c news _ hl _ hs hlog hnews =>
    have hgrown := ht'.assignments_eq.symm.trans (ht.derive hs).assignments_eq
    refine ⟨_, hlog, fun T q hq => ⟨hl, ?_⟩⟩
    rcases hq.of_append.of_singleton with hp | ⟨hT, -⟩
    · exact Or.inr ⟨_, hgrown, Option.some.inj hp⟩
    · exact Or.inl (hT.of_quiet hnews)
  | resolve _ _ _ hlog hnews => exact ⟨_, hlog, fun T q hq => ⟨by simp, Or.inl (hq.of_quiet hnews)⟩⟩
  | learn _ _ _ hlog =>
    refine ⟨_, hlog, fun T q hq => ?_⟩
    rcases hq.of_append.of_singleton with hnone | ⟨-, hnone⟩ <;> cases hnone

/-! ## What is ahead -/

section ahead

variable {T : P → Prop} {s : SolverState P V S M} {t : List (Assignment P V S)} {φ φ' : Phase P} {n id : Nat}
  {p q : P} {i : Incompatibility P V S M}

/-- Propagation gets to look at the incompatibility, unless a conflict comes before that. -/
def Phase.Ahead (store : Store P V S M) : Phase P → Nat → Prop
  | .round p, n => n ∈ store.idsFor p
  | .propagate waiting, n => ∃ p ∈ waiting, n ∈ store.idsFor p
  | .scan ids waiting, n => n ∈ ids ∨ ∃ p ∈ waiting, n ∈ store.idsFor p
  | .conflict _ _, _ => True
  | .learned _ _, _ => False
  | .decide, _ => False

omit [DecidableEq S] [VersionSet S V] in
theorem Phase.Turns.ahead {store : Store P V S M} (h : φ.Turns store φ') (hn : φ.Ahead store n) :
    φ'.Ahead store n := by
  cases h with
  | round p => exact ⟨p, List.mem_singleton_self p, hn⟩
  | rest => simp [Phase.Ahead] at hn
  | next p waiting => simpa [Phase.Ahead] using hn
  | done waiting => simpa [Phase.Ahead] using hn

variable [LawfulVersionSet S V]

/-- Of these packages, the registered incompatibilities that are satisfied or imply something are ahead. -/
def Chased (T : P → Prop) (s : SolverState P V S M) (t : List (Assignment P V S)) (φ : Phase P) : Prop :=
  ∀ q n i, T q → n ∈ s.store.idsFor q → s.store.get? n = some i → i.IsActive (Allows t) →
    φ.Ahead s.store n

omit [DecidableEq S] in
theorem Incompatibility.IsActive.congr {A B : Knowledge P S V} (h : i.IsActive A)
    (hAB : ∀ q u, i.get? q = some u → ∀ x, A q x ↔ B q x) : i.IsActive B := by
  have hentails : ∀ q u, i.get? q = some u → (Entails A q u ↔ Entails B q u) := fun q u hu =>
    forall_congr' fun x => imp_congr_left (hAB q u hu x)
  have hexcludes : ∀ q u, i.get? q = some u → (Excludes A q u ↔ Excludes B q u) := fun q u hu =>
    forall_congr' fun x => imp_congr_left (hAB q u hu x)
  rcases h with hsat | ⟨p, ⟨u, hu, hent, hex⟩, hothers⟩
  · exact Or.inl fun q u hu => (hentails q u hu).mp (hsat q u hu)
  · refine Or.inr ⟨p, ⟨u, hu, mt (hentails p u hu).mpr hent, mt (hexcludes p u hu).mpr hex⟩, ?_⟩
    exact fun q w hw hq => (hentails q w hw).mp (hothers q w hw hq)

omit [DecidableEq S] in
theorem Chased.scan {rest : List Nat} {waiting : List P} (h : Chased T s t (.scan (id :: rest) waiting))
    (hid : ∀ i, s.store.get? id = some i → ¬ i.IsActive (Allows t)) :
    Chased T s t (.scan rest waiting) := by
  intro q n i hq hn hi hactive
  rcases h q n i hq hn hi hactive with hmem | hwaiting
  · rcases List.mem_cons.mp hmem with rfl | hmem
    · exact absurd hactive (hid i hi)
    · exact Or.inl hmem
  · exact Or.inr hwaiting

omit [DecidableEq S] in
/-- What becomes active by a derivation mentions its package. -/
theorem Chased.grow {d : Derivation P S} (h : Chased T s t φ) (htidy : s.store.Tidy)
    (hq : T q ∨ q = d.package) (hn : n ∈ s.store.idsFor q) (hi : s.store.get? n = some i)
    (hactive : i.IsActive (Allows (t ++ [.derivation d]))) :
    n ∈ s.store.idsFor d.package ∨ φ.Ahead s.store n := by
  by_cases hmentions : ∃ u, i.get? d.package = some u
  · obtain ⟨u, hu⟩ := hmentions
    exact Or.inl (htidy.mem_idsFor hn hi hu)
  · rcases hq with hT | rfl
    · refine Or.inr (h q n i hT hn hi (hactive.congr fun r u hu x => ?_))
      rw [allows_append_singleton]
      refine and_iff_left fun hr => absurd ⟨u, ?_⟩ hmentions
      exact (congrArg i.get? hr).trans hu
    · exact Or.inl hn

end ahead

/-! ## One step -/

section steps

variable [LawfulVersionSet S V] {provider : Provider σ P V S M π E} {x y : Session σ P V S M π E}
  {t t' : List (Assignment P V S)} {φ φ' : Phase P} {T T' : P → Prop} {G : Vocabulary P S} {q : P}

/-- After a step that decides nothing the same incompatibilities are ahead, and those of the package that a
derivation is made for; after something is learned, none. -/
theorem Advance.chased (h : Invariant x.state t) (htidy : x.state.store.Tidy) (hne : φ ≠ .decide)
    (hT : Chased T x.state t φ) (hstep : Advance provider x t φ y t' φ')
    (hT' : ∀ q, T' q → (∀ p id, φ' ≠ .learned p id) ∧
      (T q ∨ ∃ d, t' = t ++ [.derivation d] ∧ d.package = q)) : Chased T' y.state t' φ' := by
  have hold : t' = t → ∀ q, T' q → T q := by
    rintro rfl q hq
    refine (hT' q hq).2.resolve_right ?_
    rintro ⟨d, hd, -⟩
    exact absurd (congrArg List.length hd) (by simp)
  have hgrown : ∀ d, t' = t ++ [.derivation d] → ∀ q, T' q → T q ∨ q = d.package := by
    rintro d rfl q hq
    refine (hT' q hq).2.imp_right ?_
    rintro ⟨e, he, rfl⟩
    simp only [List.append_cancel_left_eq, List.cons.injEq, Assignment.derivation.injEq, and_true] at he
    rw [he]
  cases hstep with
  | turn hturn hs _ =>
    rw [hs]
    exact fun q n i hq hn hi hactive => hturn.ahead (hT q n i (hold rfl q hq) hn hi hactive)
  | skip hc =>
    obtain ⟨j, hj, hcon⟩ := h.contradictedBy_of_contains hc
    refine Chased.scan (fun q n i hq => hT q n i (hold rfl q hq)) fun i hi => ?_
    rw [hj, Option.some.injEq] at hi
    exact hi ▸ hcon.not_isActive h.consistent
  | wait _ hi hopen =>
    refine Chased.scan (fun q n i hq => hT q n i (hold rfl q hq)) fun j hj => ?_
    rw [hi, Option.some.injEq] at hj
    exact hj ▸ hopen.not_isActive
  | mark hi hcon hs _ =>
    rw [hs]
    refine Chased.scan (s := x.state) (fun q n i hq => hT q n i (hold rfl q hq)) fun j hj => ?_
    rw [hi, Option.some.injEq] at hj
    exact hj ▸ hcon.not_isActive h.consistent
  | @derive _ id rest waiting j p u _ _ hj hu _ _ hs _ =>
    rw [hs]
    intro q n i hq hn hi hactive
    -- the package waits now, and so do all that mention it, the one that was looked at among them
    have hwaits : n ∈ x.state.store.idsFor p →
        (Phase.scan rest (if p ∈ waiting then waiting else p :: waiting)).Ahead x.state.store n := by
      intro hp
      refine Or.inr ⟨p, ?_, hp⟩
      split_ifs with hin
      · exact hin
      · exact List.mem_cons_self
    rcases hT.grow htidy (hgrown _ rfl q hq) hn hi hactive with hp | hmem | ⟨r, hr, hnr⟩
    · exact hwaits hp
    · rcases List.mem_cons.mp hmem with rfl | hmem
      · exact hwaits (htidy.mem_idsFor hn hj hu)
      · exact Or.inl hmem
    · refine Or.inr ⟨r, ?_, hnr⟩
      split_ifs
      · exact hr
      · exact List.mem_cons_of_mem _ hr
  | clash _ _ _ | resolve _ _ _ _ _ _ _ => exact fun _ _ _ _ _ _ _ => trivial
  | learn _ _ _ _ _ _ _ _ => exact fun q n i hq => absurd rfl ((hT' q hq).1 _ _)
  | @learned _ id _ p _ _ _ _ _ _ hs _ =>
    rw [hs]
    intro q n i hq hn hi hactive
    rcases hT.grow htidy (hgrown _ rfl q hq) hn hi hactive with hp | hahead
    · exact ⟨p, List.mem_singleton_self p, hp⟩
    · cases hahead
  | missing _ _ _ _ _ | unusable _ _ _ _ _ _ _ | refused _ _ _ _ _ _ _ _ _ _ | decided _ _ _ _ _ _ _ _ _
  | again _ _ _ _ _ _ _ _ _ => exact absurd rfl hne

/-- Propagation has come to this point: the packages that matter are those of `T`. -/
structure Chasing (G : Vocabulary P S) (T : P → Prop) (x : Session σ P V S M π E)
    (t : List (Assignment P V S)) (φ : Phase P) : Prop where
  invariant : Invariant x.state t
  poised : Poised x.state t φ
  shelved : Shelved x.state.store φ
  surveyed : Surveyed G x.state t
  chased : Chased T x.state t φ

/-- A step goes on with what it stirs, and leaves less to do. -/
theorem Chasing.step (h : Chasing G T x t φ) (hne : φ ≠ .decide)
    (hstep : Solving.deduce (Solving.poll provider) φ x = .ok φ' y) :
    ∃ news t', y.events.toList = x.events.toList ++ news ∧ Chasing G (Stirred T news) y t' φ' ∧
      remaining G.labels.card y.state t' φ' < remaining G.labels.card x.state t φ := by
  have hspec : Solving.Ensures (Solving.deduce (Solving.poll provider) φ x) _ _ :=
    Solving.deduce_concedes h.invariant h.poised hne
  rw [hstep] at hspec
  obtain ⟨t', hadvance⟩ := hspec
  have hinvariant := hadvance.invariant_of_ne_decide h.invariant hne
  have hsurveyed := hadvance.surveyed_of_ne_decide h.invariant hne h.surveyed
  obtain ⟨news, hlog, hstirred⟩ :=
    (Solving.deduces_of_deduce hstep).exists_stirred h.invariant.trail hinvariant.trail
  refine ⟨news, t', hlog, ?_, ?_⟩
  · exact
      { invariant := hinvariant
        poised := hadvance.poised h.invariant hinvariant h.poised
        shelved := hadvance.shelved h.shelved
        surveyed := hsurveyed
        chased := hadvance.chased h.invariant h.shelved.tidy hne h.chased (hstirred T) }
  · exact hadvance.remaining_lt h.invariant h.poised (h.surveyed.length_le h.invariant)
      (hsurveyed.length_le hinvariant)

end steps

/-! ## The vocabulary of a state -/

section vocabulary

variable [LawfulVersionSet S V] {sets : Finset S} {u : Term S}

omit [DecidableEq S] in
theorem Term.IsOver.of_versions_mem (h : u.versions ∈ sets) : u.IsOver sets := by
  cases u with
  | positive versions => exact .positive h
  | negative versions => exact (Term.IsOver.positive h).negate

def SolverState.vocabulary (s : SolverState P V S M) (t : List (Assignment P V S)) : Vocabulary P S where
  packages := (s.store.arena.toList.flatMap (fun i => i.terms.keys) ++ t.map (fun a => a.package)).toFinset
  sets := (s.store.arena.toList.flatMap (fun i => i.terms.entries.map fun e => e.2.versions) ++
    t.map (fun a => a.term.versions)).toFinset

theorem Surveyed.vocabulary (s : SolverState P V S M) (t : List (Assignment P V S)) :
    Surveyed (s.vocabulary t) s t where
  stored n i hi q u hu := by
    have hmem : i ∈ s.store.arena.toList := Array.mem_toList_iff.mpr (Array.mem_of_getElem? hi)
    have hentry : (q, u) ∈ i.terms.entries := i.terms.get?_eq_some_iff.mp hu
    constructor
    · exact List.mem_toFinset.mpr (List.mem_append_left _
        (List.mem_flatMap.mpr ⟨i, hmem, List.mem_map_of_mem hentry⟩))
    · exact .of_versions_mem (List.mem_toFinset.mpr (List.mem_append_left _
        (List.mem_flatMap.mpr ⟨i, hmem, List.mem_map_of_mem hentry⟩)))
  decided d hd := by
    constructor
    · exact List.mem_toFinset.mpr (List.mem_append_right _ (List.mem_map_of_mem hd))
    · exact .of_versions_mem (List.mem_toFinset.mpr (List.mem_append_right _ (List.mem_map_of_mem hd)))

end vocabulary

/-! ## Runs of steps -/

/-- No registered incompatibility that mentions the package is satisfied, or all but satisfied. -/
def SolverState.Quiescent (s : SolverState P V S M) (q : P) : Prop :=
  ∀ p n i u, n ∈ s.store.idsFor p → s.store.get? n = some i → i.get? q = some u →
    s.solution.standing i ≠ .satisfied ∧ ∀ r, s.solution.standing i ≠ .almostSatisfied r

namespace Solving

section runs

variable {provider : Provider σ P V S M π E} {x y : Session σ P V S M π E} {T T' : P → Prop} {φ φ' : Phase P}
  {α : Type} {stop : Phase P → Option α} {poll' : Solving σ P V S M π E Unit}

/-- Propagation ended with all that was stirred at rest, or because there is no solution or the client gives
up. -/
def Settles (provider : Provider σ P V S M π E) (T : P → Prop) (x : Session σ P V S M π E)
    (r : EStateM.Result (Failure P V S E) (Session σ P V S M π E) Unit) : Prop :=
  Ensures r
    (fun _ y => ∃ news, y.events.toList = x.events.toList ++ news ∧
      ∀ q, Stirred T news q → y.state.Quiescent q)
    (fun f => (∃ id, f = .noSolution id) ∨
      ∃ c fault, (provider.shouldCancel c).1 ≠ .ok false ∧ f = .cancelled fault)

theorem Settles.of_step {news : List (Event P V S M π E)}
    {r : EStateM.Result (Failure P V S E) (Session σ P V S M π E) Unit} (h : Settles provider T' y r)
    (hlog : y.events.toList = x.events.toList ++ news) (hT : ∀ q, Stirred T news q → T' q) :
    Settles provider T x r := by
  refine h.mono (fun _ z hz => ?_) fun _ hf => hf
  obtain ⟨rest, hrest, hquiescent⟩ := hz
  refine ⟨news ++ rest, by rw [hrest, hlog, List.append_assoc], fun q hq => hquiescent q ?_⟩
  exact hq.of_append.mono hT

theorem deduceUntil_of_step {steps : Nat} (hstop : stop φ = none) (h : deduce poll' φ x = .ok φ' y) :
    deduceUntil stop poll' (steps + 1) φ x = deduceUntil stop poll' steps φ' y := by
  rw [deduceUntil, hstop]
  exact bind_of_ok h

theorem deduceUntil_of_le {steps steps' : Nat} {a : α} (h : deduceUntil stop poll' steps φ x = .ok a y)
    (hle : steps ≤ steps') : deduceUntil stop poll' steps' φ x = .ok a y := by
  induction steps generalizing steps' φ x with
  | zero => cases h
  | succ steps ih =>
    obtain ⟨n, rfl⟩ := Nat.exists_eq_add_of_le' (show 1 ≤ steps' by omega)
    cases hstop : stop φ with
    | some b =>
      rw [deduceUntil, hstop] at h ⊢
      exact h
    | none =>
      rw [deduceUntil, hstop] at h
      obtain ⟨φ', z, hz, hrest⟩ := exists_of_bind h
      rw [deduceUntil_of_step hstop hz]
      exact ih hrest (by omega)

end runs

end Solving

section runs

variable [LawfulVersionSet S V] {provider : Provider σ P V S M π E} {x y : Session σ P V S M π E}
  {t : List (Assignment P V S)} {φ : Phase P} {T : P → Prop} {G : Vocabulary P S} {q : P}

theorem Chasing.quiescent (h : Chasing G T x t .decide) (hq : T q) : x.state.Quiescent q := by
  intro p n i u hn hi hu
  have hmem := h.shelved.tidy.mem_idsFor hn hi hu
  have hcontingent := h.invariant.isContingent hi
  refine ⟨fun hs => ?_, fun r hs => ?_⟩
  · exact h.chased q n i hq hmem hi (Or.inl ((standing_eq_satisfied_iff h.invariant.describes hcontingent).mp hs))
  · exact h.chased q n i hq hmem hi
      (Or.inr ⟨r, (standing_eq_almostSatisfied_iff h.invariant.describes hcontingent).mp hs⟩)

/-- From wherever propagation has come to, it settles. -/
theorem Chasing.exists_settles (provider : Provider σ P V S M π E) (h : Chasing G T x t φ) :
    ∃ enough r, (∀ steps, enough ≤ steps →
        Solving.deduceUntil (fun φ => if φ = .decide then some () else none) (Solving.poll provider) steps φ x =
          r) ∧ Solving.Settles provider T x r := by
  -- over what remains to be done, which is well-founded; the vocabulary is the same all along
  generalize hm : remaining G.labels.card x.state t φ = m
  induction m using WellFoundedLT.induction generalizing T x t φ with
  | ind m ih =>
    by_cases hne : φ = .decide
    · subst hne
      refine ⟨1, .ok () x, fun steps hsteps => ?_, [], (List.append_nil _).symm, fun q hq => ?_⟩
      · obtain ⟨n, rfl⟩ := Nat.exists_eq_add_of_le' hsteps
        rfl
      · exact h.quiescent (hq.of_quiet (List.forall_mem_nil _))
    · cases hstep : Solving.deduce (Solving.poll provider) φ x with
      | error f y =>
        have hconcedes : Solving.Ensures (Solving.deduce (Solving.poll provider) φ x) _ _ :=
          Solving.deduce_concedes h.invariant h.poised hne
        rw [hstep] at hconcedes
        refine ⟨1, .error f y, fun steps hsteps => ?_, ?_⟩
        · obtain ⟨n, rfl⟩ := Nat.exists_eq_add_of_le' hsteps
          rw [Solving.deduceUntil, if_neg hne]
          simp only [bind, EStateM.bind, hstep]
        · cases hconcedes with
          | cancelled hc => exact Or.inr ⟨_, _, hc, rfl⟩
          | noSolution _ _ _ => exact Or.inl ⟨_, rfl⟩
      | ok φ' y =>
        obtain ⟨news, t', hlog, h', hlt⟩ := h.step hne hstep
        obtain ⟨enough, r, hrun, hr⟩ := ih _ (hm ▸ hlt) h' rfl
        refine ⟨enough + 1, r, fun steps hsteps => ?_, hr.of_step hlog fun _ => id⟩
        obtain ⟨n, rfl⟩ := Nat.exists_eq_add_of_le' (show 1 ≤ steps by omega)
        rw [Solving.deduceUntil_of_step (if_neg hne) hstep]
        exact hrun n (by omega)

end runs

/-! ## At any moment -/

section moments

variable [LawfulVersionSet S V] [DecidableEq V] [LT π] [DecidableLT π] {provider : Provider σ P V S M π E}
  {client : σ} {root : P} {version : V} {x : Session σ P V S M π E} {φ : Phase P}

omit [DecidableEq V] [LT π] [DecidableLT π] in
/-- Before anything is derived only the root has anything to propagate. -/
theorem Session.Fresh.exists_settles (h : x.Fresh root version φ) (p : P) :
    ∃ enough r, (∀ steps, enough ≤ steps → Solving.propagate (Solving.poll provider) steps p x = r) ∧
      Solving.Settles provider (· = p) x r := by
  have hnext : Solving.deduce (Solving.poll provider) (.propagate [p]) x =
      .ok (.scan (if p = root then [0] else []) []) x := by
    show EStateM.Result.ok (Phase.scan (x.state.store.idsFor p).reverse []) x = _
    rw [h.state, idsFor_start]
    split_ifs <;> rfl
  by_cases hp : p = root
  · subst hp
    rw [if_pos rfl] at hnext
    obtain ⟨y, hopened, hscan⟩ := Solving.deduce_scan_start provider h.state h.visited h.answers
    have hinvariant : Invariant y.state [.derivation (rootDerivation p version)] :=
      hopened.state ▸ Invariant.opened p version
    have htrail : x.state.solution.Trail [] := h.state ▸ PartialSolution.Trail.empty
    obtain ⟨news, hlog, hstirred⟩ :=
      (Solving.deduces_of_deduce hscan).exists_stirred htrail hinvariant.trail
    have hroot : ∀ q, Stirred (· = p) news q → q = p := fun q hq => by
      rcases (hstirred _ q hq).2 with rfl | ⟨d, hd, rfl⟩
      · rfl
      · cases List.singleton_inj.mp hd
        rfl
    have hchasing : Chasing (y.state.vocabulary [.derivation (rootDerivation p version)]) (· = p) y
        [.derivation (rootDerivation p version)] (.scan [] [p]) :=
      { invariant := hinvariant
        poised := hopened.state ▸ (Ready.opened p version).toPoised
        shelved := .scan (hopened.state ▸ tidy_start p version) (by simp)
        surveyed := .vocabulary _ _
        chased := fun q n i hq hn _ _ => Or.inr ⟨p, List.mem_singleton_self p, hq ▸ hn⟩ }
    obtain ⟨enough, r, hrun, hr⟩ := hchasing.exists_settles provider
    refine ⟨enough + 2, r, fun steps hsteps => ?_, hr.of_step hlog hroot⟩
    obtain ⟨n, rfl⟩ := Nat.exists_eq_add_of_le' (show 2 ≤ steps by omega)
    unfold Solving.propagate
    rw [Solving.deduceUntil_of_step (by simp) hnext, Solving.deduceUntil_of_step (by simp) hscan]
    exact hrun n (by omega)
  · rw [if_neg hp] at hnext
    refine ⟨4, .ok () x, fun steps hsteps => ?_, [], (List.append_nil _).symm, fun q hq => ?_⟩
    · obtain ⟨n, rfl⟩ := Nat.exists_eq_add_of_le' hsteps
      unfold Solving.propagate
      rw [Solving.deduceUntil_of_step (by simp) hnext]
      rfl
    · have hq : q = p := hq.of_quiet (List.forall_mem_nil _)
      intro w n i u hn hi hu
      rw [h.state, get?_start] at hi
      split_ifs at hi
      cases hi
      simp only [notRoot, get?, OrderedMap.get?_single] at hu
      split_ifs at hu with hroot
      exact absurd (hq.symm.trans hroot.symm) hp

/-- At every moment of a run, to propagate a package comes to an end. Unless there is no solution or the client
gives up, no registered incompatibility is then satisfied or all but satisfied that mentions that package or
one that received a derivation meanwhile; after a conflict, one that received a derivation since the last
thing that was learned. -/
theorem Reached.propagate_quiesces (h : Reached provider client root version x φ)
    (hproper : provider.AnswersProper) (p : P) :
    ∃ enough r, (∀ steps, enough ≤ steps → Solving.propagate (Solving.poll provider) steps p x = r) ∧
      Solving.Ensures r
        (fun _ y => ∃ news, y.events.toList = x.events.toList ++ news ∧
          ∀ q, Stirred (· = p) news q → y.state.Quiescent q)
        (fun f => (∃ id, f = .noSolution id) ∨
          ∃ c fault, (provider.shouldCancel c).1 ≠ .ok false ∧ f = .cancelled fault) := by
  rcases h.cases (I := fun _ _ _ => True) hproper (fun _ => trivial) (fun _ _ _ _ => trivial) with
    hfresh | ⟨t, hinv, -, -⟩
  · exact hfresh.exists_settles p
  · have hchasing : Chasing (x.state.vocabulary t) (· = p) x t (.propagate [p]) :=
      { invariant := hinv
        poised := ⟨fun n hn => hinv.exists_of_mem_idsFor hn, nofun, nofun⟩
        shelved := .propagate (h.shelved hproper).tidy p
        surveyed := .vocabulary _ _
        chased := fun q n i hq hn _ _ => ⟨p, List.mem_singleton_self p, hq ▸ hn⟩ }
    exact hchasing.exists_settles provider

end moments

open PackageTable in
/-- Once version 1 of package 2 is decided, to propagate it derives that package 3 is needed and meets a
conflict, as there is none. What is learned from it is derived for package 2, which is then at rest. Package 3
is not: that it has no version implies something still. -/
theorem fourPackages_quiesces :
    ∃ y, Solving.propagate (Solving.poll fourPackages.provider) 60 2 (fourPackagesMoment 67).1 = .ok () y ∧
      (y.events.toList.drop (fourPackagesMoment 67).1.events.size).head?.bind Event.derivedFor? = some 3 ∧
      (y.events.toList.drop (fourPackagesMoment 67).1.events.size).any Event.isLearned = true ∧
      y.state.Quiescent 2 ∧ ¬ y.state.Quiescent 3 := by
  have hfound : Solving.Ensures
      (Solving.propagate (Solving.poll fourPackages.provider) 60 2 (fourPackagesMoment 67).1)
      (fun _ y => let news := y.events.toList.drop (fourPackagesMoment 67).1.events.size
        (news.head?.bind Event.derivedFor? = some 3 ∧ news.any Event.isLearned = true ∧
          news.getLast?.bind Event.derivedFor? = some 2) ∧ 4 ∈ y.state.store.idsFor 3 ∧
        (y.state.store.get? 4).map (fun i => (y.state.solution.standing i, (i.get? 3).isSome)) =
          some (.almostSatisfied 3, true)) (fun _ => False) := by
    rw [fourPackagesMoment, fourPackages_ascending.provider_eq]
    decide +kernel
  cases hrun : Solving.propagate (Solving.poll fourPackages.provider) 60 2 (fourPackagesMoment 67).1 with
  | error f y =>
    rw [hrun] at hfound
    exact hfound.elim
  | ok u y =>
    rw [hrun] at hfound
    obtain ⟨⟨hfirst, hlearned, hlast⟩, hlisted, hfour⟩ := hfound
    obtain ⟨enough, r, hsame, hr⟩ :=
      (reached_fourPackagesMoment 67).propagate_quiesces (provider_answersProper fourPackages_proper) 2
    have hr' : r = .ok () y := by
      rw [← hsame _ (Nat.le_max_left enough 60)]
      exact Solving.deduceUntil_of_le hrun (Nat.le_max_right enough 60)
    rw [hr'] at hr
    obtain ⟨news, hlog, hquiescent⟩ := hr
    refine ⟨y, rfl, hfirst, hlearned, hquiescent 2 (.of_getLast? ?_), fun hthree => ?_⟩
    · rwa [hlog, ← Array.length_toList, List.drop_left] at hlast
    · obtain ⟨i, hi, hstanding⟩ := Option.map_eq_some_iff.mp hfour
      obtain ⟨w, hw⟩ := Option.isSome_iff_exists.mp (Prod.mk.inj hstanding).2
      exact (hthree 3 4 i w hlisted hi hw).2 3 (Prod.mk.inj hstanding).1

end DependencyResolution
