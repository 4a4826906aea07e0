import DependencyResolution.Proofs.Solver.Analysis
import DependencyResolution.Proofs.Solver.Justification

/-!
# Marks hide nothing

Propagation skips the incompatibilities that are marked as contradicted. At every moment of a run a mark
is right: it is of a level that is still there, and what is known up to that level contradicts the
incompatibility. So a propagation that skips nothing only looks at more incompatibilities, of which it
finds that they are contradicted, and does the same otherwise (`Reached.marks_hide_nothing`).

No operation but the skip reads the marks. Operations that do not (`Solving.Oblivious`) do the same in
sessions that differ in their marks alone, and the two propagations are compared along such sessions.
-/

namespace DependencyResolution

open Incompatibility

variable {σ P V S M π E : Type}

/-! ## Sessions without marks -/

def Session.unmarked (x : Session σ P V S M π E) : Session σ P V S M π E :=
  { x with state := { x.state with contradicted := .empty } }

namespace Solving

section oblivious

variable {α β : Type} {x y : Session σ P V S M π E}

def unmarked : EStateM.Result (Failure P V S E) (Session σ P V S M π E) α →
    EStateM.Result (Failure P V S E) (Session σ P V S M π E) α
  | .ok a x => .ok a x.unmarked
  | .error f x => .error f x.unmarked

/-- The operation takes no account of the marks. -/
def Oblivious (m : Solving σ P V S M π E α) : Prop := ∀ x, unmarked (m x) = unmarked (m x.unmarked)

theorem Oblivious.eq {m : Solving σ P V S M π E α} (h : Oblivious m) (hxy : x.unmarked = y.unmarked) :
    unmarked (m x) = unmarked (m y) := by
  rw [h x, hxy, ← h y]

theorem unmarked_bind {m m' : Solving σ P V S M π E α} {f f' : α → Solving σ P V S M π E β}
    (hm : unmarked (m x) = unmarked (m' y))
    (hf : ∀ a x' y', m x = .ok a x' → x'.unmarked = y'.unmarked → unmarked (f a x') = unmarked (f' a y')) :
    unmarked ((m >>= f) x) = unmarked ((m' >>= f') y) := by
  simp only [bind, EStateM.bind]
  cases hx : m x with
  | error e x' =>
    cases hy : m' y with
    | error e' y' =>
      rw [hx, hy] at hm
      obtain ⟨rfl, hxy⟩ := EStateM.Result.error.inj hm
      exact congrArg (EStateM.Result.error e) hxy
    | ok b y' =>
      rw [hx, hy] at hm
      cases hm
  | ok a x' =>
    cases hy : m' y with
    | error e' y' =>
      rw [hx, hy] at hm
      cases hm
    | ok b y' =>
      rw [hx, hy] at hm
      obtain ⟨rfl, hxy⟩ := EStateM.Result.ok.inj hm
      exact hf a x' y' hx hxy

namespace Oblivious

theorem pure (a : α) : Oblivious (pure a : Solving σ P V S M π E α) := fun _ => rfl

theorem throw (f : Failure P V S E) : Oblivious (throw f : Solving σ P V S M π E α) := fun _ => rfl

theorem bind {m : Solving σ P V S M π E α} {f : α → Solving σ P V S M π E β} (hm : Oblivious m)
    (hf : ∀ a, Oblivious (f a)) : Oblivious (m >>= f) :=
  fun x => unmarked_bind (hm x) fun a _ _ _ hxy => (hf a).eq hxy

/-- An operation may read of the state what is no mark. -/
theorem state_bind {f : SolverState P V S M → Solving σ P V S M π E β} (hf : ∀ s, Oblivious (f s))
    (hread : ∀ s, f { s with contradicted := .empty } = f s) : Oblivious (state >>= f) := by
  intro x
  change unmarked (f x.state x) = unmarked (f x.unmarked.state x.unmarked)
  rw [(hf x.state) x]
  exact congrArg (fun m => unmarked (m x.unmarked)) (hread x.state).symm

theorem ofExcept (r : Except (Violation P V S) α) :
    Oblivious (ofExcept r : Solving σ P V S M π E α) := by
  cases r with
  | ok a => exact .pure a
  | error v => exact .throw _

theorem note (n : Note P V S M) : Oblivious (note n : Solving σ P V S M π E Unit) := fun _ => rfl

theorem modifyState {f : SolverState P V S M → SolverState P V S M}
    (hf : ∀ s, { f s with contradicted := .empty } =
      { f { s with contradicted := .empty } with contradicted := .empty }) :
    Oblivious (modifyState f : Solving σ P V S M π E Unit) := by
  intro x
  change EStateM.Result.ok _ _ = EStateM.Result.ok _ _
  congr 1
  exact congrArg (fun s => ({ x with state := s } : Session σ P V S M π E)) (hf x.state)

theorem alloc (i : Incompatibility P V S M) : Oblivious (alloc i : Solving σ P V S M π E Nat) :=
  fun _ => rfl

theorem poll (provider : Provider σ P V S M π E) : Oblivious (poll provider) := by
  have hask : Oblivious (ask provider.shouldCancel .polled : Solving σ P V S M π E (Except E Bool)) :=
    fun _ => rfl
  refine hask.bind fun answer => ?_
  rcases answer with fault | _ | _
  · exact .throw _
  · exact .pure ()
  · exact .throw _

theorem incompatibility (id : Nat) :
    Oblivious (incompatibility id : Solving σ P V S M π E (Incompatibility P V S M)) :=
  .state_bind (fun s => .ofExcept (s.store.get id)) fun _ => rfl

variable [DecidableEq P]

theorem register (id : Nat) : Oblivious (register id : Solving σ P V S M π E Unit) :=
  .state_bind (fun s => (Oblivious.ofExcept (s.store.register id)).bind fun _ =>
    .modifyState fun _ => rfl) fun _ => rfl

theorem backtrack (target : Int) : Oblivious (backtrack target : Solving σ P V S M π E Unit) :=
  .state_bind (fun s => (Oblivious.ofExcept (s.solution.backtrack target)).bind fun _ =>
    (Oblivious.modifyState fun _ => rfl).bind fun _ => .note _) fun _ => rfl

theorem backjump (id : Nat) (changed : Bool) (level : Nat) :
    Oblivious (backjump id changed level : Solving σ P V S M π E Unit) := by
  refine (Oblivious.backtrack _).bind fun _ => (Oblivious.modifyState fun _ => rfl).bind fun _ => ?_
  cases changed with
  | false => exact .pure ()
  | true => exact .register id

variable [VersionSet S V]

theorem derive (p : P) (u : Term S) (cause : Nat) :
    Oblivious (derive p u cause : Solving σ P V S M π E Unit) :=
  .state_bind (fun s => (Oblivious.ofExcept (s.solution.derive p u cause)).bind fun _ =>
    (Oblivious.modifyState fun _ => rfl).bind fun _ => .note _) fun _ => rfl

theorem deriveFrom (p : P) (id : Nat) : Oblivious (deriveFrom p id : Solving σ P V S M π E Unit) := by
  refine (Oblivious.incompatibility id).bind fun i => ?_
  cases i.get? p with
  | none => exact .throw _
  | some u => exact (Oblivious.derive p u.negate id).bind fun _ => .modifyState fun _ => rfl

variable [DecidableEq S]

theorem nextConflict (id : Nat) (changed : Bool) :
    Oblivious (nextConflict id changed : Solving σ P V S M π E (Phase P)) := by
  refine (Oblivious.incompatibility id).bind fun i => .state_bind (fun s => ?_) fun _ => rfl
  split_ifs
  · exact (Oblivious.note _).bind fun _ => (Oblivious.ofExcept _).bind fun _ => .throw _
  · refine (Oblivious.ofExcept (s.solution.satisfierSearch s.store i)).bind ?_
    rintro ⟨p, previous | cause⟩
    · exact (Oblivious.backjump id changed _).bind fun _ => (Oblivious.note _).bind fun _ => .pure _
    · exact (Oblivious.ofExcept _).bind fun r => (Oblivious.alloc r).bind fun _ =>
        (Oblivious.note _).bind fun _ => .pure _

end Oblivious

end oblivious

/-! ## Propagation that skips nothing -/

variable [DecidableEq P] [DecidableEq S] [VersionSet S V]

/-- Looks at the next incompatibility, marked or not, and derives what it implies. -/
def nextIdThoroughly : (ids : List Nat) → (waiting : List P) → Solving σ P V S M π E (Phase P)
  | [], waiting => return .propagate waiting
  | id :: rest, waiting => do
    let s ← state
    match s.solution.standing (← incompatibility id) with
    | .satisfied => return .conflict id false
    | .almostSatisfied package =>
      deriveFrom package id
      return .scan rest (if package ∈ waiting then waiting else package :: waiting)
    | .contradicted _ => return .scan rest waiting
    | .inconclusive => return .scan rest waiting

def deduceThoroughly (poll : Solving σ P V S M π E Unit) : Phase P → Solving σ P V S M π E (Phase P)
  | .scan ids waiting => nextIdThoroughly ids waiting
  | phase => deduce poll phase

/-- Takes steps that skip nothing until a phase is reached at which to stop. -/
def deduceThoroughlyUntil {α : Type} (stop : Phase P → Option α) (poll : Solving σ P V S M π E Unit) :
    (steps : Nat) → Phase P → Solving σ P V S M π E α
  | 0, _ => throw .outOfSteps
  | steps + 1, phase => do
    match stop phase with
    | some a => return a
    | none => deduceThoroughlyUntil stop poll steps (← deduceThoroughly poll phase)

/-- Derives everything that the assignments of a package imply, without skipping anything. -/
def propagateThoroughly (poll : Solving σ P V S M π E Unit) (steps : Nat) (package : P) :
    Solving σ P V S M π E Unit :=
  deduceThoroughlyUntil (fun phase => if phase = .decide then some () else none) poll steps
    (.propagate [package])

section thoroughly

variable {x : Session σ P V S M π E} {poll : Solving σ P V S M π E Unit}

theorem Oblivious.nextIdThoroughly (ids : List Nat) (waiting : List P) :
    Oblivious (nextIdThoroughly ids waiting : Solving σ P V S M π E (Phase P)) := by
  cases ids with
  | nil => exact .pure _
  | cons id rest =>
    refine .state_bind (fun s => (Oblivious.incompatibility id).bind fun i => ?_) fun _ => rfl
    cases s.solution.standing i with
    | almostSatisfied p => exact (Oblivious.deriveFrom p id).bind fun _ => .pure _
    | satisfied | contradicted _ | inconclusive => exact .pure _

theorem Oblivious.deduceThoroughly (hpoll : Oblivious poll) (φ : Phase P) :
    Oblivious (deduceThoroughly poll φ) := by
  cases φ with
  | round p => exact hpoll.bind fun _ => .pure _
  | propagate waiting =>
    cases waiting with
    | nil => exact .pure _
    | cons p rest => exact .state_bind (fun _ => .pure _) fun _ => rfl
  | scan ids waiting => exact .nextIdThoroughly ids waiting
  | conflict id changed => exact hpoll.bind fun _ => .nextConflict id changed
  | learned p id => exact (Oblivious.deriveFrom p id).bind fun _ => .pure _
  | decide => exact .pure _

theorem Oblivious.deduceThoroughlyUntil {α : Type} (stop : Phase P → Option α) (hpoll : Oblivious poll)
    (steps : Nat) (φ : Phase P) : Oblivious (deduceThoroughlyUntil stop poll steps φ) := by
  induction steps generalizing φ with
  | zero => exact .throw _
  | succ steps ih =>
    unfold Solving.deduceThoroughlyUntil
    cases stop φ with
    | some a => exact .pure a
    | none => exact (Oblivious.deduceThoroughly hpoll φ).bind ih

/-- What is marked is stored, and what is known contradicts it. -/
def MarksRight (s : SolverState P V S M) : Prop :=
  ∀ id, s.contradicted.contains id = true →
    ∃ i p, s.store.get? id = some i ∧ s.solution.standing i = .contradicted p

/-- Where the marks are right, it makes no difference whether what is marked is skipped. -/
theorem unmarked_nextId (h : MarksRight x.state) (ids : List Nat) (waiting : List P) :
    unmarked (nextId ids waiting x) = unmarked (nextIdThoroughly ids waiting x) := by
  cases ids with
  | nil => rfl
  | cons id rest =>
    rw [nextId, nextIdThoroughly, bind_of_ok (state_eq x), bind_of_ok (state_eq x)]
    cases hc : x.state.contradicted.contains id with
    | true =>
      obtain ⟨i, p, hi, hstanding⟩ := h id hc
      rw [if_pos rfl, bind_of_ok (incompatibility_of_get? hi), hstanding]
    | false =>
      rw [if_neg (by simp)]
      refine unmarked_bind rfl fun i y z _ hyz => ?_
      cases x.state.solution.standing i with
      | satisfied => exact (Oblivious.pure _).eq hyz
      | almostSatisfied p => exact ((Oblivious.deriveFrom p id).bind fun _ => .pure _).eq hyz
      | contradicted p => exact (Oblivious.pure (Phase.scan rest waiting)).eq hyz
      | inconclusive => exact (Oblivious.pure _).eq hyz

end thoroughly

end Solving

/-! ## Marks are right -/

section marks

variable [DecidableEq P] [DecidableEq S] [VersionSet S V] [LawfulVersionSet S V] {s : SolverState P V S M}
  {t : List (Assignment P V S)} {x y : Session σ P V S M π E} {root : P} {version : V} {φ φ' : Phase P}

/-- What is marked is contradicted by the assignments up to the level of the mark, which is still there, and
so by all of them. -/
theorem Invariant.standing_of_mark (h : Invariant s t) {id l : Nat} (hl : s.contradicted.get? id = some l) :
    l ≤ s.solution.level ∧ ∃ i, s.store.get? id = some i ∧
      (∃ p, i.standing (knownFrom (upTo l s.solution.assignments)) = .contradicted p) ∧
      ∃ p, s.solution.standing i = .contradicted p := by
  obtain ⟨hle, i, hi, hcon⟩ := h.inert id l hl
  have hcontingent := h.isContingent hi
  have hdescribes : Describes (knownFrom (upTo l t)) (Allows (upTo l t)) :=
    describes_knownFrom (fun a ha => h.properTrail a (mem_upTo_iff.mp ha).1)
      fun p => (h.consistent p).imp fun _ => allows_upTo
  rw [h.trail.assignments_eq]
  obtain ⟨p, -, hp, -⟩ := standing_of_contradictedBy hdescribes hcontingent hcon
  obtain ⟨q, -, hq, -⟩ := standing_of_contradictedBy h.describes hcontingent
    (hcon.mono fun _ _ => allows_upTo)
  exact ⟨hle, i, hi, ⟨p, hp⟩, q, hq⟩

namespace Solving

/-- From the session propagation can take steps: nothing has been derived, and at most the root is to be
looked at, or the invariant holds. -/
inductive Propagates (root : P) (version : V) (x : Session σ P V S M π E) (φ : Phase P) : Prop
  | fresh (hs : x.state = .start root version) (hv : x.visited = .empty) (ha : x.answers = [])
      (hφ : (∃ p, φ = .propagate [p]) ∨ φ = .scan [0] [] ∨ φ = .scan [] [] ∨ φ = .propagate [] ∨ φ = .decide)
  | invariant (t : List (Assignment P V S)) (h : Invariant x.state t) (hφ : Poised x.state t φ)

theorem Propagates.marksRight (h : Propagates root version x φ) : MarksRight x.state := by
  intro id hid
  cases h with
  | fresh hs =>
    rw [hs] at hid
    cases hid
  | invariant t h hφ =>
    obtain ⟨l, hl⟩ := (OrderedMap.contains_iff _).mp hid
    obtain ⟨-, i, hi, -, p, hp⟩ := h.standing_of_mark hl
    exact ⟨i, p, hi, hp⟩

variable {provider : Provider σ P V S M π E}

theorem Propagates.step (h : Propagates root version x φ) (hstep : deduce (poll provider) φ x = .ok φ' y) :
    Propagates root version y φ' := by
  by_cases hne : φ = .decide
  · subst hne
    cases hstep
    exact h
  cases h with
  | fresh hs hv ha hφ =>
    rcases hφ with ⟨p, rfl⟩ | rfl | rfl | rfl | rfl
    · cases hstep
      refine .fresh hs hv ha ?_
      rw [hs, idsFor_start]
      split_ifs
      · exact Or.inr (Or.inl rfl)
      · exact Or.inr (Or.inr (Or.inl rfl))
    · obtain ⟨z, hz, hscan⟩ := deduce_scan_start provider hs hv ha
      rw [hstep] at hscan
      cases hscan
      exact .invariant _ (hz.state ▸ Invariant.opened root version)
        (hz.state ▸ (Ready.opened root version).toPoised)
    · cases hstep
      exact .fresh hs hv ha (by simp)
    · cases hstep
      exact .fresh hs hv ha (by simp)
    · exact absurd rfl hne
  | invariant t h hφ =>
    have hspec : Ensures (deduce (poll provider) _ x) _ (Halts provider x _) := deduce_spec h hφ hne
    rw [hstep] at hspec
    obtain ⟨t', hadvance⟩ := hspec
    have h' := hadvance.invariant_of_ne_decide h hne
    exact .invariant t' h' (hadvance.poised h h' hφ)

/-- From there it makes no difference to the outcome whether what is marked is skipped. -/
theorem Propagates.unmarked_deduceUntil {α : Type} (stop : Phase P → Option α)
    (h : Propagates root version x φ) (steps : Nat) :
    unmarked (deduceUntil stop (poll provider) steps φ x) =
      unmarked (deduceThoroughlyUntil stop (poll provider) steps φ x) := by
  induction steps generalizing x φ with
  | zero => rfl
  | succ steps ih =>
    unfold deduceUntil deduceThoroughlyUntil
    cases stop φ with
    | some a => rfl
    | none =>
      have hstep : unmarked (deduce (poll provider) φ x) = unmarked (deduceThoroughly (poll provider) φ x) := by
        cases φ with
        | scan ids waiting => exact unmarked_nextId h.marksRight ids waiting
        | _ => rfl
      refine unmarked_bind hstep fun φ' y z hy hyz => ?_
      rw [ih (h.step hy)]
      exact (Oblivious.deduceThoroughlyUntil stop (Oblivious.poll provider) steps φ').eq hyz

end Solving

open Solving in
/-- At every moment of a run what is marked is contradicted by the assignments up to the level of the mark,
which is still there, and so by all of them. From every moment on, propagation of every package ends, apart
from the marks, as it does when it skips nothing: with the same outcome, after the same events, with the same
state. -/
theorem Reached.marks_hide_nothing [DecidableEq V] [LT π] [DecidableLT π] {provider : Provider σ P V S M π E}
    {client : σ} (hproper : provider.AnswersProper) (h : Reached provider client root version x φ) :
    (∀ id l, x.state.contradicted.get? id = some l → l ≤ x.state.solution.level ∧
      ∃ i, x.state.store.get? id = some i ∧
        (∃ p, i.standing (knownFrom (upTo l x.state.solution.assignments)) = .contradicted p) ∧
        ∃ p, x.state.solution.standing i = .contradicted p) ∧
      ∀ steps p, unmarked (propagate (poll provider) steps p x) =
        unmarked (propagateThoroughly (poll provider) steps p x) := by
  rcases h.cases (I := fun _ _ _ => True) hproper (fun _ => trivial) (fun _ _ _ _ => trivial) with
    hfresh | ⟨t, hinv, -, -⟩
  · refine ⟨fun id l hl => ?_, fun steps p => ?_⟩
    · rw [hfresh.state] at hl
      cases hl
    · exact (Propagates.fresh hfresh.state hfresh.visited hfresh.answers
        (Or.inl ⟨p, rfl⟩)).unmarked_deduceUntil _ steps
  · refine ⟨fun id l hl => hinv.standing_of_mark hl, fun steps p => ?_⟩
    have hpoised : Poised x.state t (.propagate [p]) :=
      ⟨fun n hn => hinv.exists_of_mem_idsFor hn, nofun, nofun⟩
    have hpropagates : Propagates root version x (.propagate [p]) := .invariant t hinv hpoised
    exact hpropagates.unmarked_deduceUntil _ steps

end marks

open PackageTable in
/-- What was learned from the conflict over version 2 of package 1 is marked at level 1 when version 1 of
package 2 has been decided at level 3, and propagation from there on is what it would be without marks. -/
theorem fourPackages_marks_hide_nothing :
    (fourPackagesMoment 67).1.state.contradicted.get? 6 = some 1 ∧
      (fourPackagesMoment 67).1.state.solution.level = 3 ∧
      (∃ i, (fourPackagesMoment 67).1.state.store.get? 6 = some i ∧
        (∃ p, i.standing (knownFrom (upTo 1 (fourPackagesMoment 67).1.state.solution.assignments)) =
          .contradicted p) ∧
        ∃ p, (fourPackagesMoment 67).1.state.solution.standing i = .contradicted p) ∧
      ∀ steps p, Solving.unmarked (Solving.propagate (Solving.poll fourPackages.provider) steps p
          (fourPackagesMoment 67).1) =
        Solving.unmarked (Solving.propagateThoroughly (Solving.poll fourPackages.provider) steps p
          (fourPackagesMoment 67).1) := by
  have hfound : (fourPackagesMoment 67).1.state.contradicted.get? 6 = some 1 ∧
      (fourPackagesMoment 67).1.state.solution.level = 3 := by
    rw [fourPackagesMoment, fourPackages_ascending.provider_eq]
    decide +kernel
  obtain ⟨hmarks, hsame⟩ :=
    (reached_fourPackagesMoment 67).marks_hide_nothing (provider_answersProper fourPackages_proper)
  exact ⟨hfound.1, hfound.2, (hmarks 6 1 hfound.1).2, hsame⟩

end DependencyResolution
