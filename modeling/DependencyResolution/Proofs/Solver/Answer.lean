import DependencyResolution.Proofs.Solver.Run

/-!
# What the provider says

Every answer about versions is a list of facts about one package (`Event.facts`), and it refutes the
worlds in which one of them holds. A solver that has heard nothing against a world stores nothing that
holds in it: joining and resolving add no knowledge (`Advance.not_holdsIn`).
-/

namespace DependencyResolution

open Incompatibility

variable {σ P V S M π E : Type} [DecidableEq P] [DecidableEq S] [VersionSet S V] [LawfulVersionSet S V]

/-! ## Answers -/

section answers

/-- What an answer of the provider says about versions of a package. -/
def Event.facts : Event P V S M π E → List (Incompatibility P V S M)
  | .chose p versions (.ok none) => [missing p versions]
  | .retrieved p v (.ok (.unavailable reason)) => [unusableVersion p v reason]
  | .retrieved p v (.ok (.available requirements)) => dependencyFacts p v requirements.entries
  | _ => []

omit [DecidableEq P] [DecidableEq S] [VersionSet S V] [LawfulVersionSet S V] in
def Event.AnsweredBy (provider : Provider σ P V S M π E) : Event P V S M π E → Prop
  | .chose p versions answer => ∃ c, (provider.chooseVersion p versions c).1 = answer
  | .retrieved p v answer => (∃ versions c, (provider.chooseVersion p versions c).1 = .ok (some v)) ∧
      ∃ c, (provider.dependencies p v c).1 = answer
  | _ => True

/-- Something that was said is not so in the world. -/
def Event.Refutes (e : Event P V S M π E) (w : World P S V) : Prop := ∃ i ∈ e.facts, i.HoldsIn w

variable {w : World P S V} {p : P} {v : V}

theorem Event.refutes_missing {versions : S} :
    (Event.chose p versions (.ok none) : Event P V S M π E).Refutes w ↔
      (Term.positive versions).Holds (w p) := by
  simp only [Refutes, facts, List.mem_singleton, exists_eq_left]
  exact holdsIn_single

theorem Event.refutes_unavailable {reason : M} :
    (Event.retrieved p v (.ok (.unavailable reason)) : Event P V S M π E).Refutes w ↔
      (Term.exact v : Term S).Holds (w p) := by
  simp only [Refutes, facts, List.mem_singleton, exists_eq_left]
  exact holdsIn_single

theorem Event.refutes_available {requirements : OrderedMap P S}
    (hr : ∀ r ∈ requirements.entries, LawfulVersionSet.Proper r.2) :
    (Event.retrieved p v (.ok (.available requirements)) : Event P V S M π E).Refutes w ↔
      (Term.exact v : Term S).Holds (w p) ∧
        ∃ needed allowed, requirements.get? needed = some allowed ∧
          ¬ (Term.positive allowed).Holds (w needed) := by
  have hv : LawfulVersionSet.Proper (VersionSet.singleton v : S) := LawfulVersionSet.proper_singleton v
  constructor
  · rintro ⟨i, hi, hholds⟩
    obtain ⟨⟨needed, allowed⟩, hmem, hdep⟩ := List.mem_filterMap.mp hi
    obtain ⟨hself, hneeded⟩ := (holdsIn_ofDependency hv (hr _ hmem) hdep w).mp hholds
    exact ⟨hself, needed, allowed, requirements.get?_eq_some_iff.mpr hmem, hneeded⟩
  · rintro ⟨hself, needed, allowed, hget, hneeded⟩
    have hmem := requirements.get?_eq_some_iff.mp hget
    cases hdep : (ofDependency p (VersionSet.singleton v) needed allowed :
        Option (Incompatibility P V S M)) with
    | none =>
      obtain ⟨rfl, hle⟩ := holds_of_ofDependency_eq_none hv (hr _ hmem) hdep
      exact absurd (hle _ hself) hneeded
    | some i =>
      exact ⟨i, List.mem_filterMap.mpr ⟨_, hmem, hdep⟩,
        (holdsIn_ofDependency hv (hr _ hmem) hdep w).mpr ⟨hself, hneeded⟩⟩

end answers

/-! ## What follows from answers -/

section worlds

variable {provider : Provider σ P V S M π E} {x y : Session σ P V S M π E} {t t' : List (Assignment P V S)}
  {φ φ' : Phase P} {w : World P S V} {s s' : SolverState P V S M} {i : Incompatibility P V S M} {id : Nat}

/-- Nothing in the store holds in the world. -/
def Store.Spares (store : Store P V S M) (w : World P S V) : Prop :=
  ∀ n i, store.get? n = some i → ¬ i.HoldsIn w

omit [DecidableEq S] in
theorem Store.Spares.alloc {store : Store P V S M} (h : store.Spares w) (hi : ¬ i.HoldsIn w) :
    (store.alloc i).1.Spares w := by
  intro n j hj
  rw [Store.get?_alloc] at hj
  split_ifs at hj
  · cases hj
    exact hi
  · exact h n j hj

theorem Store.Made.not_holdsIn {store : Store P V S M} (h : store.Made i) (hs : store.Spares w) :
    ¬ i.HoldsIn w := by
  induction h with
  | stored h => exact hs _ _ h
  | joined _ _ h ihi ihj =>
    rw [h.holdsIn_iff]
    exact fun hc => hc.elim ihi ihj

theorem Inserted.spares (h : Inserted s s' i id) (hs : s.store.Spares w) (hi : ¬ i.HoldsIn w) :
    s'.store.Spares w :=
  fun n j hj => (h.made n j hj).not_holdsIn (hs.alloc hi)

theorem Adds.spares {facts : List (Incompatibility P V S M)} {ids : List Nat} (h : Adds s facts s' ids)
    (hs : s.store.Spares w) (hf : ∀ i ∈ facts, ¬ i.HoldsIn w) : s'.store.Spares w := by
  induction h with
  | nil => exact hs
  | cons h _ ih =>
    rw [List.forall_mem_cons] at hf
    exact ih (h.spares hs hf.1) hf.2

/-- A step stores nothing that holds in a world which no answer of the provider refutes. -/
theorem Advance.not_holdsIn (h : Invariant x.state t) (hs : x.state.store.Spares w)
    (hw : ∀ e : Event P V S M π E, e.AnsweredBy provider → ¬ e.Refutes w)
    (hstep : Advance provider x t φ y t' φ') : y.state.store.Spares w := by
  have hfacts : ∀ e : Event P V S M π E, e.AnsweredBy provider → ∀ i ∈ e.facts, ¬ i.HoldsIn w :=
    fun e he i hi hc => hw e he ⟨i, hi, hc⟩
  cases hstep with
  | skip _ | wait _ _ _ | clash _ _ _ => exact hs
  | turn _ hs' _ | mark _ _ hs' _ | derive _ _ _ _ _ hs' _ | learned _ _ _ _ hs' _
  | again _ _ _ _ _ _ hs' _ _ =>
    rw [hs']
    exact hs
  | resolve hi _ _ hc hr hs' _ =>
    rw [hs']
    refine hs.alloc fun hholds => ?_
    rcases holdsIn_of_resolvent (h.isContingent hi).isProper (h.isContingent hc).isProper hr hholds with
      hc' | hc'
    · exact hs _ _ hi hc'
    · exact hs _ _ hc hc'
  | @learn _ _ changed _ _ _ _ _ _ _ _ _ _ _ _ hs' _ =>
    rw [hs']
    cases changed <;> exact hs
  | missing _ hc hs' _ _ => exact hs'.spares hs (hfacts (.chose _ _ _) hc _ (List.mem_singleton_self _))
  | unusable _ _ hc hd hs' _ _ =>
    exact hs'.spares hs (hfacts (.retrieved _ _ _) ⟨⟨_, hc⟩, hd⟩ _ (List.mem_singleton_self _))
  | refused _ _ hc hd hs' _ _ _ _ _ =>
    exact hs'.spares hs (hfacts (.retrieved _ _ _) ⟨⟨_, hc⟩, hd⟩)
  | decided _ _ hc hd hadds _ hs' _ _ =>
    rw [hs']
    exact hadds.spares hs (hfacts (.retrieved _ _ _) ⟨⟨_, hc⟩, hd⟩)

end worlds

end DependencyResolution
