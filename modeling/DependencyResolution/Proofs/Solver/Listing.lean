import DependencyResolution.Proofs.Solver.Moment

/-!
# What is listed

Along a run the index stays tidy: what is registered is listed once under every package that it mentions
(`Reached.shelved`). What propagation looks at is listed, so what it finds satisfied is; a resolvent is
listed nowhere before it is learned. Whatever is learned is therefore listed, whether it was registered
just now or, as it needed no resolution, was listed all along.
-/

namespace DependencyResolution

variable {σ P V S M π E : Type} [DecidableEq P] [DecidableEq S] [VersionSet S V]

/-! ## One step -/

section steps

variable {provider : Provider σ P V S M π E} {x y : Session σ P V S M π E} {t t' : List (Assignment P V S)}
  {φ φ' : Phase P}

/-- The index is tidy. What is to be looked at, and what is given to conflict resolution, is listed, the
resolvents on the way are not, and what is learned is again. -/
structure Shelved (store : Store P V S M) (φ : Phase P) : Prop where
  tidy : store.Tidy
  due : ∀ n ∈ φ.due store, ∃ p, n ∈ store.idsFor p
  given : ∀ id, φ = .conflict id false → store.Lists id
  resolvent : ∀ id, φ = .conflict id true → store.Omits id
  learned : ∀ p id, φ = .learned p id → store.Lists id

namespace Shelved

omit [DecidableEq S] [VersionSet S V]

variable {store : Store P V S M}

theorem round (h : store.Tidy) (p : P) : Shelved store (.round p) :=
  ⟨h, fun _ hn => ⟨p, hn⟩, by simp, by simp, by simp⟩

theorem propagate (h : store.Tidy) (p : P) : Shelved store (.propagate [p]) :=
  ⟨h, fun _ hn => ⟨p, hn⟩, by simp, by simp, by simp⟩

theorem scan {ids : List Nat} {waiting : List P} (h : store.Tidy) (hids : ∀ n ∈ ids, ∃ p, n ∈ store.idsFor p) :
    Shelved store (.scan ids waiting) :=
  ⟨h, hids, by simp, by simp, by simp⟩

theorem rest {id : Nat} {rest : List Nat} {waiting waiting' : List P}
    (h : Shelved store (.scan (id :: rest) waiting)) : Shelved store (.scan rest waiting') :=
  .scan h.tidy fun n hn => h.due n (List.mem_cons_of_mem _ hn)

theorem turn (h : Shelved store φ) (hturn : φ.Turns store φ') : Shelved store φ' := by
  refine ⟨h.tidy, fun n hn => hturn.due hn, fun id hφ' => ?_, fun id hφ' => ?_, fun p id hφ' => ?_⟩ <;>
  · subst hφ'
    cases hturn

theorem clash {id : Nat} {rest : List Nat} {waiting : List P}
    (h : Shelved store (.scan (id :: rest) waiting)) : Shelved store (.conflict id false) := by
  refine ⟨h.tidy, fun n hn => absurd hn List.not_mem_nil, fun id' hid => ?_, by simp, by simp⟩
  cases hid
  obtain ⟨p, hp⟩ := h.due id List.mem_cons_self
  exact h.tidy.lists hp

theorem resolve (h : store.Tidy) (r : Incompatibility P V S M) :
    Shelved (store.alloc r).1 (.conflict store.size true) := by
  refine ⟨h.alloc r, fun n hn => absurd hn List.not_mem_nil, by simp, fun id hid => ?_, by simp⟩
  cases hid
  exact (h.omits le_rfl).alloc r

/-- What is learned is registered if it is a resolvent, and was given otherwise. -/
theorem learn {id : Nat} {changed : Bool} (h : Shelved store (.conflict id changed)) (p : P) :
    Shelved (if changed then store.registered id else store) (.learned p id) := by
  cases changed with
  | false =>
    refine ⟨h.tidy, fun n hn => absurd hn List.not_mem_nil, by simp, by simp, fun q id' hid => ?_⟩
    cases hid
    exact h.given id rfl
  | true =>
    have homits := h.resolvent id rfl
    refine ⟨h.tidy.register homits, fun n hn => absurd hn List.not_mem_nil, by simp, by simp,
      fun q id' hid => ?_⟩
    cases hid
    exact homits.lists_registered

end Shelved

omit [DecidableEq S] in
theorem tidy_start (root : P) (version : V) :
    (SolverState.start root version : SolverState P V S M).store.Tidy :=
  Store.Tidy.empty.add (.notRoot root version)

variable [LawfulVersionSet S V]

theorem Advance.shelved (hstep : Advance provider x t φ y t' φ') (h : Shelved x.state.store φ) :
    Shelved y.state.store φ' := by
  cases hstep with
  | turn hturn hs _ =>
    rw [hs]
    exact h.turn hturn
  | skip _ | wait _ _ _ => exact h.rest
  | mark _ _ hs _ | derive _ _ _ _ _ hs _ =>
    rw [hs]
    exact h.rest
  | clash _ _ _ => exact h.clash
  | resolve _ _ _ _ _ hs _ =>
    rw [hs]
    exact .resolve h.tidy _
  | learn _ _ _ _ _ _ hs _ =>
    rw [hs]
    exact h.learn _
  | learned _ _ _ _ hs _ =>
    rw [hs]
    exact .propagate h.tidy _
  | missing _ _ hs _ _ | unusable _ _ _ _ hs _ _ | refused _ _ _ _ hs _ _ _ _ _ =>
    exact .round (hs.tidy h.tidy) _
  | decided _ _ _ _ hadds _ hs _ _ =>
    rw [hs]
    exact .round (hadds.tidy h.tidy) _
  | again _ _ _ _ _ _ hs _ _ =>
    rw [hs]
    exact .round h.tidy _

end steps

/-! ## Every moment -/

section moments

variable [LawfulVersionSet S V] [DecidableEq V] [LT π] [DecidableLT π] {provider : Provider σ P V S M π E}
  {client : σ} {root : P} {version : V} {x : Session σ P V S M π E} {φ : Phase P}

theorem Reached.shelved (h : Reached provider client root version x φ) (hproper : provider.AnswersProper) :
    Shelved x.state.store φ := by
  have hstart : (SolverState.start root version : SolverState P V S M).store.Tidy := tidy_start root version
  have hcases := h.cases (I := fun x _ φ => Shelved x.state.store φ) hproper
    (fun hopened => by
      rw [hopened.state]
      exact .scan hstart (by simp))
    fun _ _ hI hadvance => hadvance.shelved hI
  rcases hcases with hfresh | ⟨t, -, -, hshelved⟩
  · rw [hfresh.state]
    rcases hfresh.phase with rfl | rfl | rfl
    · exact .round hstart root
    · exact .propagate hstart root
    · refine .scan hstart fun n hn => ⟨root, ?_⟩
      rw [idsFor_start, if_pos rfl]
      exact hn
  · exact hshelved

end moments

end DependencyResolution
