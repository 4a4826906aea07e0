import DependencyResolution.Proofs.Solver.Fact
import DependencyResolution.Proofs.Solver.Session

/-!
# Adding facts

A fact that is added is registered under the packages that it mentions, by itself or, if it is a
dependency, joined with those that allow the same (`Solving.insert_spec`). What is taken from the index
is covered by what replaces it, and nothing is ever taken from the store. A tidy index stays tidy.
-/

namespace DependencyResolution

variable {σ P V S M π E : Type}

/-! ## What is made from a store -/

section made

variable [DecidableEq P] [DecidableEq S] [VersionSet S V] [LawfulVersionSet S V]

/-- What joining stored dependencies gives. -/
inductive Store.Made (s : Store P V S M) : Incompatibility P V S M → Prop
  | stored {n : Nat} {i : Incompatibility P V S M} (h : s.get? n = some i) : Made s i
  | joined {i j k : Incompatibility P V S M} (hi : Made s i) (hj : Made s j)
      (h : Incompatibility.Joins i j k) : Made s k

namespace Store.Made

variable {s s' : Store P V S M} {i : Incompatibility P V S M}

theorem trans (h : Made s' i) (hle : ∀ n j, s'.get? n = some j → Made s j) : Made s i := by
  induction h with
  | stored h => exact hle _ _ h
  | joined _ _ h ihi ihj => exact .joined ihi ihj h

theorem wellFormed (h : Made s i) (hs : ∀ n j, s.get? n = some j → j.WellFormed) : i.WellFormed := by
  induction h with
  | stored h => exact hs _ _ h
  | joined _ _ h ihi _ => exact .fact (h.restates ihi)

theorem get?_of_derived (h : Made s i) {first second : Nat} (hc : i.cause = .derived first second) :
    ∃ m, s.get? m = some i := by
  cases h with
  | stored h => exact ⟨_, h⟩
  | joined _ _ h =>
    obtain ⟨-, -, -, -, -, -, hk⟩ := h
    rw [Incompatibility.cause_ofDependency hk] at hc
    cases hc

end Store.Made

end made

/-! ## Joining with earlier dependencies -/

section insertion

variable [DecidableEq P] [DecidableEq S] [VersionSet S V] [LawfulVersionSet S V]

open Incompatibility

def Store.IsDependency (s : Store P V S M) (pair : P × P) (id : Nat) : Prop :=
  ∃ i, s.get? id = some i ∧ i.WellFormed ∧ i.asDependency = some pair

/-- The second state comes from the first by joining the dependency `id` with some that were
registered; `id'` is the result. -/
structure Folded (s s' : SolverState P V S M) (pair : P × P) (id id' : Nat) : Prop where
  solution : s'.solution = s.solution
  contradicted : s'.contradicted = s.contradicted
  root : s'.root = s.root
  rootVersion : s'.rootVersion = s.rootVersion
  stored : ∀ n j, s.store.get? n = some j → s'.store.get? n = some j
  made : ∀ n j, s'.store.get? n = some j → s.store.Made j
  fresh : id' = id ∨ s.store.size ≤ id'
  covers : ∀ j, s.store.get? id = some j → ∃ k, s'.store.get? id' = some k ∧ Covers k j
  listed : ∀ q n, n ∈ s'.store.idsFor q → n ∈ s.store.idsFor q
  kept : ∀ q n, n ∈ s.store.idsFor q → n ∈ s'.store.idsFor q ∨ ∃ j k, s'.store.get? n = some j ∧
    j.asDependency = some pair ∧ s'.store.get? id' = some k ∧ Covers k j
  merged : ∀ pr ids, s'.merged.get? pr = some ids →
    pr ≠ pair ∧ s.merged.get? pr = some ids ∨ pr = pair ∧ ∀ n ∈ ids, s'.store.IsDependency pair n
  tidy : s.store.Tidy → s'.store.Tidy
  omits : s.store.Tidy → s.store.Omits id → s'.store.Omits id'

variable {pair : P × P}

theorem Folded.of_setMerged {s : SolverState P V S M} {id : Nat} {ids : List Nat}
    (hids : ∀ n ∈ ids, s.store.IsDependency pair n) :
    Folded s { s with merged := s.merged.insert pair ids } pair id id where
  solution := rfl
  contradicted := rfl
  root := rfl
  rootVersion := rfl
  stored _ _ h := h
  made _ _ h := .stored h
  fresh := Or.inl rfl
  covers j hj := ⟨j, hj, .refl j⟩
  listed _ _ h := h
  kept _ _ h := Or.inl h
  merged pr ids' h := by
    rw [OrderedMap.get?_insert] at h
    split_ifs at h with hpr
    · cases h
      exact Or.inr ⟨hpr.symm, hids⟩
    · exact Or.inl ⟨Ne.symm hpr, h⟩
  tidy h := h
  omits _ h := h

theorem Folded.step {s s' : SolverState P V S M} {id id' old : Nat} {ids : List Nat}
    {i j k : Incompatibility P V S M} (hi : s.store.get? id = some i) (hj : s.store.get? old = some j)
    (hpair : j.asDependency = some pair) (hk : Joins j i k)
    (h : Folded { s with
        store := ((s.store.unregistered old).alloc k).1
        merged := s.merged.insert pair ids } s' pair s.store.size id') :
    Folded s s' pair id id' where
  solution := h.solution
  contradicted := h.contradicted
  root := h.root
  rootVersion := h.rootVersion
  stored n l hl := h.stored n l (Store.get?_alloc_of_some k hl)
  made n l hl := by
    refine (h.made n l hl).trans fun m o ho => ?_
    dsimp only at ho
    rw [Store.get?_alloc] at ho
    split_ifs at ho
    · cases ho
      exact .joined (.stored hj) (.stored hi) hk
    · exact .stored ho
  fresh := by
    rcases h.fresh with hid | hle
    · exact Or.inr hid.ge
    · right
      simp only [Store.size_alloc, Store.size_unregistered] at hle
      omega
  covers l hl := by
    obtain ⟨m, hm, hcov⟩ := h.covers k (Store.get?_alloc_self (s.store.unregistered old) k)
    rw [hi] at hl
    cases hl
    exact ⟨m, hm, hcov.trans hk.covers_right⟩
  listed q n hn := Store.mem_idsFor_of_mem_unregistered (h.listed q n hn)
  kept q n hn := by
    by_cases hne : n = old
    · -- the older dependency leaves the index, but the result covers it
      subst hne
      obtain ⟨m, hm, hcov⟩ := h.covers k (Store.get?_alloc_self (s.store.unregistered n) k)
      have hstored := h.stored n j (Store.get?_alloc_of_some k hj)
      exact Or.inr ⟨j, m, hstored, hpair, hm, hcov.trans hk.covers_left⟩
    · exact h.kept q n (Store.mem_unregistered_of_ne hn hne)
  merged pr ids' hids := by
    rcases h.merged pr ids' hids with ⟨hne, hget⟩ | hids
    · dsimp only at hget
      rw [OrderedMap.get?_insert, if_neg (Ne.symm hne)] at hget
      exact Or.inl ⟨hne, hget⟩
    · exact Or.inr hids
  tidy hs := h.tidy ((hs.unregister old).alloc k)
  omits hs _ := h.omits ((hs.unregister old).alloc k) (((hs.unregister old).omits le_rfl).alloc k)

namespace Solving

theorem mergeInto_spec (rest kept : List Nat) (id : Nat) (x : Session σ P V S M π E)
    (hrest : ∀ n ∈ rest, x.state.store.IsDependency pair n)
    (hkept : ∀ n ∈ kept, x.state.store.IsDependency pair n)
    (hid : x.state.store.IsDependency pair id) :
    ∃ s' id', (mergeInto pair kept id rest : Solving σ P V S M π E Nat) x =
      .ok id' { x with state := s' } ∧ Folded x.state s' pair id id' := by
  -- the dependency itself changes with every join, and the state with it
  induction rest generalizing kept id x with
  | nil =>
    refine ⟨_, id, rfl, Folded.of_setMerged fun n (hn : n ∈ kept.reverse ++ [id]) => ?_⟩
    rcases List.mem_append.mp hn with hn | hn
    · exact hkept n (List.mem_reverse.mp hn)
    · rw [List.mem_singleton] at hn
      exact hn ▸ hid
  | cons old rest ih =>
    rw [List.forall_mem_cons] at hrest
    obtain ⟨hold, hrest⟩ := hrest
    obtain ⟨j, hj, hjwf, hjd⟩ := hold
    obtain ⟨i, hi, hiwf, hid'⟩ := hid
    unfold mergeInto
    rw [bind_of_ok (incompatibility_of_get? hj), bind_of_ok (incompatibility_of_get? hi)]
    rcases hjwf.mergeDependents hiwf hjd hid' with hnone | ⟨k, hsome, hk⟩
    · rw [hnone, bind_of_ok (ofExcept_ok none x)]
      exact ih (old :: kept) id x hrest
        (List.forall_mem_cons.mpr ⟨⟨j, hj, hjwf, hjd⟩, hkept⟩) ⟨i, hi, hiwf, hid'⟩
    · rw [hsome, bind_of_ok (ofExcept_ok (some k) x)]
      have hgrow : ∀ n, x.state.store.IsDependency pair n →
          ((x.state.store.unregistered old).alloc k).1.IsDependency pair n := by
        rintro n ⟨l, hl, hlwf, hld⟩
        exact ⟨l, Store.get?_alloc_of_some k hl, hlwf, hld⟩
      have hnew : ((x.state.store.unregistered old).alloc k).1.IsDependency pair x.state.store.size :=
        ⟨k, Store.get?_alloc_self (x.state.store.unregistered old) k, .fact (hk.restates hjwf),
          hk.asDependency hjd⟩
      obtain ⟨s', id', hok, hfold⟩ := ih kept x.state.store.size
        { x with state := { x.state with
          store := ((x.state.store.unregistered old).alloc k).1
          merged := x.state.merged.insert pair (kept.reverse ++ rest) } }
        (fun n hn => hgrow n (hrest n hn)) (fun n hn => hgrow n (hkept n hn)) hnew
      refine ⟨s', id', ?_, hfold.step hi hj hjd hk⟩
      dsimp only
      rw [bind_of_ok (unregister_of_get? hj)]
      exact hok

end Solving

/-! ## Adding a fact -/

/-- The second state comes from the first by adding a fact, which is registered under the number. -/
structure Inserted (s s' : SolverState P V S M) (i : Incompatibility P V S M) (id : Nat) : Prop where
  solution : s'.solution = s.solution
  contradicted : s'.contradicted = s.contradicted
  root : s'.root = s.root
  rootVersion : s'.rootVersion = s.rootVersion
  stored : ∀ n j, s.store.get? n = some j → s'.store.get? n = some j
  made : ∀ n j, s'.store.get? n = some j → (s.store.alloc i).1.Made j
  fresh : s.store.size ≤ id
  covers : ∃ k, s'.store.get? id = some k ∧ Covers k i
  listed : ∀ q n, n ∈ s'.store.idsFor q → n ∈ s.store.idsFor q ∨
    n = id ∧ ∃ k u, s'.store.get? id = some k ∧ k.get? q = some u
  registered : ∀ k q u, s'.store.get? id = some k → k.get? q = some u → id ∈ s'.store.idsFor q
  kept : ∀ q n, n ∈ s.store.idsFor q → n ∈ s'.store.idsFor q ∨ ∃ pair j k, s'.store.get? n = some j ∧
    i.asDependency = some pair ∧ j.asDependency = some pair ∧ s'.store.get? id = some k ∧ Covers k j
  merged : ∀ pair ids, s'.merged.get? pair = some ids → ∀ n ∈ ids, s'.store.IsDependency pair n
  tidy : s.store.Tidy → s'.store.Tidy

def SolverState.MergedValid (s : SolverState P V S M) : Prop :=
  ∀ pair ids, s.merged.get? pair = some ids → ∀ n ∈ ids, s.store.IsDependency pair n

theorem Store.IsDependency.mono {s s' : Store P V S M} {n : Nat} (h : s.IsDependency pair n)
    (hle : ∀ n j, s.get? n = some j → s'.get? n = some j) : s'.IsDependency pair n := by
  obtain ⟨j, hj, hwf, hd⟩ := h
  exact ⟨j, hle n j hj, hwf, hd⟩

/-- Registering the result of joining a new fact completes the insertion. -/
theorem Inserted.of_folded {s s' : SolverState P V S M} {i : Incompatibility P V S M} {id : Nat}
    (hs : s.MergedValid) (hd : i.asDependency = some pair)
    (h : Folded { s with
        store := (s.store.alloc i).1
        merged := s.merged.insert pair ((s.merged.get? pair).getD []) } s' pair s.store.size id) :
    Inserted s { s' with store := s'.store.registered id } i id where
  solution := h.solution
  contradicted := h.contradicted
  root := h.root
  rootVersion := h.rootVersion
  stored n j hj := h.stored n j (Store.get?_alloc_of_some i hj)
  made n j hj := h.made n j hj
  fresh := by
    rcases h.fresh with hid | hle
    · exact hid.ge
    · simp only [Store.size_alloc] at hle
      omega
  covers := h.covers i (Store.get?_alloc_self s.store i)
  listed q n hn := (Store.mem_idsFor_registered.mp hn).imp_left (h.listed q n)
  registered k q u hk hu := Store.mem_idsFor_registered.mpr (Or.inr ⟨rfl, k, u, hk, hu⟩)
  kept q n hn := by
    rcases h.kept q n hn with hmem | ⟨j, k, hj, hjd, hk, hcov⟩
    · exact Or.inl (Store.mem_idsFor_registered.mpr (Or.inl hmem))
    · exact Or.inr ⟨pair, j, k, hj, hd, hjd, hk, hcov⟩
  merged pr ids hids n hn := by
    rcases h.merged pr ids hids with ⟨hne, hget⟩ | ⟨rfl, hids⟩
    · dsimp only at hget
      rw [OrderedMap.get?_insert, if_neg (Ne.symm hne)] at hget
      exact (hs pr ids hget n hn).mono fun m j hj => h.stored m j (Store.get?_alloc_of_some i hj)
    · exact hids n hn
  tidy hs := (h.tidy (hs.alloc i)).register (h.omits (hs.alloc i) ((hs.omits le_rfl).alloc i))

theorem Inserted.of_alloc {s : SolverState P V S M} {i : Incompatibility P V S M} (hs : s.MergedValid) :
    Inserted s { s with store := (s.store.alloc i).1.registered s.store.size } i s.store.size where
  solution := rfl
  contradicted := rfl
  root := rfl
  rootVersion := rfl
  stored _ _ hj := Store.get?_alloc_of_some i hj
  made _ _ hj := .stored hj
  fresh := le_rfl
  covers := ⟨i, Store.get?_alloc_self s.store i, .refl i⟩
  listed _ _ hn := Store.mem_idsFor_registered.mp hn
  registered k _ u hk hu := Store.mem_idsFor_registered.mpr (Or.inr ⟨rfl, k, u, hk, hu⟩)
  kept _ _ hn := Or.inl (Store.mem_idsFor_registered.mpr (Or.inl hn))
  merged pr ids hids n hn := (hs pr ids hids n hn).mono fun _ _ hj => Store.get?_alloc_of_some i hj
  tidy hs := hs.add i

/-- What is derived was stored before a fact was added, under this number or a smaller one. -/
theorem Inserted.exists_of_derived {s s' : SolverState P V S M} {i j : Incompatibility P V S M}
    {id n first second : Nat} (h : Inserted s s' i id) (hi : ∃ f, i.cause = .fact f)
    (hj : s'.store.get? n = some j) (hc : j.cause = .derived first second) :
    ∃ m ≤ n, s.store.get? m = some j := by
  obtain ⟨m, hm⟩ := (h.made n j hj).get?_of_derived hc
  rw [Store.get?_alloc] at hm
  split_ifs at hm with hsize
  · obtain ⟨f, hf⟩ := hi
    cases hm
    rw [hf] at hc
    cases hc
  · cases hn : s.store.get? n with
    | some j' =>
      rw [h.stored n j' hn] at hj
      exact ⟨n, le_rfl, hn.trans hj⟩
    | none =>
      have hmn : m < n := (Store.lt_size hm).trans_le (Array.getElem?_eq_none_iff.mp hn)
      exact ⟨m, hmn.le, hm⟩

namespace Solving

/-- Adding a fact succeeds and does nothing but that. -/
theorem insert_spec (x : Session σ P V S M π E) (hs : x.state.MergedValid)
    {i : Incompatibility P V S M} (hi : i.Restates) :
    ∃ s' id, (insert i : Solving σ P V S M π E Nat) x = .ok id { x with state := s' } ∧
      Inserted x.state s' i id := by
  unfold insert
  rw [bind_of_ok (alloc_eq i x)]
  cases hd : i.asDependency with
  | none =>
    refine ⟨_, _, ?_, Inserted.of_alloc hs⟩
    have hi := Store.get?_alloc_self x.state.store i
    exact bind_of_ok (register_of_get? (x := { x with
      state := { x.state with store := (x.state.store.alloc i).1 } }) hi)
  | some pair =>
    set x₁ : Session σ P V S M π E := { x with state := { x.state with
      store := (x.state.store.alloc i).1
      merged := x.state.merged.insert pair ((x.state.merged.get? pair).getD []) } } with hx₁
    have hold : ∀ n ∈ (x.state.merged.get? pair).getD [], x₁.state.store.IsDependency pair n := by
      intro n hn
      cases hget : x.state.merged.get? pair with
      | none =>
        rw [hget] at hn
        cases hn
      | some ids =>
        rw [hget] at hn
        exact (hs pair ids hget n hn).mono fun m j hj => Store.get?_alloc_of_some i hj
    obtain ⟨s', id, hok, hfold⟩ := mergeInto_spec ((x.state.merged.get? pair).getD []) [] x.state.store.size
      x₁ hold (by simp) ⟨i, Store.get?_alloc_self x.state.store i, .fact hi, hd⟩
    refine ⟨{ s' with store := s'.store.registered id }, id, ?_, Inserted.of_folded hs hd hfold⟩
    change (mergeInto pair [] x.state.store.size ((x.state.merged.get? pair).getD []) >>= fun id => do
      register id
      return id : Solving σ P V S M π E Nat) x₁ = _
    obtain ⟨k, hk, -⟩ := hfold.covers i (Store.get?_alloc_self x.state.store i)
    rw [bind_of_ok hok, bind_of_ok (register_of_get? hk)]
    rfl

end Solving

/-! ## Adding several facts -/

/-- The second state comes from the first by adding facts, which are registered under the numbers. -/
inductive Adds : SolverState P V S M → List (Incompatibility P V S M) → SolverState P V S M →
    List Nat → Prop
  | nil (s : SolverState P V S M) : Adds s [] s []
  | cons {s s₁ s' : SolverState P V S M} {i : Incompatibility P V S M}
      {facts : List (Incompatibility P V S M)} {id : Nat} {ids : List Nat} (h : Inserted s s₁ i id)
      (ht : Adds s₁ facts s' ids) : Adds s (i :: facts) s' (id :: ids)

namespace Adds

variable {s s' : SolverState P V S M} {facts : List (Incompatibility P V S M)} {ids : List Nat}

theorem solution (h : Adds s facts s' ids) : s'.solution = s.solution := by
  induction h with
  | nil => rfl
  | cons h _ ih => rw [ih, h.solution]

theorem contradicted (h : Adds s facts s' ids) : s'.contradicted = s.contradicted := by
  induction h with
  | nil => rfl
  | cons h _ ih => rw [ih, h.contradicted]

theorem root (h : Adds s facts s' ids) : s'.root = s.root := by
  induction h with
  | nil => rfl
  | cons h _ ih => rw [ih, h.root]

theorem rootVersion (h : Adds s facts s' ids) : s'.rootVersion = s.rootVersion := by
  induction h with
  | nil => rfl
  | cons h _ ih => rw [ih, h.rootVersion]

theorem stored (h : Adds s facts s' ids) {n : Nat} {j : Incompatibility P V S M}
    (hj : s.store.get? n = some j) : s'.store.get? n = some j := by
  induction h with
  | nil => exact hj
  | cons h _ ih => exact ih (h.stored n j hj)

theorem tidy (h : Adds s facts s' ids) (hs : s.store.Tidy) : s'.store.Tidy := by
  induction h with
  | nil => exact hs
  | cons h _ ih => exact ih (h.tidy hs)

theorem exists_of_mem (h : Adds s facts s' ids) {id : Nat} (hid : id ∈ ids) :
    s.store.size ≤ id ∧ ∃ i ∈ facts, ∃ k, s'.store.get? id = some k ∧ Covers k i := by
  induction h with
  | nil => cases hid
  | @cons s s₁ _ i _ _ _ h ht ih =>
    rcases List.mem_cons.mp hid with rfl | hid
    · obtain ⟨k, hk, hcov⟩ := h.covers
      exact ⟨h.fresh, i, List.mem_cons_self, k, ht.stored hk, hcov⟩
    · obtain ⟨hle, j, hj, k, hk, hcov⟩ := ih hid
      refine ⟨?_, j, List.mem_cons_of_mem _ hj, k, hk, hcov⟩
      by_contra hlt
      push Not at hlt
      have hsize : s₁.store.size ≤ s.store.size := by omega
      obtain ⟨k', hk', -⟩ := h.covers
      have hid' := Store.lt_size hk'
      have hfresh := h.fresh
      omega

theorem kept (h : Adds s facts s' ids) {q : P} {n : Nat} {j : Incompatibility P V S M}
    (hj : s.store.get? n = some j) (hn : n ∈ s.store.idsFor q)
    (hfacts : ∀ i ∈ facts, j.asDependency = none ∨ j.asDependency ≠ i.asDependency) :
    n ∈ s'.store.idsFor q := by
  induction h with
  | nil => exact hn
  | cons h ht ih =>
    rw [List.forall_mem_cons] at hfacts
    refine ih (h.stored n j hj) ?_ hfacts.2
    rcases h.kept q n hn with hmem | ⟨pair, j', k, hj', hi, hjd, -⟩
    · exact hmem
    · rw [h.stored n j hj, Option.some.injEq] at hj'
      subst hj'
      rw [hi, hjd] at hfacts
      simp at hfacts

theorem registered (h : Adds s facts s' ids)
    (hfacts : facts.Pairwise fun i j => i.asDependency = none ∨ i.asDependency ≠ j.asDependency)
    {id : Nat} (hid : id ∈ ids) {k : Incompatibility P V S M} (hk : s'.store.get? id = some k) {q : P}
    {u : Term S} (hu : k.get? q = some u) : id ∈ s'.store.idsFor q := by
  induction h with
  | nil => cases hid
  | cons h ht ih =>
    rw [List.pairwise_cons] at hfacts
    rcases List.mem_cons.mp hid with rfl | hid
    · obtain ⟨k', hk', hcov⟩ := h.covers
      rw [ht.stored hk', Option.some.injEq] at hk
      subst hk
      refine ht.kept hk' (h.registered _ q u hk' hu) fun i hi => ?_
      rw [hcov.asDependency_eq]
      exact hfacts.1 i hi
    · exact ih hfacts.2 hid hk

end Adds

/-- The dependencies of a version of a package that say something. -/
def dependencyFacts (package : P) (version : V) (requirements : List (P × S)) :
    List (Incompatibility P V S M) :=
  requirements.filterMap fun r => ofDependency package (VersionSet.singleton version) r.1 r.2

theorem restates_of_mem_dependencyFacts {p : P} {v : V} {requirements : List (P × S)}
    (hr : ∀ r ∈ requirements, LawfulVersionSet.Proper r.2) {i : Incompatibility P V S M}
    (hi : i ∈ dependencyFacts p v requirements) : i.Restates := by
  obtain ⟨⟨needed, allowed⟩, hmem, h⟩ := List.mem_filterMap.mp hi
  exact .dependency (LawfulVersionSet.proper_singleton v)
    ⟨_, LawfulVersionSet.Point.ofVersion_in_singleton v⟩ (hr _ hmem) h

omit [LawfulVersionSet S V] in
theorem pairwise_dependencyFacts (p : P) (v : V) (requirements : OrderedMap P S) :
    (dependencyFacts p v requirements.entries : List (Incompatibility P V S M)).Pairwise
      fun i j => i.asDependency = none ∨ i.asDependency ≠ j.asDependency := by
  have hkeys := requirements.nodup
  rw [List.Nodup, List.pairwise_map] at hkeys
  refine List.Pairwise.filterMap _ (fun r r' hne i hi j hj => ?_) hkeys
  by_cases hself : r.1 = p
  · left
    unfold asDependency
    rw [cause_ofDependency hi]
    dsimp only
    rw [if_pos hself.symm]
  · right
    rw [asDependency_ofDependency hself hi]
    intro hc
    obtain ⟨-, _, _, hcause⟩ := asDependency_eq_some_iff.mp hc.symm
    rw [cause_ofDependency hj] at hcause
    simp only [Cause.fact.injEq, Fact.dependency.injEq] at hcause
    exact hne hcause.2.2.1.symm

omit [LawfulVersionSet S V] in
theorem mentions_of_mem_dependencyFacts {p : P} {v : V} {requirements : List (P × S)}
    {i : Incompatibility P V S M} (hi : i ∈ dependencyFacts p v requirements) :
    ∃ u, i.get? p = some u := by
  obtain ⟨⟨needed, allowed⟩, -, h⟩ := List.mem_filterMap.mp hi
  by_cases hne : needed = p
  · subst hne
    exact ⟨_, by rw [get?_ofDependency_self h, if_pos rfl]⟩
  · exact ⟨_, by rw [get?_ofDependency hne h, if_pos rfl]⟩

theorem Inserted.get?_of_asDependency {s s' : SolverState P V S M} {i : Incompatibility P V S M} {id : Nat}
    (h : Inserted s s' i id) (hd : i.asDependency = none) {p : P} {u : Term S} (hu : i.get? p = some u) :
    s.store.size ≤ id ∧ id ∈ s'.store.idsFor p ∧ s'.store.get? id = some i := by
  obtain ⟨k, hk, hcov⟩ := h.covers
  rw [hcov.eq_of_asDependency hd] at hk
  exact ⟨h.fresh, h.registered i p u hk hu, hk⟩

theorem Adds.mem_idsFor {s s' : SolverState P V S M} {p : P} {v : V} {requirements : OrderedMap P S}
    {ids : List Nat} (h : Adds s (dependencyFacts p v requirements.entries) s' ids) {id : Nat}
    (hid : id ∈ ids) : s.store.size ≤ id ∧ id ∈ s'.store.idsFor p := by
  obtain ⟨hfresh, i, hmem, k, hk, hcov⟩ := h.exists_of_mem hid
  obtain ⟨u, hu⟩ := mentions_of_mem_dependencyFacts hmem
  obtain ⟨w, hw⟩ := hcov.mentions hu
  exact ⟨hfresh, h.registered (pairwise_dependencyFacts p v requirements) hid hk hw⟩

namespace Solving

theorem insertDependencies_spec (p : P) (v : V) (requirements : List (P × S))
    (hr : ∀ r ∈ requirements, LawfulVersionSet.Proper r.2) (x : Session σ P V S M π E)
    (hs : x.state.MergedValid) :
    ∃ s' ids, (insertDependencies p v requirements : Solving σ P V S M π E _) x =
        .ok ids { x with state := s' } ∧
      Adds x.state (dependencyFacts p v requirements) s' ids := by
  induction requirements generalizing x with
  | nil => exact ⟨x.state, [], rfl, .nil x.state⟩
  | cons r rest ih =>
    obtain ⟨needed, allowed⟩ := r
    rw [List.forall_mem_cons] at hr
    unfold insertDependencies
    cases hdep : (ofDependency p (VersionSet.singleton v) needed allowed :
        Option (Incompatibility P V S M)) with
    | none =>
      have hfacts : (dependencyFacts p v ((needed, allowed) :: rest) :
          List (Incompatibility P V S M)) = dependencyFacts p v rest := by
        simp [dependencyFacts, hdep]
      rw [hfacts]
      exact ih hr.2 x hs
    | some i =>
      obtain ⟨s₁, id, hid, hins⟩ := insert_spec x hs (i := i)
        (.dependency (LawfulVersionSet.proper_singleton v)
          ⟨_, LawfulVersionSet.Point.ofVersion_in_singleton v⟩ hr.1 hdep)
      obtain ⟨s', ids, hok, hadds⟩ := ih hr.2 { x with state := s₁ } hins.merged
      refine ⟨s', id :: ids, ?_, ?_⟩
      · dsimp only
        rw [bind_of_ok hid, bind_of_ok hok]
        rfl
      · have hfacts : dependencyFacts p v ((needed, allowed) :: rest) = i :: dependencyFacts p v rest := by
          simp [dependencyFacts, hdep]
        rw [hfacts]
        exact .cons hins hadds

end Solving

end insertion

end DependencyResolution
