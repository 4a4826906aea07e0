import DependencyResolution.Proofs.Solver.Index
import DependencyResolution.Proofs.Solver.Insertion

/-!
# Adding facts to an index

To add a fact comes down to one of two things, since at most one registered dependency allows the same: it is
registered, or joined with that one and registered in its place (`Solving.insert_eq_of_apart`,
`Solving.insert_eq_of_joins`). Either way the index accounts for it (`Indexed.insert`).
-/

namespace DependencyResolution

open Incompatibility LawfulVersionSet

variable {σ P V S M π E : Type} [DecidableEq P] [DecidableEq S] [VersionSet S V]

/-! ## What an addition does -/

namespace Solving

variable {i j k : Incompatibility P V S M} {pair : P × P} {id old : Nat} {x : Session σ P V S M π E}

theorem mergeInto_eq_of_apart (hi : x.state.store.get? id = some i) (rest kept : List Nat)
    (hrest : ∀ n ∈ rest, ∃ j, x.state.store.get? n = some j ∧ j.mergeDependents i = .ok none) :
    (mergeInto pair kept id rest : Solving σ P V S M π E Nat) x = .ok id { x with state :=
      { x.state with merged := x.state.merged.insert pair (kept.reverse ++ rest ++ [id]) } } := by
  induction rest generalizing kept with
  | nil =>
    rw [List.append_nil]
    rfl
  | cons n rest ih =>
    rw [List.forall_mem_cons] at hrest
    obtain ⟨⟨j, hj, hnone⟩, hrest⟩ := hrest
    unfold mergeInto
    rw [bind_of_ok (incompatibility_of_get? hj), bind_of_ok (incompatibility_of_get? hi), hnone]
    rw [bind_of_ok (ofExcept_ok none x)]
    dsimp only
    rw [ih (n :: kept) hrest, List.reverse_cons, List.append_assoc kept.reverse [n] rest, List.singleton_append]

/-- A dependency that combines with one of the others takes its place, joined with it. -/
theorem mergeInto_eq_of_joins (pair : P × P) (hi : x.state.store.get? id = some i)
    (hj : x.state.store.get? old = some j) (hk : j.mergeDependents i = .ok (some k)) (rest kept : List Nat)
    (hold : old ∈ rest) (hnodup : rest.Nodup)
    (hrest : ∀ n ∈ rest, n ≠ old → ∃ l, x.state.store.get? n = some l ∧
      l.mergeDependents i = .ok none ∧ l.mergeDependents k = .ok none) :
    ∃ s', (mergeInto pair kept id rest : Solving σ P V S M π E Nat) x =
        .ok x.state.store.size { x with state := s' } ∧
      s'.store = ((x.state.store.unregistered old).alloc k).1 ∧
      ∀ pr, s'.merged.get? pr = if pr = pair then some (kept.reverse ++ rest.erase old ++ [x.state.store.size])
        else x.state.merged.get? pr := by
  induction rest generalizing kept with
  | nil => cases hold
  | cons n rest ih =>
    rw [List.nodup_cons] at hnodup
    unfold mergeInto
    by_cases hn : n = old
    · subst hn
      rw [bind_of_ok (incompatibility_of_get? hj), bind_of_ok (incompatibility_of_get? hi), hk]
      rw [bind_of_ok (ofExcept_ok (some k) x)]
      have hrest' : ∀ m ∈ rest, ∃ l, ((x.state.store.unregistered n).alloc k).1.get? m = some l ∧
          l.mergeDependents k = .ok none := fun m hm => by
        obtain ⟨l, hl, -, hlk⟩ := hrest m (List.mem_cons_of_mem _ hm) fun he => hnodup.1 (he ▸ hm)
        exact ⟨l, Store.get?_alloc_of_some k hl, hlk⟩
      dsimp only
      rw [bind_of_ok (unregister_of_get? hj)]
      refine ⟨_, mergeInto_eq_of_apart (x := { x with state := { x.state with
        store := ((x.state.store.unregistered n).alloc k).1
        merged := x.state.merged.insert pair (kept.reverse ++ rest) } })
        (Store.get?_alloc_self (x.state.store.unregistered n) k) rest kept hrest', rfl, fun pr => ?_⟩
      simp only [OrderedMap.get?_insert, List.erase_cons_head, eq_comm]
      split_ifs <;> rfl
    · obtain ⟨l, hl, hli, -⟩ := hrest n List.mem_cons_self hn
      rw [bind_of_ok (incompatibility_of_get? hl), bind_of_ok (incompatibility_of_get? hi), hli]
      rw [bind_of_ok (ofExcept_ok none x)]
      obtain ⟨s', hok, hstore, hmerged⟩ := ih (n :: kept) (List.mem_of_ne_of_mem (Ne.symm hn) hold) hnodup.2
        fun m hm => hrest m (List.mem_cons_of_mem _ hm)
      refine ⟨s', hok, hstore, fun pr => ?_⟩
      rw [hmerged pr, List.erase_cons_tail (by simpa using hn), List.reverse_cons,
        List.append_assoc kept.reverse [n], List.singleton_append]

theorem insert_eq_of_asDependency (hd : i.asDependency = some pair) :
    (insert i : Solving σ P V S M π E Nat) x =
      (mergeInto pair [] x.state.store.size ((x.state.merged.get? pair).getD []) >>= fun id => do
        register id
        return id : Solving σ P V S M π E Nat)
      { x with state := { x.state with
        store := (x.state.store.alloc i).1
        merged := x.state.merged.insert pair ((x.state.merged.get? pair).getD []) } } := by
  unfold insert
  rw [bind_of_ok (alloc_eq i x), hd]
  rfl

theorem insert_eq_of_apart (hapart : ∀ pair, i.asDependency = some pair →
      ∀ n ∈ (x.state.merged.get? pair).getD [], ∃ j, x.state.store.get? n = some j ∧
        j.mergeDependents i = .ok none) :
    ∃ s', (insert i : Solving σ P V S M π E Nat) x = .ok x.state.store.size { x with state := s' } ∧
      s'.store = (x.state.store.alloc i).1.registered x.state.store.size ∧
      ∀ pr, (s'.merged.get? pr).getD [] =
        (x.state.merged.get? pr).getD [] ++ if i.asDependency = some pr then [x.state.store.size] else [] := by
  cases hd : i.asDependency with
  | none =>
    refine ⟨{ x.state with store := (x.state.store.alloc i).1.registered x.state.store.size }, ?_, rfl,
      fun pr => by simp⟩
    unfold insert
    rw [bind_of_ok (alloc_eq i x), hd]
    exact bind_of_ok (register_of_get? (x := { x with
      state := { x.state with store := (x.state.store.alloc i).1 } }) (Store.get?_alloc_self _ i))
  | some pair =>
    have hrest : ∀ n ∈ (x.state.merged.get? pair).getD [], ∃ j,
        (x.state.store.alloc i).1.get? n = some j ∧ j.mergeDependents i = .ok none := fun n hn => by
      obtain ⟨j, hj, hnone⟩ := hapart pair hd n hn
      exact ⟨j, Store.get?_alloc_of_some i hj, hnone⟩
    rw [insert_eq_of_asDependency hd,
      bind_of_ok (mergeInto_eq_of_apart (Store.get?_alloc_self x.state.store i) _ [] hrest)]
    refine ⟨_, bind_of_ok (register_of_get? (Store.get?_alloc_self _ i)), rfl, fun pr => ?_⟩
    simp only [OrderedMap.get?_insert, Option.some.injEq]
    split_ifs with hpair
    · subst hpair
      rfl
    · rw [List.append_nil]

theorem insert_eq_of_joins (hd : i.asDependency = some pair) (hj : x.state.store.get? old = some j)
    (hk : j.mergeDependents i = .ok (some k)) (hold : old ∈ (x.state.merged.get? pair).getD [])
    (hnodup : ((x.state.merged.get? pair).getD []).Nodup)
    (hothers : ∀ n ∈ (x.state.merged.get? pair).getD [], n ≠ old → ∃ l, x.state.store.get? n = some l ∧
      l.mergeDependents i = .ok none ∧ l.mergeDependents k = .ok none) :
    ∃ s', (insert i : Solving σ P V S M π E Nat) x = .ok (x.state.store.size + 1) { x with state := s' } ∧
      s'.store = (((x.state.store.alloc i).1.unregistered old).alloc k).1.registered (x.state.store.size + 1) ∧
      ∀ pr, (s'.merged.get? pr).getD [] =
        if pr = pair then ((x.state.merged.get? pr).getD []).erase old ++ [x.state.store.size + 1]
        else (x.state.merged.get? pr).getD [] := by
  rw [insert_eq_of_asDependency hd]
  obtain ⟨s', hok, hstore, hmerged⟩ := mergeInto_eq_of_joins (x := { x with state := { x.state with
      store := (x.state.store.alloc i).1
      merged := x.state.merged.insert pair ((x.state.merged.get? pair).getD []) } })
    pair (Store.get?_alloc_self x.state.store i) (Store.get?_alloc_of_some i hj) hk
    ((x.state.merged.get? pair).getD []) [] hold hnodup fun n hn hne => by
      obtain ⟨l, hl, hli, hlk⟩ := hothers n hn hne
      exact ⟨l, Store.get?_alloc_of_some i hl, hli, hlk⟩
  rw [Store.size_alloc] at hok hmerged
  have hget : s'.store.get? (x.state.store.size + 1) = some k := by
    have hself := Store.get?_alloc_self ((x.state.store.alloc i).1.unregistered old) k
    rw [Store.size_unregistered, Store.size_alloc] at hself
    rw [hstore]
    exact hself
  rw [bind_of_ok hok]
  refine ⟨{ s' with store := s'.store.registered (x.state.store.size + 1) },
    bind_of_ok (register_of_get? hget), by rw [hstore], fun pr => ?_⟩
  rw [hmerged pr]
  split_ifs with hpair
  · subst hpair
    rfl
  · rw [OrderedMap.get?_insert, if_neg (Ne.symm hpair)]

end Solving

/-! ## The index after an addition -/

section addition

variable [LawfulVersionSet S V]

open Solving in
/-- Adding a fact succeeds, and the index accounts for it. -/
theorem Indexed.insert {facts : List (Incompatibility P V S M)} {learned : Nat → Prop} {live : List Nat}
    {i : Incompatibility P V S M} {x : Session σ P V S M π E}
    (h : Indexed facts learned live x.state.store x.state.merged) (hi : i.External) :
    ∃ live' s' id, (insert i : Solving σ P V S M π E Nat) x = .ok id { x with state := s' } ∧
      Indexed (facts ++ [i]) learned live' s'.store s'.merged := by
  by_cases hjoin : ∃ p d v u R old, p ≠ d ∧ i.cause = .fact (.dependency p v d R) ∧ old ∈ live ∧
      x.state.store.States old (.dependency p u d R)
  · obtain ⟨p, d, v, u, R, old, hne, hc, hold, hst⟩ := hjoin
    have ⟨j, hj, hjc⟩ := hst
    have hiv := (hi.ofDependency_of_cause hc).2.2
    have hju := ((h.founded old j hj).dependency hjc).2.2
    obtain ⟨k, hk, hjk⟩ := mergeDependents_of_eq (Ne.symm hne) hju hiv
    have hnodup : ((x.state.merged.get? (p, d)).getD []).Nodup := by
      rw [h.merged]
      exact h.nodup.filter _
    -- no other dependency allows the same, so the joined one finds none either
    have hothers : ∀ n ∈ (x.state.merged.get? (p, d)).getD [], n ≠ old → ∃ l,
        x.state.store.get? n = some l ∧ l.mergeDependents i = .ok none ∧
          l.mergeDependents k = .ok none := fun n hn hne' => by
      obtain ⟨hlive, l, t, R', hl, hlc, hlt⟩ := h.exists_of_mem_merged hn
      have hR' : R' ≠ R := by
        rintro rfl
        exact hne' (h.reflects.unique hne hlive hold ⟨l, hl, hlc⟩ hst)
      exact ⟨l, hl, mergeDependents_of_ne (Ne.symm hne) hlt hiv hR',
        mergeDependents_of_ne (Ne.symm hne) hlt hk hR'⟩
    obtain ⟨s', hok, hstore, hmerged⟩ := insert_eq_of_joins (asDependency_of_cause hne hc) hj hjk
      (h.mem_merged hne hold hst) hnodup hothers
    refine ⟨live.erase old ++ [x.state.store.size + 1], s', _, hok, ?_⟩
    rw [hstore]
    exact h.join hi hne hc hold hst hk hmerged
  · have halone : ∀ {p d : P} {v u R : S} {n : Nat}, p ≠ d → i.cause = .fact (.dependency p v d R) →
        n ∈ live → ¬ x.state.store.States n (.dependency p u d R) :=
      fun hne hc hn hst => hjoin ⟨_, _, _, _, _, _, hne, hc, hn, hst⟩
    obtain ⟨s', hok, hstore, hmerged⟩ := insert_eq_of_apart (x := x) (i := i) fun pair hd n hn => by
      obtain ⟨hne, v, R, hc⟩ := asDependency_eq_some_iff.mp hd
      obtain ⟨hlive, j, u, R', hj, hjc, hju⟩ := h.exists_of_mem_merged hn
      refine ⟨j, hj, mergeDependents_of_ne (Ne.symm hne) hju (hi.ofDependency_of_cause hc).2.2 ?_⟩
      rintro rfl
      exact halone hne hc hlive ⟨j, hj, hjc⟩
    refine ⟨live ++ [x.state.store.size], s', _, hok, ?_⟩
    rw [hstore]
    exact h.add hi halone hmerged

open Solving in
/-- Adding what a version of a package depends on succeeds, and the index accounts for it. -/
theorem Indexed.insertDependencies {facts : List (Incompatibility P V S M)} {learned : Nat → Prop}
    {live : List Nat} (p : P) (v : V) (requirements : List (P × S)) (hr : ∀ r ∈ requirements, Proper r.2)
    {x : Session σ P V S M π E} (h : Indexed facts learned live x.state.store x.state.merged) :
    ∃ live' s' ids, (insertDependencies p v requirements : Solving σ P V S M π E (List Nat)) x =
        .ok ids { x with state := s' } ∧
      Indexed (facts ++ dependencyFacts p v requirements) learned live' s'.store s'.merged := by
  induction requirements generalizing facts live x with
  | nil => exact ⟨live, x.state, [], rfl, by rwa [dependencyFacts, List.filterMap_nil, List.append_nil]⟩
  | cons r rest ih =>
    obtain ⟨d, R⟩ := r
    rw [List.forall_mem_cons] at hr
    unfold Solving.insertDependencies
    cases hdep : (ofDependency p (VersionSet.singleton v) d R : Option (Incompatibility P V S M)) with
    | none =>
      have hfacts : (dependencyFacts p v ((d, R) :: rest) : List (Incompatibility P V S M)) =
          dependencyFacts p v rest := by
        simp [dependencyFacts, hdep]
      rw [hfacts]
      exact ih hr.2 h
    | some i =>
      obtain ⟨live₁, s₁, id, hid, h₁⟩ := h.insert (.dependency (proper_singleton v) hr.1 hdep)
      obtain ⟨live', s', ids, hok, h'⟩ := ih hr.2 (x := { x with state := s₁ }) h₁
      refine ⟨live', s', id :: ids, ?_, ?_⟩
      · dsimp only
        rw [bind_of_ok hid, bind_of_ok hok]
        rfl
      · have hfacts : facts ++ dependencyFacts p v ((d, R) :: rest) =
            facts ++ [i] ++ dependencyFacts p v rest := by
          simp [dependencyFacts, hdep]
        rw [hfacts]
        exact h'

end addition

end DependencyResolution
