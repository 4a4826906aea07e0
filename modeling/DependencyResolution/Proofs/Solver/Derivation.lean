import DependencyResolution.Proofs.Explanation.Graph
import DependencyResolution.Proofs.Solver.Completeness
import DependencyResolution.Proofs.Solver.Moment

/-!
# Derivations

What is derived follows by resolution from two incompatibilities that were stored before, neither of
which shows by itself that there is no solution (`Store.Traced`). So a stored incompatibility rests on
facts, and where it holds one of them holds (`Store.Traced.exists_fact`).
-/

namespace DependencyResolution

open Incompatibility

variable {σ P V S M π E : Type} [DecidableEq P] [DecidableEq S] [VersionSet S V]

/-! ## Tracing derivations -/

/-- The incompatibility follows from those with two smaller numbers, and neither of these would have
ended the run. -/
structure Store.Follows (s : Store P V S M) (root : P) (version : V) (id first second : Nat)
    (i : Incompatibility P V S M) : Prop where
  first_lt : first < id
  second_lt : second < id
  resolves : ∃ j k p, s.get? first = some j ∧ s.get? second = some k ∧
    j.isTerminal root version = false ∧ k.isTerminal root version = false ∧
    j.resolvent k first second p = .ok i

/-- What was derived follows from what was stored before. -/
def Store.Traced (s : Store P V S M) (root : P) (version : V) : Prop :=
  ∀ id i first second, s.get? id = some i → i.cause = .derived first second →
    s.Follows root version id first second i

variable {provider : Provider σ P V S M π E} {x y : Session σ P V S M π E} {t t' : List (Assignment P V S)}
  {φ φ' : Phase P} {root : P} {version : V} {i : Incompatibility P V S M} {store store' : Store P V S M}
  {s s' : SolverState P V S M} {id first second n : Nat}

theorem Store.Follows.mono (h : store.Follows root version id first second i)
    (hle : ∀ m j, store.get? m = some j → store'.get? m = some j) :
    store'.Follows root version id first second i := by
  refine ⟨h.first_lt, h.second_lt, ?_⟩
  obtain ⟨j, k, p, hj, hk, hr⟩ := h.resolves
  exact ⟨j, k, p, hle _ j hj, hle _ k hk, hr⟩

theorem Store.Traced.of_get?_eq (h : store.Traced root version)
    (heq : ∀ m, store'.get? m = store.get? m) : store'.Traced root version := by
  intro n i first second hi hc
  rw [heq] at hi
  exact (h n i first second hi hc).mono fun m j hj => (heq m).trans hj

theorem Store.Traced.lt_of_mem_causesOf (h : store.Traced root version) (hn : n ∈ store.causesOf id) :
    n < id := by
  obtain ⟨i, first, second, hi, hc, hn⟩ := Store.mem_causesOf_iff.mp hn
  have hfollows := h id i first second hi hc
  rcases hn with rfl | rfl
  · exact hfollows.first_lt
  · exact hfollows.second_lt

/-- Nothing was derived from what shows by itself that there is no solution. -/
theorem Store.Traced.eq_of_isTerminal (h : store.Traced root version) (hrests : store.RestsOn id n)
    (hi : store.get? n = some i) (hterm : i.isTerminal root version = true) : n = id := by
  rcases hrests.cases_tail with rfl | ⟨m, -, hm⟩
  · rfl
  · obtain ⟨k, first, second, hk, hc, hn⟩ := Store.mem_causesOf_iff.mp hm
    obtain ⟨a, b, p, ha, hb, haterm, hbterm, -⟩ := (h m k first second hk hc).resolves
    rcases hn with rfl | rfl
    · rw [hi, Option.some.injEq] at ha
      rw [ha, haterm] at hterm
      cases hterm
    · rw [hi, Option.some.injEq] at hb
      rw [hb, hbterm] at hterm
      cases hterm

theorem Store.Traced.start (root : P) (version : V) :
    (SolverState.start root version : SolverState P V S M).store.Traced root version := by
  intro id i first second hi hc
  rw [get?_start] at hi
  split_ifs at hi
  cases hi
  cases hc

theorem exists_fact_of_mem_dependencyFacts {p : P} {v : V} {requirements : List (P × S)}
    (hi : i ∈ dependencyFacts p v requirements) : ∃ f, i.cause = .fact f := by
  obtain ⟨_, -, h⟩ := List.mem_filterMap.mp hi
  exact ⟨_, cause_ofDependency h⟩

variable [LawfulVersionSet S V]

theorem Inserted.traced (h : Inserted s s' i id) (hi : ∃ f, i.cause = .fact f)
    (hs : s.store.Traced root version) : s'.store.Traced root version := by
  intro n j first second hj hc
  obtain ⟨m, hmn, hm⟩ := h.exists_of_derived hi hj hc
  have hfollows := (hs m j first second hm hc).mono h.stored
  exact ⟨hfollows.first_lt.trans_le hmn, hfollows.second_lt.trans_le hmn, hfollows.resolves⟩

theorem Adds.traced {facts : List (Incompatibility P V S M)} {ids : List Nat} (h : Adds s facts s' ids)
    (hfacts : ∀ i ∈ facts, ∃ f, i.cause = .fact f) (hs : s.store.Traced root version) :
    s'.store.Traced root version := by
  induction h with
  | nil => exact hs
  | cons h _ ih =>
    rw [List.forall_mem_cons] at hfacts
    exact ih hfacts.2 (h.traced hfacts.1 hs)

theorem Invariant.exists_world (h : Invariant s t) :
    ∃ w : World P S V, w s.root = Value.ofVersion s.rootVersion ∧ ∀ q, Allows t q (w q) := by
  choose w hw using h.consistent
  refine ⟨Function.update w s.root (Value.ofVersion s.rootVersion), Function.update_self .., fun q => ?_⟩
  by_cases hq : q = s.root
  · subst hq
    rw [Function.update_self]
    intro a ha hp
    have hexact := h.exact_of_allows (hw s.root)
    rw [Term.holds_iff_of_holds_exact (Term.holds_exact_ofVersion _) (h.properTrail a ha),
      ← Term.holds_iff_of_holds_exact hexact (h.properTrail a ha)]
    exact hw s.root a ha hp
  · rw [Function.update_of_ne hq]
    exact hw q

theorem Invariant.isTerminal_cause (h : Invariant s t) {d : Derivation P S} (hd : .derivation d ∈ t)
    (hi : s.store.get? d.cause = some i) : i.isTerminal s.root s.rootVersion = false := by
  obtain ⟨c, hc, hj⟩ := h.justified d hd
  rw [hi, Option.some.injEq] at hc
  subst hc
  obtain ⟨w, hroot, hallows⟩ := h.exists_world
  rw [← Bool.not_eq_true]
  intro hterm
  have hneg := holdsIn_of_isTerminal hterm hroot d.package _ hj.term
  exact (Term.holds_negate d.term _).mp hneg (hallows d.package (.derivation d) hd rfl)

theorem Advance.traced (h : Invariant x.state t)
    (hs : x.state.store.Traced x.state.root x.state.rootVersion)
    (hstep : Advance provider x t φ y t' φ') :
    y.state.store.Traced y.state.root y.state.rootVersion := by
  rw [hstep.root_eq.1, hstep.root_eq.2]
  cases hstep with
  | skip _ | wait _ _ _ | clash _ _ _ => exact hs
  | turn _ hs' _ | mark _ _ hs' _ | derive _ _ _ _ _ hs' _ | learned _ _ _ _ hs' _
  | again _ _ _ _ _ _ hs' _ _ =>
    rw [hs']
    exact hs
  | @resolve _ id _ i c r p _ d hi hterm hb hc hr hs' _ =>
    rw [hs']
    intro n j first second hj hcause
    have hgrow := fun m k => Store.get?_alloc_of_some (s := x.state.store) (n := m) (j := k) r
    rw [Store.get?_alloc] at hj
    split_ifs at hj with hn
    · cases hj
      obtain ⟨-, -, -, -, hcause', -⟩ := get?_resolvent hr
      cases hcause.symm.trans hcause'
      have hcterm := h.isTerminal_cause hb.first.mem hc
      exact ⟨hn ▸ Store.lt_size hi, hn ▸ Store.lt_size hc, i, c, p, hgrow _ i hi, hgrow _ c hc, hterm,
        hcterm, hr⟩
    · exact (hs n j first second hj hcause).mono hgrow
  | @learn _ _ changed _ _ _ _ _ _ _ _ _ _ _ _ hs' _ =>
    rw [hs']
    refine hs.of_get?_eq fun m => ?_
    cases changed <;> rfl
  | missing _ _ hs' _ _ => exact hs'.traced ⟨_, rfl⟩ hs
  | unusable _ _ _ _ hs' _ _ => exact hs'.traced ⟨_, rfl⟩ hs
  | refused _ _ _ _ hs' _ _ _ _ _ => exact hs'.traced (fun _ => exists_fact_of_mem_dependencyFacts) hs
  | decided _ _ _ _ hadds _ hs' _ _ =>
    rw [hs']
    exact hadds.traced (fun _ => exists_fact_of_mem_dependencyFacts) hs

/-! ## What derivations rest on -/

/-- Where an incompatibility holds, one of the facts that it rests on holds. -/
theorem Store.Traced.exists_fact (h : store.Traced root version)
    (hwf : ∀ n j, store.get? n = some j → j.WellFormed) {w : World P S V} (hi : store.get? id = some i)
    (hw : i.HoldsIn w) :
    ∃ leaf j f, store.RestsOn id leaf ∧ store.get? leaf = some j ∧ j.cause = .fact f ∧ j.HoldsIn w := by
  -- causes have smaller numbers
  induction id using Nat.strong_induction_on generalizing i with
  | _ id ih =>
    cases hc : i.cause with
    | fact f => exact ⟨id, i, f, .refl, hi, hc, hw⟩
    | derived first second =>
      have hfollows := h id i first second hi hc
      obtain ⟨j, k, p, hj, hk, -, -, hr⟩ := hfollows.resolves
      have hproper := fun n l hl => (hwf n l hl).isContingent.isProper
      rcases holdsIn_of_resolvent (hproper first j hj) (hproper second k hk) hr hw with hold | hold
      · obtain ⟨leaf, l, f, hrests, hl⟩ := ih first hfollows.first_lt hj hold
        have hmem := Store.mem_causesOf_iff.mpr ⟨i, first, second, hi, hc, Or.inl rfl⟩
        exact ⟨leaf, l, f, hrests.head hmem, hl⟩
      · obtain ⟨leaf, l, f, hrests, hl⟩ := ih second hfollows.second_lt hk hold
        have hmem := Store.mem_causesOf_iff.mpr ⟨i, first, second, hi, hc, Or.inr rfl⟩
        exact ⟨leaf, l, f, hrests.head hmem, hl⟩

/-! ## Runs -/

variable [DecidableEq V] [LT π] [DecidableLT π] {client : σ}

/-- What is stored is well formed, and what was derived follows from what was stored before. -/
structure Session.Grounded (x : Session σ P V S M π E) (root : P) (version : V) : Prop where
  root_eq : x.state.root = root
  version_eq : x.state.rootVersion = version
  wellFormed : ∀ n j, x.state.store.get? n = some j → j.WellFormed
  traced : x.state.store.Traced root version

omit [DecidableEq V] [LT π] [DecidableLT π] in
theorem Session.Grounded.of_state_eq (h : x.Grounded root version) (hs : y.state = x.state) :
    y.Grounded root version := by
  obtain ⟨hr, hv, hwf, htraced⟩ := h
  exact ⟨hs ▸ hr, hs ▸ hv, hs ▸ hwf, hs ▸ htraced⟩

omit [DecidableEq V] [LT π] [DecidableLT π] in
theorem Session.Grounded.causes_lt (h : x.Grounded root version) :
    ∀ n, ∀ c ∈ x.state.store.causesOf n, c < n :=
  fun _ _ => h.traced.lt_of_mem_causesOf

theorem Reached.grounded (hproper : provider.AnswersProper)
    (h : Reached provider client root version x φ) : x.Grounded root version := by
  have hcases := h.cases (I := fun x _ _ => (x.state.root = root ∧ x.state.rootVersion = version) ∧
    x.state.store.Traced x.state.root x.state.rootVersion) hproper
    (fun hx => by rw [hx.state]; exact ⟨⟨rfl, rfl⟩, .start root version⟩)
    fun hinv _ hI hstep => by
      obtain ⟨⟨hr, hv⟩, htraced⟩ := hI
      obtain ⟨hr', hv'⟩ := hstep.root_eq
      exact ⟨⟨hr'.trans hr, hv'.trans hv⟩, hstep.traced hinv htraced⟩
  rcases hcases with hfresh | ⟨t, hinv, -, ⟨hr, hv⟩, htraced⟩
  · refine ⟨?_, ?_, fun n j hj => ?_, ?_⟩
    · rw [hfresh.state]
      rfl
    · rw [hfresh.state]
      rfl
    · rw [hfresh.state, get?_start] at hj
      split_ifs at hj
      cases hj
      exact .fact (.root root version)
    · rw [hfresh.state]
      exact .start root version
  · subst hr hv
    exact ⟨rfl, rfl, hinv.wellFormed, htraced⟩

theorem resolveWithin_grounded (hproper : provider.AnswersProper) (steps : Nat) (client : σ) (root : P)
    (version : V) : (resolveWithin steps provider client root version).2.Grounded root version :=
  resolveWithin_moment hproper (fun _ _ h => h.grounded hproper)
    (fun _ _ hxy hx => hx.of_state_eq hxy.state) steps

end DependencyResolution
