import DependencyResolution.Proofs.Solver.Step

/-!
# Steps preserve the invariant

A step takes a state with the invariant, in a phase that it is ready for, to another such state and
phase (`Advance.invariant`, `Advance.ready`). Before the root is decided this says that a version of the
root that cannot be used leads to a conflict, and no other package is decided first.
-/

namespace DependencyResolution

open Incompatibility

variable {σ P V S M π E : Type} [DecidableEq P] [DecidableEq S] [VersionSet S V] [LawfulVersionSet S V]
  {provider : Provider σ P V S M π E} {x y : Session σ P V S M π E} {t t' : List (Assignment P V S)}
  {φ φ' : Phase P}

/-- A step that decides nothing preserves the invariant. -/
theorem Advance.invariant_of_ne_decide (h : Invariant x.state t) (hne : φ ≠ .decide)
    (hstep : Advance provider x t φ y t' φ') : Invariant y.state t' := by
  cases hstep with
  | turn _ hs _ => exact hs ▸ h
  | skip _ => exact h
  | wait _ _ _ => exact h
  | mark hi hcon hs _ =>
    rw [hs]
    exact h.markContradicted hi hcon
  | derive _ hi hu halmost hsol hs _ =>
    rw [hs]
    exact h.derive hi hu halmost hsol
  | clash _ _ _ => exact h
  | resolve hi _ hb hc hr hs _ =>
    have hsat := h.satisfiedBy_resolvent hi hb hc hr
    have hcont := isContingent_resolvent h.consistent (h.isContingent hi) (h.isContingent hc) hr
      (hsat.mono fun _ _ => allows_before)
    obtain ⟨_, _, -, -, hcause, -⟩ := get?_resolvent hr
    rw [hs]
    refine h.alloc (.derived hcause hcont) fun first second heq => ?_
    cases hcause.symm.trans heq
    exact ⟨Store.lt_size hi, Store.lt_size hc⟩
  | @learn _ _ changed _ _ _ _ _ _ hi hb hpos hlt halmost hsol hs _ =>
    have hle := hlt.le.trans (h.trail.level_le _ hb.first.mem)
    have hinv := (h.backtrack hle hsol).2
    rw [hs]
    cases changed with
    | false => exact hinv
    | true => exact hinv.register hi
  | learned hi hu halmost hsol hs _ =>
    rw [hs]
    exact h.derive hi hu halmost hsol
  | missing _ _ _ _ _ | unusable _ _ _ _ _ _ _ | refused _ _ _ _ _ _ _ _ _ _ | decided _ _ _ _ _ _ _ _ _
  | again _ _ _ _ _ _ _ _ _ => exact absurd rfl hne

/-- A step preserves the invariant. -/
theorem Advance.invariant (h : Invariant x.state t) (hφ : Ready x.state t φ)
    (hproper : provider.AnswersProper) (hstep : Advance provider x t φ y t' φ') :
    Invariant y.state t' := by
  by_cases hne : φ = .decide
  · subst hne
    cases hstep with
    | turn hturn _ _ => cases hturn
    | missing hp _ hs _ _ => exact h.inserted (h.restates_missing hp) hs
    | unusable hp hin _ _ hs _ _ => exact h.inserted (.unusable _ _ _) hs
    | refused hp hin hc hd hs _ _ _ _ _ => exact h.adds (hproper.restates hc hd) hs
    | decided hp hin hc hd hadds hsol hs _ _ =>
      have h' := h.adds (hproper.restates hc hd) hadds
      have hroot := Ready.eq_root h hφ hp
      rw [← hadds.solution] at hsol hroot
      rw [hs, ← hadds.solution]
      exact h'.decide hsol (hadds.root ▸ hroot)
    | again hp hin _ _ _ hsol hs _ _ =>
      rw [hs]
      exact h.decide hsol (Ready.eq_root h hφ hp)
  · exact hstep.invariant_of_ne_decide h hne

theorem Advance.root_eq (hstep : Advance provider x t φ y t' φ') :
    y.state.root = x.state.root ∧ y.state.rootVersion = x.state.rootVersion := by
  cases hstep with
  | skip _ | wait _ _ _ | clash _ _ _ => exact ⟨rfl, rfl⟩
  | turn _ hs _ | mark _ _ hs _ | derive _ _ _ _ _ hs _ | resolve _ _ _ _ _ hs _ | learn _ _ _ _ _ _ hs _
  | learned _ _ _ _ hs _ | again _ _ _ _ _ _ hs _ _ =>
    rw [hs]
    exact ⟨rfl, rfl⟩
  | missing _ _ hs _ _ | unusable _ _ _ _ hs _ _ | refused _ _ _ _ hs _ _ _ _ _ =>
    exact ⟨hs.root, hs.rootVersion⟩
  | decided _ _ _ _ hadds _ hs _ _ =>
    rw [hs]
    exact ⟨hadds.root, hadds.rootVersion⟩

/-! ## Phases -/

theorem Invariant.exists_of_mem_idsFor {s : SolverState P V S M} (h : Invariant s t) {p : P} {n : Nat}
    (hn : n ∈ s.store.idsFor p) : ∃ i, s.store.get? n = some i := by
  obtain ⟨i, -, hi, -⟩ := h.indexed p n hn
  exact ⟨i, hi⟩

omit [DecidableEq S] [VersionSet S V] [LawfulVersionSet S V] in
theorem Phase.Turns.due {store : Store P V S M} (h : φ.Turns store φ') {n : Nat}
    (hn : n ∈ φ'.due store) : ∃ p, n ∈ store.idsFor p := by
  cases h with
  | round p => exact ⟨p, hn⟩
  | rest => cases hn
  | next p waiting => exact ⟨p, List.mem_reverse.mp hn⟩
  | done waiting =>
    cases waiting with
    | nil => cases hn
    | cons p rest => exact ⟨p, hn⟩

theorem Advance.due (h' : Invariant y.state t') (hφ : Poised x.state t φ)
    (hstep : Advance provider x t φ y t' φ') :
    ∀ n ∈ φ'.due y.state.store, ∃ i, y.state.store.get? n = some i := by
  intro n hn
  cases hstep with
  | turn hturn hs _ =>
    rw [hs] at hn h' ⊢
    obtain ⟨p, hp⟩ := hturn.due hn
    exact h'.exists_of_mem_idsFor hp
  | skip _ => exact hφ.due n (List.mem_cons_of_mem _ hn)
  | wait _ _ _ => exact hφ.due n (List.mem_cons_of_mem _ hn)
  | mark _ _ hs _ =>
    rw [hs]
    exact hφ.due n (List.mem_cons_of_mem _ hn)
  | derive _ _ _ _ _ hs _ =>
    rw [hs]
    exact hφ.due n (List.mem_cons_of_mem _ hn)
  | clash _ _ _ => cases hn
  | resolve _ _ _ _ _ _ _ => cases hn
  | learn _ _ _ _ _ _ _ _ => cases hn
  | learned _ _ _ _ _ _ => exact h'.exists_of_mem_idsFor hn
  | missing _ _ _ _ _ => exact h'.exists_of_mem_idsFor hn
  | unusable _ _ _ _ _ _ _ => exact h'.exists_of_mem_idsFor hn
  | refused _ _ _ _ _ _ _ _ _ _ => exact h'.exists_of_mem_idsFor hn
  | decided _ _ _ _ _ _ _ _ _ => exact h'.exists_of_mem_idsFor hn
  | again _ _ _ _ _ _ _ _ _ => exact h'.exists_of_mem_idsFor hn

theorem Advance.satisfiedBy_of_conflict (h : Invariant x.state t)
    (hstep : Advance provider x t φ y t' φ') {id : Nat} {changed : Bool}
    (hφ' : φ' = .conflict id changed) :
    ∃ i, y.state.store.get? id = some i ∧ i.SatisfiedBy (Allows t') := by
  cases hstep with
  | turn hturn _ _ =>
    subst hφ'
    cases hturn
  | clash _ hi hsat =>
    cases hφ'
    exact ⟨_, hi, hsat⟩
  | resolve hi _ hb hc hr hs _ =>
    cases hφ'
    refine ⟨_, by rw [hs]; exact Store.get?_alloc_self x.state.store _, ?_⟩
    exact (h.satisfiedBy_resolvent hi hb hc hr).mono fun _ _ => allows_before
  | _ => cases hφ'

/-- What is learned says something at the level gone back to. -/
theorem Advance.almostSatisfiedBy_of_learned (hstep : Advance provider x t φ y t' φ') {p : P} {id : Nat}
    (hφ' : φ' = .learned p id) :
    ∃ i, y.state.store.get? id = some i ∧ i.AlmostSatisfiedBy (Allows t') p := by
  cases hstep with
  | turn hturn _ _ =>
    subst hφ'
    cases hturn
  | @learn _ _ changed _ _ _ _ _ _ hi _ _ _ halmost _ hs _ =>
    cases hφ'
    refine ⟨_, ?_, halmost⟩
    rw [hs]
    cases changed <;> exact hi
  | _ => cases hφ'

/-! ## Before the root is decided -/

omit [DecidableEq S] [VersionSet S V] [LawfulVersionSet S V] in
theorem Phase.Turns.due_of_due {store : Store P V S M} (h : φ.Turns store φ') {n : Nat}
    (hn : n ∈ φ.due store) : n ∈ φ'.due store := by
  cases h with
  | round p => exact hn
  | rest => cases hn
  | next p waiting => exact List.mem_reverse.mpr hn
  | done waiting => cases hn

section ground

variable {s s' : SolverState P V S M} {p : P} {v : V} {n : Nat}

theorem Invariant.exact_of_allows (h : Invariant s t) {w : Value S V} (hw : Allows t s.root w) :
    (Term.exact s.rootVersion : Term S).Holds w := by
  obtain ⟨d, rest, ht, hd, hterm, -⟩ := h.rooted
  rw [← hterm]
  exact hw (.derivation d) (by rw [ht]; exact List.mem_cons_self) hd

theorem Invariant.entails_of_contains (h : Invariant s t) {versions : S}
    (hp : s.solution.IsPending s.root versions) (hin : VersionSet.contains versions v = true) {u : Term S}
    (hu : u.IsProper) (huv : u.contains v = true) : Entails (Allows t) s.root u := by
  have hv : Allows t s.root (Value.ofVersion v) := by
    rw [h.allows_iff hp]
    exact (Term.contains_iff_holds (.positive versions) v).mp hin
  have hroot : (Term.exact s.rootVersion : Term S).contains v = true :=
    (Term.contains_iff_holds _ v).mpr (h.exact_of_allows hv)
  have heq : v = s.rootVersion := (LawfulVersionSet.contains_singleton s.rootVersion v).mp hroot
  intro w hw
  rw [heq] at huv
  exact (Term.holds_iff_of_holds_exact (h.exact_of_allows hw) hu).mpr huv

/-- An incompatibility all terms of which hold once the root is at a version that is allowed holds
already. -/
theorem Invariant.satisfiedBy_of_satisfiedAt (h : Invariant s t) {versions : S}
    (hp : s.solution.IsPending s.root versions) (hin : VersionSet.contains versions v = true)
    {i : Incompatibility P V S M} (hi : i.IsContingent) (hsat : i.SatisfiedAt (Allows t) s.root v) :
    i.SatisfiedBy (Allows t) := by
  intro q u hu
  by_cases hq : q = s.root
  · subst hq
    exact h.entails_of_contains hp hin (hi _ u hu).proper (hsat.own u hu)
  · exact hsat.others q u hu hq

theorem Invariant.satisfiedBy_missing (h : Invariant s t) {versions : S}
    (hp : s.solution.IsPending p versions) :
    (missing p versions : Incompatibility P V S M).SatisfiedBy (Allows t) := by
  intro q u hu
  rw [get?_missing] at hu
  split_ifs at hu with hq
  cases hu
  subst hq
  exact fun w hw => (h.allows_iff hp w).mp hw

omit [DecidableEq S] in
theorem satisfiedAt_unusableVersion (A : Knowledge P S V) (p : P) {v : V} {reason : M} :
    (unusableVersion p v reason : Incompatibility P V S M).SatisfiedAt A p v := by
  refine ⟨fun u hu => ?_, fun q u hu hq => ?_⟩
  · rw [get?_unusableVersion, if_pos rfl, Option.some.injEq] at hu
    subst hu
    exact (LawfulVersionSet.contains_singleton v v).mpr rfl
  · rw [get?_unusableVersion, if_neg (Ne.symm hq)] at hu
    cases hu

theorem Invariant.contains_eq_false (h : Invariant s t) (hn : s.store.size ≤ n) :
    s.contradicted.contains n = false := by
  rw [← Bool.not_eq_true]
  intro hc
  obtain ⟨i, hi, -⟩ := h.contradictedBy_of_contains hc
  exact absurd (Store.lt_size hi) (by omega)

/-- A new fact that is satisfied will be found when its package is looked at. -/
theorem clashing_of_new (h : Invariant s t) (hcon : s'.contradicted = s.contradicted)
    (hn : s.store.size ≤ n) (hmem : n ∈ s'.store.idsFor p) {i : Incompatibility P V S M}
    (hi : s'.store.get? n = some i) (hsat : i.SatisfiedBy (Allows t)) : Clashing s' t (.round p) :=
  Or.inr ⟨n, hmem, by rw [hcon]; exact h.contains_eq_false hn, i, hi, hsat⟩

omit [DecidableEq S] in
theorem Clashing.scan {id : Nat} {rest : List Nat} {waiting waiting' : List P}
    (hc : Clashing s t (.scan (id :: rest) waiting))
    (hid : s.contradicted.contains id = false → ∀ i, s.store.get? id = some i →
      ¬ i.SatisfiedBy (Allows t)) : Clashing s t (.scan rest waiting') := by
  rcases hc with ⟨_, _, hc⟩ | ⟨n, hn, hnc, i, hi, hsat⟩
  · cases hc
  · rcases List.mem_cons.mp hn with rfl | hn
    · exact absurd hsat (hid hnc i hi)
    · exact Or.inr ⟨n, hn, hnc, i, hi, hsat⟩

omit [DecidableEq S] in
theorem Clashing.mark {id : Nat} {rest : List Nat} {waiting waiting' : List P}
    {i : Incompatibility P V S M} (hc : Clashing s t (.scan (id :: rest) waiting))
    (hi : s.store.get? id = some i) (hnot : ¬ i.SatisfiedBy (Allows t))
    (hstore : s'.store = s.store) (hcon : s'.contradicted = s.contradicted) (hle : ∀ a ∈ t, a ∈ t') :
    Clashing (s'.markContradicted id) t' (.scan rest waiting') := by
  rcases hc with ⟨_, _, hc⟩ | ⟨n, hn, hnc, j, hj, hsat⟩
  · cases hc
  · have hne : id ≠ n := by
      rintro rfl
      rw [hi, Option.some.injEq] at hj
      exact hnot (hj ▸ hsat)
    refine Or.inr ⟨n, (List.mem_cons.mp hn).resolve_left (Ne.symm hne), ?_, j, ?_, ?_⟩
    · simp only [SolverState.markContradicted, OrderedMap.contains, OrderedMap.get?_insert, if_neg hne,
        hcon]
      exact hnc
    · exact hstore ▸ hj
    · exact hsat.mono fun q x hx => hx.mono hle

omit [DecidableEq S] [LawfulVersionSet S V] in
theorem OnlyRoot.derive {solution : PartialSolution P V S} {id : Nat} {i : Incompatibility P V S M}
    {u w : Term S} (h : OnlyRoot s t) (hi : s.store.get? id = some i) (hu : i.get? p = some u) :
    OnlyRoot ({ s with solution }.markContradicted id)
      (t ++ [.derivation (s.solution.derivation p w id)]) where
  assigned a ha := by
    rcases List.mem_append.mp ha with ha | ha
    · exact h.assigned a ha
    · rw [List.mem_singleton] at ha
      subst ha
      exact h.mentioned id i p u hi hu
  mentioned := h.mentioned

end ground

/-- Until the root is decided only the root is spoken of, or a conflict is ahead. -/
theorem Advance.ground (h : Invariant x.state t) (h' : Invariant y.state t') (hφ : Ready x.state t φ)
    (hstep : Advance provider x t φ y t' φ') (hl : y.state.solution.level = 0) :
    OnlyRoot y.state t' ∨ Clashing y.state t' φ' := by
  cases hstep with
  | turn hturn hs _ =>
    rw [hs] at hl ⊢
    refine (hφ.ground hl).imp_right fun hc => ?_
    rcases hc with ⟨_, _, rfl⟩ | ⟨n, hn, hrest⟩
    · cases hturn
    · exact Or.inr ⟨n, hturn.due_of_due hn, hrest⟩
  | skip hc =>
    refine (hφ.ground hl).imp_right fun hclash => hclash.scan fun hnc => ?_
    rw [hc] at hnc
    cases hnc
  | wait _ hi hopen =>
    refine (hφ.ground hl).imp_right fun hclash => hclash.scan fun _ j hj hsat => ?_
    rw [hi, Option.some.injEq] at hj
    subst hj
    obtain ⟨p, -, u, -, -, hu, -, hent, -⟩ := hopen.terms
    exact hent (hsat p u hu)
  | mark hi hcon hs _ =>
    rw [hs] at hl ⊢
    refine (hφ.ground hl).imp (fun hroot => ⟨hroot.assigned, hroot.mentioned⟩) fun hclash => ?_
    exact hclash.mark hi (fun hsat => hsat.not_contradictedBy h.consistent hcon) rfl rfl fun _ ha => ha
  | derive _ hi hu halmost hsol hs _ =>
    have hlevel := PartialSolution.level_of_derive hsol
    rw [hs] at hl ⊢
    change _ = 0 at hl
    refine (hφ.ground (hlevel ▸ hl)).imp (fun hroot => hroot.derive hi hu) fun hclash => ?_
    obtain ⟨⟨u', hu', hent, -⟩, -⟩ := halmost
    exact hclash.mark hi (fun hsat => hent (hsat _ u' hu')) rfl rfl fun _ => List.mem_append_left _
  | clash _ _ _ => exact Or.inr (Or.inl ⟨_, _, rfl⟩)
  | resolve _ _ _ _ _ _ _ => exact Or.inr (Or.inl ⟨_, _, rfl⟩)
  | learn hi hb hpos hlt halmost hsol hs _ =>
    have hle := hlt.le.trans (h.trail.level_le _ hb.first.mem)
    have hlevel := (h.backtrack hle hsol).1
    rw [hs] at hl
    -- the search never goes back below level 1
    exact absurd (hlevel.symm.trans hl) (by omega)
  | learned hi hu halmost hsol hs _ =>
    have hlevel := PartialSolution.level_of_derive hsol
    rw [hs] at hl ⊢
    change _ = 0 at hl
    rcases hφ.ground (hlevel ▸ hl) with hroot | ⟨_, _, hclash⟩ | ⟨n, hn, -⟩
    · exact Or.inl (hroot.derive hi hu)
    · cases hclash
    · cases hn
  | missing hp _ hs _ _ =>
    obtain ⟨hfresh, hmem, hi⟩ := hs.get?_of_asDependency rfl ((get?_missing _ _ _).trans (if_pos rfl))
    exact Or.inr (clashing_of_new h hs.contradicted hfresh hmem hi (h.satisfiedBy_missing hp))
  | unusable hp hin _ _ hs _ _ =>
    -- what stands in the way of the root at its only version is satisfied already
    rw [hs.solution] at hl
    have hroot := Ready.eq_root h hφ hp hl
    subst hroot
    obtain ⟨hfresh, hmem, hi⟩ := hs.get?_of_asDependency rfl
      ((get?_unusableVersion _ _ _ _).trans (if_pos rfl))
    exact Or.inr (clashing_of_new h hs.contradicted hfresh hmem hi
      (h.satisfiedBy_of_satisfiedAt hp hin (h'.isContingent hi) (satisfiedAt_unusableVersion _ _)))
  | refused hp hin _ _ hs hid hi hsat _ _ =>
    rw [hs.solution] at hl
    have hroot := Ready.eq_root h hφ hp hl
    subst hroot
    obtain ⟨hfresh, hmem⟩ := hs.mem_idsFor hid
    exact Or.inr (clashing_of_new h hs.contradicted hfresh hmem hi
      (h.satisfiedBy_of_satisfiedAt hp hin (h'.isContingent hi) hsat))
  | decided hp hin _ _ hadds hsol hs _ _ =>
    rw [hs] at hl
    exact absurd (PartialSolution.level_of_decide hsol ▸ hl) (Nat.succ_ne_zero _)
  | again hp hin _ _ _ hsol hs _ _ =>
    rw [hs] at hl
    exact absurd (PartialSolution.level_of_decide hsol ▸ hl) (Nat.succ_ne_zero _)

/-- Where the invariant holds before and after a step, the step leads to a phase that the state is poised
for. -/
theorem Advance.poised (h : Invariant x.state t) (h' : Invariant y.state t') (hφ : Poised x.state t φ)
    (hstep : Advance provider x t φ y t' φ') : Poised y.state t' φ' where
  due := hstep.due h' hφ
  conflict _ _ := hstep.satisfiedBy_of_conflict h
  learned _ _ := hstep.almostSatisfiedBy_of_learned

theorem Advance.ready (h : Invariant x.state t) (hφ : Ready x.state t φ)
    (hproper : provider.AnswersProper) (hstep : Advance provider x t φ y t' φ') :
    Ready y.state t' φ' where
  toPoised := hstep.poised h (hstep.invariant h hφ hproper) hφ.toPoised
  ground := hstep.ground h (hstep.invariant h hφ hproper) hφ

end DependencyResolution
