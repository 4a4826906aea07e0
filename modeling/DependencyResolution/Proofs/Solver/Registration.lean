import DependencyResolution.Proofs.Solver.Answer

/-!
# The solver is informed

Whatever happens after an answer, each fact of it stays registered under the package that it is about,
if need be joined with others (`Informed`), and every version that is decided was asked for.
-/

namespace DependencyResolution

open Incompatibility

variable {σ P V S M π E : Type}

/-! ## Facts about a package -/

def Cause.subject : Cause P V S M → Option P
  | .fact (.noVersions p _) => some p
  | .fact (.dependency p _ _ _) => some p
  | .fact (.unusable p _ _) => some p
  | _ => none

variable [DecidableEq P] [DecidableEq S] [VersionSet S V] [LawfulVersionSet S V]

section subject

variable {i k j : Incompatibility P V S M} {p q : P} {A : Knowledge P S V}

theorem Incompatibility.Covers.subject (h : Covers k j) : k.cause.subject = j.cause.subject := by
  cases h with
  | refl => rfl
  | more _ _ _ _ hj hk => rw [cause_ofDependency hj, cause_ofDependency hk]; rfl

omit [LawfulVersionSet S V] in
theorem subject_of_mem_dependencyFacts {v : V} {requirements : List (P × S)}
    (hi : i ∈ dependencyFacts p v requirements) : i.cause.subject = some p := by
  obtain ⟨_, -, h⟩ := List.mem_filterMap.mp hi
  rw [cause_ofDependency h]
  rfl

theorem Incompatibility.WellFormed.other_of_subject (h : i.WellFormed) (hs : i.cause.subject = some p) :
    ∃ d, ∀ q u, i.get? q = some u → q = p ∨ q = d := by
  cases h with
  | derived hc _ =>
    rw [hc] at hs
    cases hs
  | fact h =>
    cases h with
    | root p v => cases hs
    | noVersions p' versions _ _ =>
      cases hs
      refine ⟨p, fun q u hu => ?_⟩
      rw [get?_missing] at hu
      split_ifs at hu with hq
      exact Or.inl hq.symm
    | unusable p' v reason =>
      cases hs
      refine ⟨p, fun q u hu => ?_⟩
      rw [get?_unusableVersion] at hu
      split_ifs at hu with hq
      exact Or.inl hq.symm
    | @dependency _ p' needed _ _ _ _ _ hi =>
      rw [cause_ofDependency hi] at hs
      cases hs
      refine ⟨needed, fun q u hu => ?_⟩
      by_cases hne : needed = p
      · subst hne
        rw [get?_ofDependency_self hi] at hu
        split_ifs at hu with hq
        exact Or.inl hq.symm
      · rw [get?_ofDependency hne hi] at hu
        split_ifs at hu with hq hq'
        · exact Or.inl hq
        · exact Or.inr hq'.1

/-- Where the package of a fact is fixed to a version, at most one term of the fact is open. -/
theorem Incompatibility.WellFormed.not_openTwice (h : i.WellFormed) (hs : i.cause.subject = some p)
    {v : V} (hA : ∀ x, A p x ↔ (Term.exact v : Term S).Holds x) : ¬ i.OpenTwice A := by
  intro hopen
  obtain ⟨d, hd⟩ := h.other_of_subject hs
  have hself : ∀ u, i.get? p = some u → Entails A p u := by
    intro u hu x hx
    by_contra hux
    have hexact := (hA x).mp hx
    have hproper := (h.isContingent p u hu).proper
    refine hopen.not_contradicted ⟨p, u, hu, fun y hy huy => hux ?_⟩
    rw [Term.holds_iff_of_holds_exact hexact hproper]
    exact (Term.holds_iff_of_holds_exact ((hA y).mp hy) hproper).mp huy
  obtain ⟨q, r, u, w, hne, hu, hw, hqu, hrw⟩ := hopen.terms
  have hqp : q ≠ p := by
    rintro rfl
    exact hqu (hself u hu)
  have hrp : r ≠ p := by
    rintro rfl
    exact hrw (hself w hw)
  exact hne (((hd q u hu).resolve_left hqp).trans ((hd r w hw).resolve_left hrp).symm)

end subject

/-! ## Registered facts -/

section registers

/-- A fact, or one that covers it, is registered under the package. -/
def Store.Registers (s : Store P V S M) (p : P) (i : Incompatibility P V S M) : Prop :=
  ∃ n k, n ∈ s.idsFor p ∧ s.get? n = some k ∧ Covers k i

variable {s s' : SolverState P V S M} {t : List (Assignment P V S)} {i j : Incompatibility P V S M} {p q : P}
  {id : Nat} {facts : List (Incompatibility P V S M)} {ids : List Nat}

theorem Inserted.registers_self (h : Inserted s s' i id) {u : Term S} (hu : i.get? p = some u) :
    s'.store.Registers p i := by
  obtain ⟨k, hk, hcov⟩ := h.covers
  obtain ⟨w, hw⟩ := hcov.mentions hu
  exact ⟨id, k, h.registered k p w hk hw, hk, hcov⟩

/-- What is registered stays so when a fact is added, if need be by what it is joined into. -/
theorem Inserted.registers (h : Inserted s s' i id) (hs : Invariant s t) (hj : s.store.Registers p j) :
    s'.store.Registers p j := by
  obtain ⟨n, k, hn, hk, hcov⟩ := hj
  rcases h.kept p n hn with hmem | ⟨pair, k', m, hk', -, -, hm, hcov'⟩
  · exact ⟨n, k, hmem, h.stored n k hk, hcov⟩
  · rw [h.stored n k hk, Option.some.injEq] at hk'
    subst hk'
    obtain ⟨k', u, hk', hu⟩ := hs.indexed p n hn
    rw [hk, Option.some.injEq] at hk'
    subst hk'
    obtain ⟨w, hw⟩ := hcov'.mentions hu
    exact ⟨id, m, h.registered m p w hm hw, hm, hcov'.trans hcov⟩

theorem Adds.registers (h : Adds s facts s' ids) (hs : Invariant s t) (hf : ∀ i ∈ facts, i.Restates)
    (hj : s.store.Registers p j) : s'.store.Registers p j := by
  induction h with
  | nil => exact hj
  | cons h ht ih =>
    rw [List.forall_mem_cons] at hf
    exact ih (hs.inserted hf.1 h) hf.2 (h.registers hs hj)

theorem Adds.registers_of_mem (h : Adds s facts s' ids) (hs : Invariant s t)
    (hf : ∀ i ∈ facts, i.Restates) (hi : i ∈ facts) {u : Term S} (hu : i.get? p = some u) :
    s'.store.Registers p i := by
  induction h with
  | nil => cases hi
  | cons h ht ih =>
    rw [List.forall_mem_cons] at hf
    have hs' := hs.inserted hf.1 h
    rcases List.mem_cons.mp hi with rfl | hi
    · exact ht.registers hs' hf.2 (h.registers_self hu)
    · exact ih hs' hf.2 hi

theorem Adds.registers_dependency {v : V} {requirements : List (P × S)}
    (h : Adds s (dependencyFacts p v requirements) s' ids) (hs : Invariant s t)
    (hf : ∀ i ∈ (dependencyFacts p v requirements : List (Incompatibility P V S M)), i.Restates)
    (hi : i ∈ dependencyFacts p v requirements) (hq : i.cause.subject = some q) :
    s'.store.Registers q i := by
  rw [subject_of_mem_dependencyFacts hi, Option.some.injEq] at hq
  subst hq
  obtain ⟨u, hu⟩ := mentions_of_mem_dependencyFacts hi
  exact h.registers_of_mem hs hf hi hu

theorem Store.Registers.alloc {store : Store P V S M} (h : store.Registers p i)
    (j : Incompatibility P V S M) : (store.alloc j).1.Registers p i := by
  obtain ⟨n, k, hn, hk, hcov⟩ := h
  exact ⟨n, k, hn, Store.get?_alloc_of_some j hk, hcov⟩

theorem Store.Registers.register {store : Store P V S M} (h : store.Registers p i) (id : Nat) :
    (store.registered id).Registers p i := by
  obtain ⟨n, k, hn, hk, hcov⟩ := h
  exact ⟨n, k, Store.mem_idsFor_registered.mpr (Or.inl hn), hk, hcov⟩

theorem Inserted.old_of_subject (h : Inserted s s' i id) (hs : Invariant s t)
    (hi : i.cause.subject = some p) (hne : q ≠ p) {n : Nat} (hn : n ∈ s'.store.idsFor q)
    (hj : s'.store.get? n = some j) (hsub : j.cause.subject = some q) :
    n ∈ s.store.idsFor q ∧ s.store.get? n = some j := by
  rcases h.listed q n hn with hold | ⟨rfl, -⟩
  · obtain ⟨k, -, hk, -⟩ := hs.indexed q n hold
    rw [h.stored n k hk, Option.some.injEq] at hj
    subst hj
    exact ⟨hold, hk⟩
  · obtain ⟨k, hk, hcov⟩ := h.covers
    rw [hk, Option.some.injEq] at hj
    subst hj
    rw [hcov.subject, hi, Option.some.injEq] at hsub
    exact absurd hsub.symm hne

theorem Adds.old_of_subject (h : Adds s facts s' ids) (hs : Invariant s t)
    (hf : ∀ i ∈ facts, i.Restates ∧ i.cause.subject = some p) (hne : q ≠ p) {n : Nat}
    (hn : n ∈ s'.store.idsFor q) (hj : s'.store.get? n = some j) (hsub : j.cause.subject = some q) :
    n ∈ s.store.idsFor q ∧ s.store.get? n = some j := by
  induction h with
  | nil => exact ⟨hn, hj⟩
  | cons h ht ih =>
    rw [List.forall_mem_cons] at hf
    obtain ⟨hn', hj'⟩ := ih (hs.inserted hf.1.1 h) hf.2 hn hj
    exact h.old_of_subject hs hf.1.2 hne hn' hj' hsub

end registers

/-! ## What was said -/

section said

variable {provider : Provider σ P V S M π E} {x y : Session σ P V S M π E} {t t' : List (Assignment P V S)}
  {φ φ' : Phase P} {p q : P} {v w : V}

def Session.Tried (x : Session σ P V S M π E) (p : P) (v : V) : Prop :=
  ∃ seen, x.visited.get? p = some seen ∧ v ∈ seen

omit [DecidableEq S] [VersionSet S V] [LawfulVersionSet S V] in
theorem Session.tried_iff_of_visit (h : y.visited = x.visit p v) :
    y.Tried q w ↔ x.Tried q w ∨ q = p ∧ w = v := by
  unfold Tried
  rw [h, visit, OrderedMap.get?_insert]
  by_cases hq : p = q
  · subst hq
    cases hp : x.visited.get? p <;> simp [or_comm]
  · simp [hq, Ne.symm hq]

omit [DecidableEq S] [VersionSet S V] [LawfulVersionSet S V] in
theorem Session.tried_iff_of_eq (h : y.visited = x.visited) : y.Tried q w ↔ x.Tried q w := by
  unfold Tried
  rw [h]

/-- What the provider said is registered, and it was asked about every version that is decided. -/
structure Informed (provider : Provider σ P V S M π E) (x : Session σ P V S M π E)
    (t : List (Assignment P V S)) : Prop where
  answered : ∀ e ∈ x.answers, e.AnsweredBy provider
  tried : ∀ p v, x.Tried p v → ∃ answer, .retrieved p v (.ok answer) ∈ x.answers
  decided : ∀ d, .decision d ∈ t → x.Tried d.package d.version
  said : ∀ e ∈ x.answers, ∀ i ∈ e.facts, ∀ p, i.cause.subject = some p → x.state.store.Registers p i

theorem Informed.extend (h : Informed provider x t) {events : List (Event P V S M π E)}
    (ha : y.answers = x.answers ++ events)
    (hanswered : ∀ e ∈ events, e.AnsweredBy provider)
    (hkept : ∀ p i, x.state.store.Registers p i → y.state.store.Registers p i)
    (hsaid : ∀ e ∈ events, ∀ i ∈ e.facts, ∀ p, i.cause.subject = some p → y.state.store.Registers p i)
    (htried : ∀ p v, y.Tried p v ↔
      x.Tried p v ∨ ∃ answer, .retrieved p v (.ok answer) ∈ events)
    (hdecided : ∀ d, .decision d ∈ t' → .decision d ∈ t ∨ y.Tried d.package d.version) :
    Informed provider y t' where
  answered e he := by
    rw [ha] at he
    exact (List.mem_append.mp he).elim (h.answered e) (hanswered e)
  tried p v hpv := by
    rw [ha]
    rcases (htried p v).mp hpv with hold | ⟨answer, hnew⟩
    · obtain ⟨answer, hmem⟩ := h.tried p v hold
      exact ⟨answer, List.mem_append_left _ hmem⟩
    · exact ⟨answer, List.mem_append_right _ hnew⟩
  decided d hd := (hdecided d hd).elim (fun hold => (htried _ _).mpr (Or.inl (h.decided d hold))) id
  said e he i hi p hp := by
    rw [ha] at he
    rcases List.mem_append.mp he with hold | hnew
    · exact hkept p i (h.said e hold i hi p hp)
    · exact hsaid e hnew i hi p hp

theorem Informed.of_quiet (h : Informed provider x t) (hq : x.Quiet y)
    (hkept : ∀ p i, x.state.store.Registers p i → y.state.store.Registers p i)
    (hdecided : ∀ d, .decision d ∈ t' → .decision d ∈ t) : Informed provider y t' :=
  h.extend (show y.answers = x.answers ++ [] by rw [hq.answers, List.append_nil]) (by simp) hkept
    (by simp)
    (fun p v => by simp [Session.tried_iff_of_eq hq.visited]) fun d hd => Or.inl (hdecided d hd)

theorem Informed.retrieve (h : Informed provider x t) {versions : S} {answer : Dependencies P S M}
    (hc : ∃ c, (provider.chooseVersion p versions c).1 = .ok (some v))
    (hd : ∃ c, (provider.dependencies p v c).1 = .ok answer) (hv : y.visited = x.visit p v)
    (ha : y.answers = x.answers ++ [.chose p versions (.ok (some v)), .retrieved p v (.ok answer)])
    (hkept : ∀ p i, x.state.store.Registers p i → y.state.store.Registers p i)
    (hsaid : ∀ i ∈ (Event.retrieved p v (.ok answer) : Event P V S M π E).facts, ∀ q,
      i.cause.subject = some q → y.state.store.Registers q i)
    (hdecided : ∀ d, .decision d ∈ t' → .decision d ∈ t ∨ d.package = p ∧ d.version = v) :
    Informed provider y t' := by
  refine h.extend ha (fun e he => ?_) hkept (fun e he => ?_) (fun q w => ?_) fun d hd => ?_
  · rw [List.mem_cons, List.mem_singleton] at he
    rcases he with rfl | rfl
    · exact hc
    · exact ⟨⟨_, hc⟩, hd⟩
  · rw [List.mem_cons, List.mem_singleton] at he
    rcases he with rfl | rfl
    · exact fun i hi => by cases hi
    · exact hsaid
  · rw [Session.tried_iff_of_visit hv]
    simp [eq_comm]
  · exact (hdecided d hd).imp_right fun hpv => (Session.tried_iff_of_visit hv).mpr (Or.inr hpv)

omit [DecidableEq P] [DecidableEq S] [VersionSet S V] [LawfulVersionSet S V] in
theorem mem_decision_append_derivation {d : Decision P V S} {e : Derivation P S} :
    .decision d ∈ t ++ [.derivation e] ↔ .decision d ∈ t := by
  simp

theorem Advance.informed (h : Invariant x.state t) (hproper : provider.AnswersProper)
    (hinf : Informed provider x t) (hstep : Advance provider x t φ y t' φ') : Informed provider y t' := by
  cases hstep with
  | turn _ hs hq => exact hinf.of_quiet hq (fun _ _ => hs ▸ id) fun _ => id
  | skip _ => exact hinf
  | wait _ _ _ => exact hinf
  | mark _ _ hs hq => exact hinf.of_quiet hq (fun _ _ hr => hs ▸ hr) fun _ => id
  | derive _ _ _ _ _ hs hq =>
    exact hinf.of_quiet hq (fun _ _ hr => hs ▸ hr) fun _ => mem_decision_append_derivation.mp
  | clash _ _ _ => exact hinf
  | resolve _ _ _ _ _ hs hq => exact hinf.of_quiet hq (fun _ _ hr => hs ▸ hr.alloc _) fun _ => id
  | @learn _ id changed _ _ _ _ _ _ _ _ _ _ _ _ hs hq =>
    refine hinf.of_quiet hq (fun _ _ hr => ?_) fun _ hd => (mem_upTo_iff.mp hd).1
    rw [hs]
    cases changed with
    | false => exact hr
    | true => exact hr.register id
  | learned _ _ _ _ hs hq =>
    exact hinf.of_quiet hq (fun _ _ hr => hs ▸ hr) fun _ => mem_decision_append_derivation.mp
  | missing _ hc hs hv ha =>
    refine hinf.extend ha (List.forall_mem_singleton.mpr hc) (fun _ _ hr => hs.registers h hr) (fun e he i hi p hp => ?_)
      (fun p v => by simp [Session.tried_iff_of_eq hv]) fun _ => Or.inl
    rw [List.mem_singleton] at he
    subst he
    rw [Event.facts, List.mem_singleton] at hi
    subst hi
    cases hp
    exact hs.registers_self ((get?_missing _ _ _).trans (if_pos rfl))
  | unusable _ _ hc hd hs hv ha =>
    refine hinf.retrieve hc hd hv ha (fun _ _ hr => hs.registers h hr) (fun i hi q hq => ?_) fun _ => Or.inl
    rw [Event.facts, List.mem_singleton] at hi
    subst hi
    cases hq
    exact hs.registers_self ((get?_unusableVersion _ _ _ _).trans (if_pos rfl))
  | refused _ _ hc hd hs _ _ _ hv ha =>
    have hf := hproper.restates hc hd
    exact hinf.retrieve hc hd hv ha (fun _ _ => hs.registers h hf)
      (fun _ hi _ hq => hs.registers_dependency h hf hi hq) fun _ => Or.inl
  | decided _ _ hc hd hadds _ hs hv ha =>
    have hf := hproper.restates hc hd
    refine hinf.retrieve hc hd hv ha (fun _ _ hr => ?_) (fun _ hi _ hq => ?_) fun d hd => ?_
    · rw [hs]
      exact hadds.registers h hf hr
    · rw [hs]
      exact hadds.registers_dependency h hf hi hq
    · rcases List.mem_append.mp hd with hd | hd
      · exact Or.inl hd
      · rw [List.mem_singleton, Assignment.decision.injEq] at hd
        subst hd
        exact Or.inr ⟨rfl, rfl⟩
  | again _ _ hc hseen hvs _ hs hv ha =>
    refine hinf.extend ha (List.forall_mem_singleton.mpr hc) (fun _ _ hr => hs ▸ hr) (fun e he i hi => ?_)
      (fun p v => by simp [Session.tried_iff_of_eq hv]) fun d hd => ?_
    · rw [List.mem_singleton] at he
      subst he
      cases hi
    · rcases List.mem_append.mp hd with hd | hd
      · exact Or.inl hd
      · rw [List.mem_singleton, Assignment.decision.injEq] at hd
        subst hd
        exact Or.inr ((Session.tried_iff_of_eq hv).mpr ⟨_, hseen, hvs⟩)

theorem Informed.opened {root : P} {version : V} (h : x.Opened root version) :
    Informed provider x [.derivation (rootDerivation root version)] where
  answered e he := by
    rw [h.answers] at he
    cases he
  tried p v := by
    rintro ⟨seen, hseen, -⟩
    rw [h.visited] at hseen
    cases hseen
  decided d hd := by simp at hd
  said e he := by
    rw [h.answers] at he
    cases he

end said

end DependencyResolution
