import DependencyResolution.Proofs.PackageTable
import DependencyResolution.Proofs.Solver.Moment
import DependencyResolution.Proofs.Solver.Registration

/-!
# The provenance of facts

Every fact in the store is what the provider said in the run, or what was asked of the solver
(`Session.Reports`): the versions of a dependency are those for which the provider named it, however
many of them have been joined. Conversely everything that the provider said about the dependencies of a
version is found in the index, in an incompatibility that speaks of this version. Both hold at every
moment of every run: `resolveWithin_faithful`.
-/

namespace DependencyResolution

open Incompatibility

variable {σ P V S M π E : Type} [DecidableEq P] [DecidableEq S] [VersionSet S V]

/-- The set is the union of some singletons of versions of which something holds. -/
inductive UnionOf (holds : V → Prop) : S → Prop
  | singleton {v : V} (h : holds v) : UnionOf holds (VersionSet.singleton v)
  | union {versions versions' : S} (h : UnionOf holds versions) (h' : UnionOf holds versions') :
      UnionOf holds (VersionSet.union versions versions')

omit [DecidableEq S] in
theorem UnionOf.mono {holds holds' : V → Prop} {versions : S} (h : UnionOf holds versions)
    (hle : ∀ v, holds v → holds' v) : UnionOf holds' versions := by
  induction h with
  | singleton h => exact .singleton (hle _ h)
  | union _ _ ih ih' => exact .union ih ih'

omit [DecidableEq S] in
theorem UnionOf.of_contains [LawfulVersionSet S V] {holds : V → Prop} {versions : S}
    (h : UnionOf holds versions) {v : V} (hv : VersionSet.contains versions v = true) : holds v := by
  suffices hproper : LawfulVersionSet.Proper versions ∧
      ∀ v, VersionSet.contains versions v = true → holds v from hproper.2 v hv
  clear hv
  induction h with
  | @singleton w h =>
    refine ⟨LawfulVersionSet.proper_singleton w, fun v hv => ?_⟩
    exact (LawfulVersionSet.contains_singleton w v).mp hv ▸ h
  | union _ _ ih ih' =>
    refine ⟨LawfulVersionSet.proper_union ih.1 ih'.1, fun v hv => ?_⟩
    rw [LawfulVersionSet.contains_union v ih.1 ih'.1, Bool.or_eq_true] at hv
    exact hv.elim (ih.2 v) (ih'.2 v)

/-- The fact is what the provider said, or that the root is to be selected at the version. -/
def Session.Reports (x : Session σ P V S M π E) (root : P) (version : V) : Fact P V S M → Prop
  | .root p v => p = root ∧ v = version
  | .noVersions p versions => .chose p versions (.ok none) ∈ x.events
  | .unusable p versions reason =>
    ∃ v, versions = VersionSet.singleton v ∧ .retrieved p v (.ok (.unavailable reason)) ∈ x.events
  | .dependency p versions needed allowed =>
    UnionOf (fun v => ∃ requirements, .retrieved p v (.ok (.available requirements)) ∈ x.events ∧
      requirements.get? needed = some allowed) versions

/-- All facts in the store are reported in the session. -/
def Store.DocumentedBy (store : Store P V S M) (x : Session σ P V S M π E) (root : P) (version : V) :
    Prop :=
  ∀ n i f, store.get? n = some i → i.cause = .fact f → x.Reports root version f

variable {provider : Provider σ P V S M π E} {x y : Session σ P V S M π E} {t t' : List (Assignment P V S)}
  {φ φ' : Phase P} {root : P} {version : V} {i : Incompatibility P V S M} {f : Fact P V S M}
  {store : Store P V S M} {s s' : SolverState P V S M} {id : Nat}

/-! ## What facts report -/

section reports

omit [DecidableEq S]

theorem Session.Reports.mono (h : x.Reports root version f) (hle : ∀ e ∈ x.answers, e ∈ y.answers) :
    y.Reports root version f := by
  have hevents : ∀ e : Event P V S M π E, e.isAnswer = true → e ∈ x.events → e ∈ y.events :=
    fun e he hmem => (mem_answers_iff he).mp (hle e ((mem_answers_iff he).mpr hmem))
  cases f with
  | root p v => exact h
  | noVersions p versions => exact hevents _ rfl h
  | unusable p versions reason => exact h.imp fun v hv => ⟨hv.1, hevents _ rfl hv.2⟩
  | dependency p versions needed allowed =>
    exact UnionOf.mono h fun v hv => hv.imp fun _ hr => ⟨hevents _ rfl hr.1, hr.2⟩

theorem Store.DocumentedBy.mono (h : store.DocumentedBy x root version)
    (hle : ∀ e ∈ x.answers, e ∈ y.answers) : store.DocumentedBy y root version :=
  fun n i f hi hf => (h n i f hi hf).mono hle

theorem Store.DocumentedBy.alloc (h : store.DocumentedBy x root version)
    (hi : ∀ f, i.cause = .fact f → x.Reports root version f) :
    (store.alloc i).1.DocumentedBy x root version := by
  intro n j f hj hf
  rw [Store.get?_alloc] at hj
  split_ifs at hj
  · cases hj
    exact hi f hf
  · exact h n j f hj hf

end reports

theorem Session.reports_of_mem_facts {e : Event P V S M π E} (he : e ∈ x.answers) (hi : i ∈ e.facts)
    (hf : i.cause = .fact f) : x.Reports root version f := by
  have hmem : e.isAnswer = true → e ∈ x.events := fun ha => (mem_answers_iff ha).mp he
  rcases e with _ | _ | ⟨p, versions, _ | _ | v⟩ | ⟨p, v, _ | requirements | reason⟩ | _
  case chose.ok.none =>
    obtain rfl := List.mem_singleton.mp hi
    cases hf
    exact hmem rfl
  case retrieved.ok.available =>
    obtain ⟨⟨needed, allowed⟩, hr, hdep⟩ := List.mem_filterMap.mp hi
    rw [cause_ofDependency hdep] at hf
    cases hf
    exact .singleton ⟨requirements, hmem rfl, requirements.get?_eq_some_iff.mpr hr⟩
  case retrieved.ok.unavailable =>
    obtain rfl := List.mem_singleton.mp hi
    cases hf
    exact ⟨v, rfl, hmem rfl⟩
  all_goals cases hi

variable [LawfulVersionSet S V]

theorem Store.Made.reports (h : store.Made i) (hs : store.DocumentedBy x root version)
    (hf : i.cause = .fact f) : x.Reports root version f := by
  induction h generalizing f with
  | stored h => exact hs _ _ f h hf
  | joined _ _ h ihi ihj =>
    obtain ⟨hne, hv, hw, ha, hi, hj, hk⟩ := h
    rw [cause_ofDependency hk] at hf
    cases hf
    exact .union (ihi (cause_ofDependency hi)) (ihj (cause_ofDependency hj))

theorem Inserted.documentedBy (h : Inserted s s' i id) (hs : s.store.DocumentedBy x root version)
    (hi : ∀ f, i.cause = .fact f → x.Reports root version f) : s'.store.DocumentedBy x root version :=
  fun n k _ hk hf => (h.made n k hk).reports (hs.alloc hi) hf

theorem Adds.documentedBy {facts : List (Incompatibility P V S M)} {ids : List Nat}
    (h : Adds s facts s' ids) (hs : s.store.DocumentedBy x root version)
    (hfacts : ∀ i ∈ facts, ∀ f, i.cause = .fact f → x.Reports root version f) :
    s'.store.DocumentedBy x root version := by
  induction h with
  | nil => exact hs
  | cons h _ ih =>
    rw [List.forall_mem_cons] at hfacts
    exact ih (h.documentedBy hs hfacts.1) hfacts.2

theorem Advance.documentedBy (hx : x.state.store.DocumentedBy x root version)
    (hstep : Advance provider x t φ y t' φ') : y.state.store.DocumentedBy y root version := by
  have hsaid : ∀ {events : List (Event P V S M π E)} {e : Event P V S M π E}, y.answers = x.answers ++ events →
      e ∈ events → ∀ i ∈ e.facts, ∀ f, i.cause = .fact f → y.Reports root version f :=
    fun ha he i hi f hf => Session.reports_of_mem_facts (ha ▸ List.mem_append_right _ he) hi hf
  have hmono : ∀ {events : List (Event P V S M π E)}, y.answers = x.answers ++ events →
      x.state.store.DocumentedBy y root version :=
    fun ha => hx.mono fun e he => ha ▸ List.mem_append_left _ he
  have hquiet : x.Quiet y → x.state.store.DocumentedBy y root version :=
    fun hq => hx.mono fun e he => hq.answers ▸ he
  cases hstep with
  | skip _ | wait _ _ _ | clash _ _ _ => exact hx
  | turn _ hs hq | mark _ _ hs hq | derive _ _ _ _ _ hs hq | learned _ _ _ _ hs hq =>
    rw [hs]
    exact hquiet hq
  | again _ _ _ _ _ _ hs _ ha =>
    rw [hs]
    exact hmono ha
  | resolve _ _ _ _ hr hs hq =>
    rw [hs]
    refine (hquiet hq).alloc fun f hf => ?_
    obtain ⟨-, -, -, -, hc, -⟩ := get?_resolvent hr
    rw [hc] at hf
    cases hf
  | @learn _ _ changed _ _ _ _ _ _ _ _ _ _ _ _ hs hq =>
    rw [hs]
    cases changed <;> exact hquiet hq
  | missing _ _ hs _ ha =>
    exact hs.documentedBy (hmono ha) (hsaid ha List.mem_cons_self _ (List.mem_singleton_self _))
  | unusable _ _ _ _ hs _ ha =>
    exact hs.documentedBy (hmono ha)
      (hsaid ha (List.mem_cons_of_mem _ List.mem_cons_self) _ (List.mem_singleton_self _))
  | refused _ _ _ _ hs _ _ _ _ ha =>
    exact hs.documentedBy (hmono ha) (hsaid ha (List.mem_cons_of_mem _ List.mem_cons_self))
  | decided _ _ _ _ hadds _ hs _ ha =>
    rw [hs]
    exact hadds.documentedBy (hmono ha) (hsaid ha (List.mem_cons_of_mem _ List.mem_cons_self))

omit [DecidableEq S] [LawfulVersionSet S V] in
theorem Store.documentedBy_start (x : Session σ P V S M π E) (root : P) (version : V) :
    (SolverState.start root version : SolverState P V S M).store.DocumentedBy x root version := by
  intro n i f hi hf
  rw [get?_start] at hi
  split_ifs at hi
  cases hi
  cases hf
  exact ⟨rfl, rfl⟩

/-! ## What the index says of a version -/

theorem Incompatibility.Covers.speaksOf {k : Incompatibility P V S M} (h : Covers k i) {p needed : P} {v : V}
    {allowed : S} (hi : ofDependency p (VersionSet.singleton v) needed allowed = some i)
    (ha : LawfulVersionSet.Proper allowed)
    (hself : ¬ (needed = p ∧ VersionSet.contains allowed v = true)) :
    (∃ versions, k.cause = .fact (.dependency p versions needed allowed)) ∧
      ∃ u, k.get? p = some u ∧ u.contains v = true := by
  have hexact : (Term.exact v : Term S).Holds (Value.ofVersion v) := Term.holds_exact_ofVersion v
  cases h with
  | refl =>
    refine ⟨⟨_, cause_ofDependency hi⟩, ?_⟩
    by_cases hne : needed = p
    · subst hne
      refine ⟨_, (get?_ofDependency_self hi).trans (if_pos rfl), ?_⟩
      rw [Term.contains_iff_holds, Term.holds_intersection (t := .positive (VersionSet.singleton v))
        (u := .negative allowed) (Term.isProper_exact v) ha]
      refine ⟨hexact, (Term.holds_negate (.positive allowed) _).mpr fun hin => hself ⟨rfl, ?_⟩⟩
      exact (Term.contains_iff_holds (.positive allowed) v).mpr hin
    · exact ⟨_, (get?_ofDependency hne hi).trans (if_pos rfl), (Term.contains_iff_holds _ v).mpr hexact⟩
  | @more _ _ q needed' w versions allowed' hne hw hv hle hj hk =>
    cases (cause_ofDependency hi).symm.trans (cause_ofDependency hj)
    refine ⟨⟨_, cause_ofDependency hk⟩, _, (get?_ofDependency hne hk).trans (if_pos rfl), ?_⟩
    exact (Term.contains_iff_holds (.positive versions) v).mpr (hle _ hexact)

/-- What the provider said about the dependencies of a version is in the index. -/
theorem Informed.speaksOf (h : Informed provider x t) (hproper : provider.AnswersProper) {p needed : P}
    {v : V} {requirements : OrderedMap P S} {allowed : S}
    (he : .retrieved p v (.ok (.available requirements)) ∈ x.answers)
    (hr : requirements.get? needed = some allowed)
    (hself : ¬ (needed = p ∧ VersionSet.contains allowed v = true)) :
    ∃ n ∈ x.state.store.idsFor p, ∃ k, x.state.store.get? n = some k ∧
      (∃ versions, k.cause = .fact (.dependency p versions needed allowed)) ∧
      ∃ u, k.get? p = some u ∧ u.contains v = true := by
  obtain ⟨hchosen, hd⟩ := h.answered _ he
  have hmem := requirements.get?_eq_some_iff.mp hr
  have ha : LawfulVersionSet.Proper allowed := hproper p v requirements hchosen hd _ hmem
  cases hdep : (ofDependency p (VersionSet.singleton v) needed allowed :
      Option (Incompatibility P V S M)) with
  | none =>
    obtain ⟨hne, hle⟩ := holds_of_ofDependency_eq_none (LawfulVersionSet.proper_singleton v) ha hdep
    refine absurd ⟨hne, ?_⟩ hself
    exact (Term.contains_iff_holds (.positive allowed) v).mpr (hle _ (Term.holds_exact_ofVersion v))
  | some i =>
    have hfact : i ∈ (Event.retrieved p v (.ok (.available requirements)) : Event P V S M π E).facts :=
      List.mem_filterMap.mpr ⟨_, hmem, hdep⟩
    obtain ⟨n, k, hn, hk, hcov⟩ := h.said _ he i hfact p (subject_of_mem_dependencyFacts hfact)
    exact ⟨n, hn, k, hk, hcov.speaksOf hdep ha hself⟩

/-! ## Runs -/

variable [DecidableEq V] [LT π] [DecidableLT π] {client : σ}

/-- The store holds only facts that were reported, and the index all that was said on dependencies. -/
structure Session.Faithful (x : Session σ P V S M π E) (root : P) (version : V) : Prop where
  reported : ∀ id i f, x.state.store.get? id = some i → i.cause = .fact f → x.Reports root version f
  indexed : ∀ p v requirements needed allowed,
    .retrieved p v (.ok (.available requirements)) ∈ x.events → requirements.get? needed = some allowed →
    ¬ (needed = p ∧ VersionSet.contains allowed v = true) →
    ∃ id ∈ x.state.store.idsFor p, ∃ i, x.state.store.get? id = some i ∧
      (∃ versions, i.cause = .fact (.dependency p versions needed allowed)) ∧
      ∃ u, i.get? p = some u ∧ u.contains v = true

omit [DecidableEq S] [LawfulVersionSet S V] [DecidableEq V] [LT π] [DecidableLT π] in
theorem Session.Faithful.of_unmoved (h : x.Faithful root version) (hxy : x.Unmoved y) :
    y.Faithful root version := by
  refine ⟨fun id i f hi hf => ?_, fun p v requirements needed allowed he hr hself => ?_⟩
  · rw [hxy.state] at hi
    exact (h.reported id i f hi hf).mono fun e he => hxy.mem_answers he
  · rw [← mem_answers_iff rfl] at he
    rw [hxy.state]
    exact h.indexed p v requirements needed allowed
      ((mem_answers_iff rfl).mp (hxy.mem_of_informs he rfl)) hr hself

theorem Reached.faithful (hproper : provider.AnswersProper)
    (h : Reached provider client root version x φ) : x.Faithful root version := by
  have hcases := h.cases (I := fun x t _ => x.state.store.DocumentedBy x root version ∧
    Informed provider x t) hproper
    (fun hx => ⟨by rw [hx.state]; exact Store.documentedBy_start _ root version, .opened hx⟩)
    fun hinv _ hI hstep => ⟨hstep.documentedBy hI.1, hstep.informed hinv hproper hI.2⟩
  rcases hcases with hfresh | ⟨t, -, -, hdocumented, hinformed⟩
  · refine ⟨by rw [hfresh.state]; exact Store.documentedBy_start x root version, ?_⟩
    intro p v requirements needed allowed he
    rw [← Session.mem_answers_iff rfl, hfresh.answers] at he
    cases he
  · refine ⟨hdocumented, fun p v requirements needed allowed he hr hself => ?_⟩
    exact hinformed.speaksOf hproper ((Session.mem_answers_iff rfl).mpr he) hr hself

theorem Reached.answered (hproper : provider.AnswersProper)
    (h : Reached provider client root version x φ) : ∀ e ∈ x.answers, e.AnsweredBy provider := by
  have hcases := h.cases (I := fun x t _ => Informed provider x t) hproper (fun hx => .opened hx)
    fun hinv _ hI hstep => hstep.informed hinv hproper hI
  rcases hcases with hfresh | ⟨t, -, -, hinformed⟩
  · rw [hfresh.answers]
    simp
  · exact hinformed.answered

/-- However far a run has come, and however it ended, its store holds only facts that the provider
reported in it, and its index all that the provider said about dependencies. -/
theorem resolveWithin_faithful (hproper : provider.AnswersProper) (steps : Nat) (client : σ) (root : P)
    (version : V) : (resolveWithin steps provider client root version).2.Faithful root version :=
  resolveWithin_moment hproper (fun _ _ h => h.faithful hproper) (fun _ _ hxy hx => hx.of_unmoved hxy) steps

/-- In a run in which two versions turn out to have the same dependency, the store comes to hold the
dependency of both. -/
theorem resolveWithin_threePackages_faithful :
    ∃ i, (resolveWithin 90 (PackageTable.threePackages (.single 2 (.atLeast 2))).provider () 0 1).2.state.store.get?
        6 = some i ∧
      i.cause = .fact (.dependency 1
        (VersionSet.union (VersionSet.singleton 2) (VersionSet.singleton 1)) 2 (.atLeast 2)) ∧
      (resolveWithin 90 (PackageTable.threePackages (.single 2 (.atLeast 2))).provider () 0 1).2.Faithful 0 1 := by
  have hproper := PackageTable.threePackages_proper (PackageTable.proper_single_atLeast 2 2)
  have hjoined : ((resolveWithin 90 (PackageTable.threePackages (.single 2 (.atLeast 2))).provider ()
      0 1).2.state.store.get? 6).map (·.cause) = some (.fact (.dependency 1
        (VersionSet.union (VersionSet.singleton 2) (VersionSet.singleton 1)) 2 (.atLeast 2))) := by
    rw [(PackageTable.threePackages_ascending _).provider_eq]
    decide +kernel
  obtain ⟨i, hi, hc⟩ := Option.map_eq_some_iff.mp hjoined
  exact ⟨i, hi, hc, resolveWithin_faithful
    (PackageTable.provider_answersProper hproper) 90 () 0 1⟩

end DependencyResolution
