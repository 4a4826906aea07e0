import DependencyResolution.Proofs.Explanation.Collapse
import DependencyResolution.Proofs.Solver.Provenance
import DependencyResolution.Proofs.Version.Simplify

/-!
# Shortened explanations refute

What is shown to the user is not the explanation itself but a shorter one: collapsed, and with its sets
simplified against the versions that there are. It still shows that there is no solution
(`PackageTable.resolveWithin_shortened_refutes`). If the version of the root is in the table, the
versions that facts say are missing are not selected, so collapsing loses nothing, and a simplified set
holds the same versions that can be selected. If it is not in the table, the explanation is this one
fact, which stays as it is.
-/

namespace DependencyResolution

open Incompatibility

/-! ## The explanation of a stored incompatibility -/

section linked

variable {σ P V S M π E : Type} [DecidableEq P] [DecidableEq S] [VersionSet S V] [LawfulVersionSet S V]
  {x : Session σ P V S M π E} {root p : P} {version : V} {i : Incompatibility P V S M} {f : Fact P V S M}
  {u : Term S} {id : Nat}

theorem Incompatibility.Restates.isProper_fact (h : i.Restates) (hf : i.cause = .fact f) : f.IsProper := by
  cases h with
  | root p v =>
    cases hf
    trivial
  | noVersions p versions hv _ =>
    cases hf
    exact hv
  | unusable p v reason =>
    cases hf
    exact LawfulVersionSet.proper_singleton v
  | dependency hv _ ha hi =>
    rw [cause_ofDependency hi] at hf
    cases hf
    exact ⟨hv, ha⟩

/-- That there is no version of the root in a set with the version that is asked for ends the run. -/
theorem Incompatibility.Restates.isTerminal_of_noVersions {versions : S} (h : i.Restates)
    (hf : i.cause = .fact (.noVersions root versions)) (hin : VersionSet.contains versions version = true) :
    i.isTerminal root version = true := by
  cases h with
  | root | unusable => cases hf
  | noVersions q versions' _ _ =>
    cases hf
    simp [isTerminal, missing, OrderedMap.single, Term.isPositive, Term.contains, hin]
  | dependency _ _ _ hdep =>
    rw [cause_ofDependency hdep] at hf
    cases hf

theorem Incompatibility.Restates.mem_packages (h : i.Restates) (hf : i.cause = .fact f)
    (hu : i.get? p = some u) : p ∈ (Node.fact f : Node P V S M).packages := by
  have hsingle : ∀ {q : P} {w : Term S}, (OrderedMap.single q w).get? p = some u → p = q := by
    intro q w hw
    rw [OrderedMap.get?_single] at hw
    split_ifs at hw with hq
    exact hq.symm
  cases h with
  | root q v =>
    cases hf
    exact List.mem_singleton.mpr (hsingle hu)
  | noVersions q versions hv _ =>
    cases hf
    exact List.mem_singleton.mpr (hsingle hu)
  | unusable q v reason =>
    cases hf
    exact List.mem_singleton.mpr (hsingle hu)
  | @dependency i q needed versions allowed hv _ ha hi =>
    rw [cause_ofDependency hi] at hf
    cases hf
    change p ∈ [q, needed]
    by_cases hne : needed = q
    · subst hne
      rw [get?_ofDependency_self hi] at hu
      split_ifs at hu with hq
      exact hq ▸ List.mem_cons_self
    · rw [get?_ofDependency hne hi] at hu
      split_ifs at hu with hq hq'
      · exact hq ▸ List.mem_cons_self
      · exact hq'.1 ▸ List.mem_cons_of_mem _ List.mem_cons_self

theorem Incompatibility.WellFormed.mem_packages (h : i.WellFormed) (s : Store P V S M) (ids : List Nat)
    (n : Nat) (hu : i.get? p = some u) : p ∈ (s.toNode ids n i).packages := by
  unfold Store.toNode
  cases hc : i.cause with
  | fact f => exact (h.restates hc).mem_packages hc hu
  | derived first second => exact i.terms.mem_keys_iff.mpr ⟨u, hu⟩

theorem Session.Grounded.linked (h : x.Grounded root version) (hi : x.state.store.get? id = some i) :
    (Explanation.ofStore x.state.store id).Linked := by
  have hlt := h.causes_lt
  have hid := Store.lt_size hi
  refine ⟨fun k node hn cause hcause => ?_, fun k f hn => ?_, fun k terms shared first second hn => ?_⟩
  · cases node with
    | fact f => cases hcause
    | derived terms shared first second =>
      obtain ⟨-, -, -, -, ⟨-, -, hfirst⟩, -, -, hsecond⟩ := Explanation.exists_cause_derived hlt hid hn
      rcases List.mem_pair.mp hcause with rfl | rfl
      · exact hfirst
      · exact hsecond
  · obtain ⟨n, j, hj, hc⟩ := Explanation.exists_cause_fact hlt hid hn
    exact ((h.wellFormed n j hj).restates hc).isProper_fact hc
  · obtain ⟨n, a, b, hj, ⟨ha, rfl, -⟩, hb, rfl, -⟩ := Explanation.exists_cause_derived hlt hid hn
    obtain ⟨k, l, p, hk, hl, -, -, hr⟩ := (h.traced n _ a b hj rfl).resolves
    obtain ⟨v, w, hv, hw, -, hget⟩ := get?_resolvent hr
    have hka := (Explanation.getElem?_idxOf hlt hid ha).trans (congrArg _ hk)
    have hlb := (Explanation.getElem?_idxOf hlt hid hb).trans (congrArg _ hl)
    have hmemk := fun q u => (h.wellFormed a k hk).mem_packages x.state.store (x.state.store.support id) a
      (p := q) (u := u)
    have hmeml := fun q u => (h.wellFormed b l hl).mem_packages x.state.store (x.state.store.support id) b
      (p := q) (u := u)
    refine ⟨_, _, hka, hlb, ⟨p, hmemk p v hv, hmeml p w hw⟩, fun q hq => ?_⟩
    obtain ⟨u, hu⟩ := terms.mem_keys_iff.mp hq
    have hq' := (hget q).symm.trans hu
    split_ifs at hq' with hqp
    · exact Or.inl (hqp ▸ hmemk p v hv)
    · cases hkq : k.get? q with
      | some v => exact Or.inl (hmemk q v hkq)
      | none =>
        rw [hkq, Option.merge_none_left] at hq'
        exact Or.inr (hmeml q u hq')

end linked

/-! ## Simplified facts -/

section simplify

variable {P V M : Type} [LinearOrder V] {selection : P → Option V} {known : P → List V}
  {e : Explanation P V (Ranges V) M} {place : Nat}

theorem Fact.trueIn_simplify_iff (hknown : ∀ p, (known p).Pairwise (· < ·))
    (hs : ∀ p v, selection p = some v → v ∈ known p) (f : Fact P V (Ranges V) M) :
    (f.simplify known).TrueIn selection ↔ f.TrueIn selection := by
  have hagree : ∀ {p v}, selection p = some v → ∀ r : Ranges V,
      VersionSet.contains (VersionSet.simplify r (known p)) v = VersionSet.contains r v :=
    fun {p v} hv r => Ranges.contains_simplify r (hknown p) (hs p v hv)
  cases f with
  | root p v => exact Iff.rfl
  | noVersions p versions => exact forall₂_congr fun v hv => by rw [hagree hv]
  | unusable p versions reason => exact forall₂_congr fun v hv => by rw [hagree hv]
  | dependency p versions needed allowed =>
    refine forall₂_congr fun v hv => ?_
    rw [hagree hv]
    refine imp_congr_right fun _ => exists_congr fun w => and_congr_right fun hw => ?_
    rw [hagree hw]

/-- Where simplifying makes no fact true, an explanation refutes a selection also when it is
simplified. -/
theorem Explanation.Refutes.simplify (h : e.Refutes selection place)
    (hfacts : ∀ (k : Nat) (f : Fact P V (Ranges V) M), e.nodes[k]? = some (.fact f) →
      ¬ f.TrueIn selection → ¬ (f.simplify known).TrueIn selection) :
    (e.simplify known).Refutes selection place := by
  induction h with
  | @fact place f hn hf =>
    refine .fact ?_ (hfacts place f hn hf)
    rw [Explanation.simplify, Array.getElem?_map, hn]
    rfl
  | cause hc _ ih => exact .cause (by rwa [causesAt_simplify]) ih

end simplify

/-! ## What facts say of the table -/

namespace PackageTable

section confirms

variable {P V S : Type} [DecidableEq P] [DecidableEq V] [VersionSet S V] {t : PackageTable P V S} {root : P}
  {version : V}

/-- The fact is so by the table: the root is the one that was asked for, missing versions are not in the
table, and what depends on something or is unusable is. -/
def Confirms (t : PackageTable P V S) (root : P) (version : V) : Fact P V S String → Prop
  | .root p v => p = root ∧ v = version
  | .noVersions p versions => ∀ v ∈ t.listed p, VersionSet.contains versions v = false
  | .dependency p versions _ _ => ∀ v, VersionSet.contains versions v = true → v ∈ t.listed p
  | .unusable p versions _ => ∀ v, VersionSet.contains versions v = true → v ∈ t.listed p

def selectOnly (root : P) (version : V) (p : P) : Option V := if p = root then some version else none

omit [DecidableEq V] in
theorem selectOnly_eq_some_iff {p : P} {v : V} :
    selectOnly root version p = some v ↔ p = root ∧ v = version := by
  unfold selectOnly
  split_ifs with hp
  · simp [hp, eq_comm]
  · simp [hp]

/-- If the version of the root is not in the table, the only facts that are not true of the root alone are
that there is no such version. -/
theorem Confirms.exists_noVersions {f : Fact P V S String} (h : t.Confirms root version f)
    (hversion : version ∉ t.listed root) (hfalse : ¬ f.TrueIn (selectOnly root version)) :
    ∃ versions, f = .noVersions root versions ∧ VersionSet.contains versions version = true := by
  have hunlisted : ∀ {p v}, selectOnly root version p = some v → v ∉ t.listed p := by
    intro p v hv
    obtain ⟨rfl, rfl⟩ := selectOnly_eq_some_iff.mp hv
    exact hversion
  cases f with
  | root p v =>
    obtain ⟨rfl, rfl⟩ := h
    exact absurd (if_pos rfl) hfalse
  | dependency p versions needed allowed =>
    exact absurd (fun v hv hin => absurd (h v hin) (hunlisted hv)) hfalse
  | unusable p versions reason =>
    refine absurd (fun v hv => ?_) hfalse
    rw [← Bool.not_eq_true]
    exact fun hin => hunlisted hv (h v hin)
  | noVersions p versions =>
    obtain ⟨v, hv, hin⟩ : ∃ v, selectOnly root version p = some v ∧
        VersionSet.contains versions v = true := by
      simpa [Fact.TrueIn] using hfalse
    obtain ⟨rfl, rfl⟩ := selectOnly_eq_some_iff.mp hv
    exact ⟨versions, rfl, hin⟩

variable [LawfulVersionSet S V]

theorem confirms_of_reports [LT V] [DecidableLT V] {x : Session Unit P V S String Int Empty}
    {f : Fact P V S String} (h : x.Reports root version f) (hx : ∀ e ∈ x.answers, e.AnsweredBy t.provider) :
    t.Confirms root version f := by
  have hanswered : ∀ e : Event P V S String Int Empty, e.isAnswer = true → e ∈ x.events →
      e.AnsweredBy t.provider := fun e he hmem => hx e ((Session.mem_answers_iff he).mpr hmem)
  have hlisted : ∀ {p v answer}, .retrieved p v answer ∈ x.events → v ∈ t.listed p := by
    intro p v answer hmem
    obtain ⟨⟨versions, _, hchosen⟩, -⟩ := hanswered _ rfl hmem
    exact (contains_of_highest (Except.ok.inj hchosen)).2
  cases f with
  | root p v => exact h
  | noVersions p versions =>
    obtain ⟨_, hnone⟩ := hanswered _ rfl h
    exact highest_eq_none_iff.mp (Except.ok.inj hnone)
  | unusable p versions reason =>
    obtain ⟨v, rfl, hmem⟩ := h
    intro w hw
    exact (LawfulVersionSet.contains_singleton v w).mp hw ▸ hlisted hmem
  | dependency p versions needed allowed =>
    intro v hv
    obtain ⟨_, hmem, -⟩ := UnionOf.of_contains h hv
    exact hlisted hmem

variable [DecidableEq S]

theorem resolveWithin_confirms [LT V] [DecidableLT V] (h : t.Proper) (steps : Nat) (root : P) (version : V)
    {id : Nat} {i : Incompatibility P V S String} {f : Fact P V S String}
    (hi : (resolveWithin steps t.provider () root version).2.state.store.get? id = some i)
    (hf : i.cause = .fact f) : t.Confirms root version f := by
  have hproper := provider_answersProper h
  refine resolveWithin_moment (Q := fun x => ∀ id i f, x.state.store.get? id = some i → i.cause = .fact f →
    t.Confirms root version f) hproper (fun x φ hx id i f hi hf => ?_)
    (fun x y hxy hQ => by rwa [hxy.state]) steps id i f hi hf
  exact confirms_of_reports ((hx.faithful hproper).reported id i f hi hf) (hx.answered hproper)

/-- If the version of the root is not in the table, what shows that there is no solution is the fact that
there is no such version. -/
theorem exists_cause_noVersions {x : Session Unit P V S String Int Empty} (hx : x.Grounded root version)
    (hfacts : ∀ id i f, x.state.store.get? id = some i → i.cause = .fact f → t.Confirms root version f)
    (hversion : version ∉ t.listed root) {id : Nat} {i : Incompatibility P V S String}
    (hi : x.state.store.get? id = some i) (hterm : i.isTerminal root version = true) :
    ∃ versions, i.cause = .fact (.noVersions root versions) ∧
      VersionSet.contains versions version = true := by
  have hholds : i.HoldsIn (World.ofSelection (selectOnly root version)) :=
    holdsIn_of_isTerminal hterm (by rw [World.ofSelection, selectOnly, if_pos rfl]; rfl)
  obtain ⟨leaf, j, f, hrests, hj, hf, hjholds⟩ := (hx.proves hi).facts _ hholds
  have hrestates := (hx.wellFormed leaf j hj).restates hf
  have hfalse := (hrestates.holdsIn_iff hf _).mp hjholds
  obtain ⟨versions, rfl, hin⟩ := (hfacts leaf j f hj hf).exists_noVersions hversion hfalse
  -- this fact would have ended the run, so nothing was derived from it
  obtain rfl := hx.traced.eq_of_isTerminal hrests hj (hrestates.isTerminal_of_noVersions hf hin)
  rw [hi, Option.some.injEq] at hj
  exact ⟨versions, hj ▸ hf, hin⟩

end confirms

/-! ## Runs -/

section runs

variable {P V : Type} [DecidableEq P] [LinearOrder V] {t : PackageTable P V (Ranges V)}

theorem pairwise_versions (t : PackageTable P V (Ranges V)) (p : P) :
    (t.versions p).Pairwise (· < ·) := by
  have hsorted : (t.versions p).Pairwise fun v w => (!decide (w < v)) = true :=
    List.pairwise_mergeSort (fun a b c hab hbc => by
      simp only [Bool.not_eq_true', decide_eq_false_iff_not, not_lt] at hab hbc ⊢
      exact hab.trans hbc)
      (fun a b => by simpa using le_total a b) (t.listed p)
  have hnodup : (t.versions p).Nodup :=
    (List.mergeSort_perm _ _).nodup_iff.mpr ((t.entries.get? p).getD .empty).nodup
  refine (hsorted.and hnodup).imp ?_
  rintro v w ⟨hle, hne⟩
  exact lt_of_le_of_ne (by simpa using hle) hne

/-- If the version of the root is in the table, the versions that are missing are not selected, and all
that are selected are known. -/
theorem refutes_shortened_of_listed {x : Session Unit P V (Ranges V) String Int Empty} {root : P}
    {version : V} {selection : P → Option V} (hx : x.Grounded root version)
    (hfacts : ∀ id i f, x.state.store.get? id = some i → i.cause = .fact f → t.Confirms root version f)
    (hselection : ∀ p v, selection p = some v → v ∈ t.listed p) {id : Nat}
    {i : Incompatibility P V (Ranges V) String} (hi : x.state.store.get? id = some i)
    (hholds : i.HoldsIn (World.ofSelection selection)) :
    ((Explanation.ofStore x.state.store id).collapse.simplify t.versions).Refutes selection
      (Explanation.ofStore x.state.store id).collapse.root := by
  have hlt := hx.causes_lt
  have hcollapse : (Explanation.ofStore x.state.store id).collapse.Refutes selection
      (Explanation.ofStore x.state.store id).collapse.root := by
    refine (hx.linked hi).refutes_collapse (fun k p versions hn v hv => ?_) (hx.refutes hi hholds)
    obtain ⟨n, j, hj, hc⟩ := Explanation.exists_cause_fact hlt (Store.lt_size hi) hn
    exact hfacts n j _ hj hc v (hselection p v hv)
  refine hcollapse.simplify fun k f hn hf => ?_
  rwa [Fact.trueIn_simplify_iff t.pairwise_versions]
  exact fun p v hv => mem_versions_iff.mpr (hselection p v hv)

/-- If the version of the root is not in the table, the explanation is the fact that there is no such
version, and it stays as it is. -/
theorem refutes_shortened_of_not_listed {x : Session Unit P V (Ranges V) String Int Empty} {root : P}
    {version : V} {selection : P → Option V} (hx : x.Grounded root version)
    (hfacts : ∀ id i f, x.state.store.get? id = some i → i.cause = .fact f → t.Confirms root version f)
    (hroot : selection root = some version) (hversion : version ∉ t.listed root) {id : Nat}
    {i : Incompatibility P V (Ranges V) String} (hi : x.state.store.get? id = some i)
    (hterm : i.isTerminal root version = true) :
    ((Explanation.ofStore x.state.store id).collapse.simplify t.versions).Refutes selection
      (Explanation.ofStore x.state.store id).collapse.root := by
  have hlt := hx.causes_lt
  have hid := Store.lt_size hi
  obtain ⟨versions, hc, hin⟩ := exists_cause_noVersions hx hfacts hversion hi hterm
  have hn : (Explanation.ofStore x.state.store id).nodes[(Explanation.ofStore x.state.store id).root]? =
      some (.fact (.noVersions root versions)) := by
    change _[(x.state.store.support id).idxOf id]? = _
    rw [Explanation.getElem?_idxOf hlt hid (Store.mem_support_of_restsOn hlt hid .refl), hi, Option.map_some,
      Store.toNode, hc]
  refine .fact (f := .noVersions root versions) ?_ fun htrue => ?_
  · rw [Explanation.simplify, Array.getElem?_map, (hx.linked hi).getElem?_collapse hn, Option.map_some]
    have hmissing := hfacts id i _ hi hc
    have hsame : VersionSet.simplify versions (t.versions root) = versions :=
      Ranges.simplify_of_disjoint fun v hv => hmissing v (mem_versions_iff.mp hv)
    simp only [Fact.simplify, hsame]
  · rw [htrue version hroot] at hin
    cases hin

/-- When the table has no solution for the root at its version, the explanation that is shown proves it:
no selection of the root at its version and else only of versions that are in the table makes all its facts
true. -/
theorem resolveWithin_shortened_refutes (h : t.Proper) {steps : Nat} {root : P} {version : V} {id : Nat}
    (hid : (resolveWithin steps t.provider () root version).1 = .error (.noSolution id))
    {selection : P → Option V} (hroot : selection root = some version)
    (hselection : ∀ p v, p ≠ root → selection p = some v → v ∈ t.listed p) :
    ¬ ∀ f ∈ ((Explanation.ofStore (resolveWithin steps t.provider () root version).2.state.store
      id).collapse.simplify t.versions).facts, f.TrueIn selection := by
  have hproper := provider_answersProper h
  have hgrounded := resolveWithin_grounded hproper steps () root version
  have hfacts : ∀ id i f,
      (resolveWithin steps t.provider () root version).2.state.store.get? id = some i →
      i.cause = .fact f → t.Confirms root version f :=
    fun _ _ _ => resolveWithin_confirms h steps root version
  obtain ⟨i, hi, hterm⟩ := resolveWithin_noSolution hproper hid
  rw [hgrounded.root_eq, hgrounded.version_eq] at hterm
  have hrefutes : ((Explanation.ofStore (resolveWithin steps t.provider () root version).2.state.store
      id).collapse.simplify t.versions).Refutes selection
      (Explanation.ofStore (resolveWithin steps t.provider () root version).2.state.store id).collapse.root := by
    by_cases hversion : version ∈ t.listed root
    · refine refutes_shortened_of_listed hgrounded hfacts (fun p v hv => ?_) hi
        (holdsIn_of_isTerminal hterm (by rw [World.ofSelection, hroot]; rfl))
      by_cases hp : p = root
      · subst hp
        rw [hroot, Option.some.injEq] at hv
        exact hv ▸ hversion
      · exact hselection p v hp hv
    · exact refutes_shortened_of_not_listed hgrounded hfacts hroot hversion hi hterm
  obtain ⟨f, hf, hfalse⟩ := hrefutes.exists_mem_facts
  exact fun hall => hfalse (hall f hf)

/-- The versions of package 1 both depend on a version of package 2 that is missing. Selecting the highest
versions that there are makes a fact of the explanation untrue that took the missing versions in. -/
theorem resolveWithin_threePackages_shortened :
    (resolveWithin 90 (threePackages (.single 2 (.atLeast 2))).provider () 0 1).1 = .error (.noSolution 10) ∧
      ¬ ∀ f ∈ ((Explanation.ofStore (resolveWithin 90 (threePackages (.single 2 (.atLeast 2))).provider () 0
        1).2.state.store 10).collapse.simplify (threePackages (.single 2 (.atLeast 2))).versions).facts,
          f.TrueIn fun p => [1, 2, 1][p]? := by
  have hrun : (resolveWithin 90 (threePackages (.single 2 (.atLeast 2))).provider () 0 1).1 =
      .error (.noSolution 10) := by
    rw [(threePackages_ascending _).provider_eq]
    decide +kernel
  refine ⟨hrun, resolveWithin_shortened_refutes (threePackages_proper (proper_single_atLeast 2 2)) hrun rfl ?_⟩
  intro p v hp hv
  match p with
  | 0 => exact absurd rfl hp
  | 1 | 2 =>
    cases hv
    decide
  | p + 3 => simp at hv

end runs

end PackageTable

end DependencyResolution
