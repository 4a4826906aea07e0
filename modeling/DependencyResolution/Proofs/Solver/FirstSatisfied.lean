import DependencyResolution.Proofs.Solver.Justification
import Mathlib.Tactic.FinCases

/-!
# The satisfier ends the shortest prefix

The search for the satisfier never replays the assignments. What it finds is what a replay would: the
assignment at which the live assignments, taken in order, first satisfy the incompatibility
(`History.satisfier_ends_shortest`). For one package the binary search over the accumulated terms agrees
with a linear scan whatever the term (`Trail.satisfier_eq`).

Two assignments never share their number, so the latest of the packages' satisfiers is unique, and it is
the package's own first assignment to satisfy the package's term. Nothing is assumed of the terms but that
they speak of proper sets: they may admit everything or nothing, and so may what is known.
-/

namespace DependencyResolution

open Incompatibility

variable {P V S M : Type}

/-- The first derivation that leaves nothing of a term, found by trying one after the other, or else the
decision. -/
def PackageAssignments.firstExcluding [DecidableEq S] [VersionSet S V] (a : PackageAssignments P V S)
    (u : Term S) : Option (Assignment P V S) :=
  ((a.derivations.toList.find? fun d => d.accumulated.isDisjoint u).map .derivation).or
    (a.decision.map .decision)

section scan

variable [DecidableEq S] [VersionSet S V]

theorem PackageAssignments.isDecision_firstExcluding_iff {a : PackageAssignments P V S} {u : Term S}
    {b : Assignment P V S} (h : a.firstExcluding u = some b) :
    b.isDecision = true ↔ ∀ d ∈ a.derivations.toList, d.accumulated.isDisjoint u = false := by
  unfold firstExcluding at h
  cases hfind : a.derivations.toList.find? fun d => d.accumulated.isDisjoint u with
  | some d =>
    rw [hfind] at h
    obtain rfl := Option.some.inj h
    simp only [Assignment.isDecision, Bool.false_eq_true, false_iff, not_forall]
    exact ⟨d, List.mem_of_find?_eq_some hfind, by simpa using List.find?_some hfind⟩
  | none =>
    rw [hfind] at h
    obtain ⟨e, -, rfl⟩ : ∃ e, a.decision = some e ∧ Assignment.decision e = b := by simpa using h
    simpa [Assignment.isDecision] using hfind

end scan

/-! ## Prefixes -/

variable [DecidableEq P] [VersionSet S V]

theorem knownFrom_eq_none_iff {l : List (Assignment P V S)} {p : P} :
    knownFrom l p = none ↔ ∀ a ∈ l, a.package ≠ p := by
  unfold knownFrom
  split
  · next hl => simpa [List.filter_eq_nil_iff] using hl
  · next a rest hl =>
    have ha : a ∈ l.filter fun b => b.package = p := hl ▸ List.mem_cons_self
    rw [List.mem_filter, decide_eq_true_eq] at ha
    simp only [reduceCtorEq, false_iff, not_forall]
    exact ⟨a, ha.1, not_not_intro ha.2⟩

variable [DecidableEq S] [LawfulVersionSet S V]

/-- A term is satisfied by some assignments when one of them is of the package, and together they allow
nothing else. -/
theorem relationIn_knownFrom_iff {l : List (Assignment P V S)} (hl : ProperTrail l) {p : P} {u : Term S}
    (hu : u.IsProper) :
    relationIn (knownFrom l) (p, u) = .satisfied ↔
      (∃ a ∈ l, a.package = p) ∧ Entails (Allows l) p u := by
  unfold relationIn
  dsimp only
  cases hk : knownFrom l p with
  | none =>
    rw [knownFrom_eq_none_iff] at hk
    simp only [Option.elim_none, reduceCtorEq, false_iff, not_and]
    rintro ⟨a, ha, hap⟩
    exact absurd hap (hk a ha)
  | some k =>
    obtain ⟨hproper, hholds⟩ := knownFrom_eq_some hl hk
    have hsome : ∃ a ∈ l, a.package = p := by
      by_contra hc
      push Not at hc
      rw [knownFrom_eq_none_iff.mpr hc] at hk
      cases hk
    rw [Option.elim_some, Term.relationWith_eq_satisfied hu hproper, and_iff_right hsome]
    exact forall_congr' fun x => by rw [hholds]

theorem standing_knownFrom_mono {l l' : List (Assignment P V S)} (hl' : ProperTrail l')
    (hsub : ∀ a ∈ l, a ∈ l') {i : Incompatibility P V S M} (hi : i.IsProper)
    (h : i.standing (knownFrom l) = .satisfied) : i.standing (knownFrom l') = .satisfied := by
  rw [standing_eq_satisfied_iff_relationIn] at h ⊢
  intro q u hu
  have hrel := h q u hu
  rw [relationIn_knownFrom_iff (fun a ha => hl' a (hsub a ha)) (hi q u hu)] at hrel
  obtain ⟨⟨a, ha, hap⟩, hent⟩ := hrel
  rw [relationIn_knownFrom_iff hl' (hi q u hu)]
  exact ⟨⟨a, hsub a ha, hap⟩, hent.mono fun x hx => hx.mono hsub⟩

namespace PartialSolution

variable {s : PartialSolution P V S} {t : List (Assignment P V S)} {p : P}

namespace Trail

omit [DecidableEq S] in
theorem term?_eq_knownFrom (h : Trail s t) (hp : ProperTrail t) : s.term? = knownFrom t := by
  funext p
  cases hterm : s.term? p with
  | none => exact (knownFrom_eq_none_iff.mpr (h.term?_eq_none_iff.mp hterm)).symm
  | some u =>
    cases hk : knownFrom t p with
    | none =>
      rw [knownFrom_eq_none_iff, ← h.term?_eq_none_iff, hterm] at hk
      cases hk
    | some k =>
      obtain ⟨hu, huholds⟩ := h.holds_term?_iff hp hterm
      obtain ⟨hk, hkholds⟩ := knownFrom_eq_some hp hk
      rw [Term.eq_of_holds hu hk fun x => (huholds x).trans (hkholds x).symm]

/-! ## One package -/

/-- The binary search finds what a linear scan does. -/
theorem satisfier_eq (h : Trail s t) (hp : ProperTrail t) {a : PackageAssignments P V S}
    (ha : s.packages.get? p = some a) {u : Term S} (hu : u.IsProper) :
    a.satisfier u = (a.firstExcluding u).elim (.error (.noSatisfier u)) fun b => .ok b.satisfier := by
  generalize hr : PackageAssignments.firstDisjoint a.derivations u 0 a.derivations.size le_rfl = r
  obtain ⟨hbelow, habove⟩ := h.firstDisjoint_separates hp ha hu hr
  have hfind : (a.derivations.toList.find? fun d => d.accumulated.isDisjoint u) =
      a.derivations.toList[r]? := by
    cases hd : a.derivations.toList[r]? with
    | some d =>
      obtain ⟨hlt, hget⟩ := List.getElem?_eq_some_iff.mp hd
      rw [List.find?_eq_some_iff_getElem]
      refine ⟨habove r d le_rfl hd, r, hlt, hget, fun j hj => ?_⟩
      rw [hbelow j _ hj (List.getElem?_eq_getElem (hj.trans hlt))]
      rfl
    | none =>
      rw [List.getElem?_eq_none_iff] at hd
      rw [List.find?_eq_none]
      intro d hmem
      obtain ⟨i, hi⟩ := List.getElem?_of_mem hmem
      rw [hbelow i d ((List.getElem?_eq_some_iff.mp hi).1.trans_le hd) hi]
      exact Bool.false_ne_true
  unfold PackageAssignments.satisfier PackageAssignments.firstExcluding
  rw [hr, hfind, Array.getElem?_toList]
  cases a.derivations[r]? with
  | some d => rfl
  | none => cases a.decision <;> rfl

/-! ## All packages -/

omit [DecidableEq S] [LawfulVersionSet S V] in
theorem exists_eq_append (h : Trail s t) {b : Assignment P V S} (hb : b ∈ t) :
    ∃ post, t = before b.index t ++ b :: post ∧ before (b.index + 1) t = before b.index t ++ [b] := by
  obtain ⟨pre, post, rfl⟩ := List.append_of_mem hb
  have hordered := h.ordered
  rw [List.pairwise_append, List.pairwise_cons] at hordered
  obtain ⟨-, ⟨hpost, -⟩, hpre⟩ := hordered
  have hbelow : ∀ n, b.index ≤ n → before n pre = pre := by
    intro n hn
    refine List.filter_eq_self.mpr fun a ha => ?_
    have hlt := (hpre a ha b List.mem_cons_self).1
    simp only [decide_eq_true_eq]
    omega
  have habove : ∀ n, n ≤ b.index + 1 → before n post = [] := by
    intro n hn
    refine List.filter_eq_nil_iff.mpr fun a ha => ?_
    have hlt := (hpost a ha).1
    simp only [decide_eq_true_eq]
    omega
  have hhere : ∀ n, before n (pre ++ b :: post) = before n pre ++ before n [b] ++ before n post := by
    intro n
    rw [← List.filter_append, ← List.filter_append, List.append_assoc]
    rfl
  have hown : before b.index [b] = [] := by simp
  have hnext : before (b.index + 1) [b] = [b] := by simp
  refine ⟨post, ?_, ?_⟩
  · rw [hhere, hbelow _ le_rfl, habove _ (by omega), hown, List.append_nil, List.append_nil]
  · rw [hhere, hhere, hbelow _ le_rfl, hbelow _ (by omega), habove _ le_rfl, habove _ (by omega), hown,
      hnext, List.append_nil, List.append_nil, List.append_nil]

theorem exists_findsSatisfiers_of_standing (h : Trail s t) (hp : ProperTrail t) {i : Incompatibility P V S M}
    (hi : i.IsProper) (hsat : i.standing (knownFrom t) = .satisfied) :
    ∃ found, s.satisfiers i.terms.entries = .ok found ∧ FindsSatisfiers t i found := by
  have hterm : ∀ q u, i.get? q = some u → (∃ a ∈ t, a.package = q) ∧ Entails (Allows t) q u :=
    fun q u hu => (relationIn_knownFrom_iff hp (hi q u hu)).mp
      ((standing_eq_satisfied_iff_relationIn i _).mp hsat q u hu)
  refine h.exists_findsSatisfiers hp hi (fun q u hu hnone => ?_) fun q u hu => (hterm q u hu).2
  obtain ⟨a, ha, hap⟩ := (hterm q u hu).1
  exact h.absent_iff.mp hnone a ha hap

/-- The latest satisfier is the assignment from which on the incompatibility is satisfied. -/
theorem exists_latest_satisfier (h : Trail s t) (hp : ProperTrail t) {i : Incompatibility P V S M}
    (hi : i.IsProper) (hne : i.terms.entries ≠ []) (hsat : i.standing (knownFrom t) = .satisfied) :
    ∃ found b, s.satisfiers i.terms.entries = .ok found ∧
      latest found = some (b.package, b.satisfier) ∧ b ∈ t ∧
      i.standing (knownFrom (before (b.index + 1) t)) = .satisfied ∧
      i.standing (knownFrom (before b.index t)) ≠ .satisfied := by
  have hbefore : ∀ n, ProperTrail (before n t) := fun n a ha => hp a (mem_before_iff.mp ha).1
  obtain ⟨found, hok, hfound⟩ := h.exists_findsSatisfiers_of_standing hp hi hsat
  obtain ⟨e, he⟩ := exists_latest hfound hne
  obtain ⟨hmem, hlast⟩ := latest_spec he
  obtain ⟨p, u, b, hu, hb, rfl⟩ := hfound.back e hmem
  obtain rfl := hb.package
  refine ⟨found, b, hok, he, hb.mem, ?_, ?_⟩
  · rw [standing_eq_satisfied_iff_relationIn]
    intro q w hw
    -- the package's own satisfier comes no later than the latest
    obtain ⟨c, hc, hcmem⟩ := hfound.forth q w hw
    have hle := hlast _ hcmem
    simp only [Assignment.index_satisfier] at hle
    rw [relationIn_knownFrom_iff (hbefore _) (hi q w hw)]
    refine ⟨⟨c, mem_before_iff.mpr ⟨hc.mem, by omega⟩, hc.package⟩, ?_⟩
    refine (excludes_negate_iff.mp hc.excludes).mono fun x hx => hx.mono fun a ha => ?_
    rw [mem_before_iff] at ha ⊢
    exact ⟨ha.1, by omega⟩
  · rw [Ne, standing_eq_satisfied_iff_relationIn]
    intro hall
    obtain ⟨⟨a, ha, hap⟩, hent⟩ :=
      (relationIn_knownFrom_iff (hbefore _) (hi _ u hu)).mp (hall _ u hu)
    rw [mem_before_iff] at ha
    rcases hb.first with hfirst | hnot
    · exact absurd (hfirst a ha.1 hap) (by omega)
    · exact hnot (excludes_negate_iff.mpr hent)

end Trail

omit [LawfulVersionSet S V] in
theorem satisfierSearch_eq_ok {store : Store P V S M} {i : Incompatibility P V S M}
    {found : List (P × Satisfier)} {e : P × Satisfier} (hok : s.satisfiers i.terms.entries = .ok found)
    (he : latest found = some e) {q : P} {search : SatisfierSearch}
    (h : s.satisfierSearch store i = .ok (q, search)) :
    q = e.1 ∧ ∀ c, search = .sameLevel c → e.2.cause = some c := by
  simp only [satisfierSearch, hok, bind_eq_ok_iff, Except.ok.injEq, exists_eq_left', he] at h
  obtain ⟨previous, -, h⟩ := h
  split_ifs at h
  · cases h
    exact ⟨rfl, by simp⟩
  · cases hcause : e.2.cause with
    | none => simp [hcause] at h
    | some c =>
      simp only [hcause] at h
      cases h
      exact ⟨rfl, by simp⟩

variable {past : List (PartialSolution P V S)}

/-- The latest of the satisfiers is the live assignment that ends the shortest prefix of the assignments to
satisfy the incompatibility, and the search returns its package and its cause. For each package the binary
search finds what a linear scan does, which is the decision iff no derivation leaves nothing of the negated
term. -/
theorem History.satisfier_ends_shortest (h : History (s :: past)) (hp : ProperTrail s.assignments)
    {i : Incompatibility P V S M} (hi : i.IsProper) (hne : i.terms.entries ≠ [])
    (hsat : s.standing i = .satisfied) :
    ∃ found b pre post, s.satisfiers i.terms.entries = .ok found ∧
      latest found = some (b.package, b.satisfier) ∧
      s.assignments = pre ++ b :: post ∧
      i.standing (knownFrom (pre ++ [b])) = .satisfied ∧
      (∀ shorter, shorter <+: pre → i.standing (knownFrom shorter) ≠ .satisfied) ∧
      (∀ (store : Store P V S M) q search, s.satisfierSearch store i = .ok (q, search) →
        q = b.package ∧ ∀ c, search = .sameLevel c → b.satisfier.cause = some c) ∧
      ∀ q u, i.get? q = some u → ∃ a c, s.packages.get? q = some a ∧
        a.firstExcluding u.negate = some c ∧ a.satisfier u.negate = .ok c.satisfier ∧
        (c.isDecision = true ↔
          ∀ d ∈ a.derivations.toList, d.accumulated.isDisjoint u.negate = false) := by
  obtain ⟨t, hrecalls⟩ := h.exists_recalls
  have htrail := hrecalls.trail
  rw [htrail.assignments_eq] at hp ⊢
  rw [standing, htrail.term?_eq_knownFrom hp] at hsat
  obtain ⟨found, b, hok, hlatest, hb, hafter, hbefore⟩ :=
    htrail.exists_latest_satisfier hp hi hne hsat
  obtain ⟨post, hsplit, hnext⟩ := htrail.exists_eq_append hb
  rw [hnext] at hafter
  refine ⟨found, b, before b.index t, post, hok, hlatest, hsplit, hafter, ?_, ?_, ?_⟩
  · intro shorter hshorter hshort
    have hproper : ProperTrail (before b.index t) := fun a ha => hp a (mem_before_iff.mp ha).1
    exact hbefore (standing_knownFrom_mono hproper (fun a ha => hshorter.subset ha) hi hshort)
  · intro store q search hsearch
    exact satisfierSearch_eq_ok hok hlatest hsearch
  · intro q u hu
    have hrel := (standing_eq_satisfied_iff_relationIn i _).mp hsat q u hu
    obtain ⟨⟨a', ha', hap⟩, hent⟩ := (relationIn_knownFrom_iff hp (hi q u hu)).mp hrel
    obtain ⟨a, ha⟩ := Option.ne_none_iff_exists'.mp fun hnone => htrail.absent_iff.mp hnone a' ha' hap
    have hscan := htrail.satisfier_eq hp ha (hi q u hu).negate
    obtain ⟨_, -, hfound⟩ := htrail.exists_firstExcluding hp ha (hi q u hu).negate
      (excludes_negate_iff.mpr hent)
    cases hfirst : a.firstExcluding u.negate with
    | none =>
      rw [hscan, hfirst] at hfound
      cases hfound
    | some c =>
      rw [hfirst] at hscan
      exact ⟨a, c, ha, hfirst, hscan, PackageAssignments.isDecision_firstExcluding_iff hfirst⟩

/-! ## An example -/

/-- A call, to be made of whatever partial solution there is. -/
inductive Call (P V S : Type) where
  | derive (package : P) (term : Term S) (cause : Nat)
  | decide (package : P) (version : V)
  | backtrack (target : Int)

omit [LawfulVersionSet S V] [DecidableEq S] in
variable (s) in
def Call.run : Call P V S → Except (Violation P V S) (PartialSolution P V S)
  | derive p u c => s.derive p u c
  | decide p v => s.decide p v
  | backtrack target => s.backtrack target

omit [LawfulVersionSet S V] in
theorem History.calls (h : History (s :: past)) {calls : List (Call P V S)} {s' : PartialSolution P V S}
    (hs : calls.foldlM Call.run s = .ok s') : ∃ past', History (s' :: past') := by
  refine foldlM_keeps (fun _ s => ∃ past, History (s :: past)) ?_ [] calls ⟨past, h⟩ hs
  rintro _ s call next ⟨past, hpast⟩ hcall
  refine ⟨s :: past, hpast.step ?_⟩
  cases call with
  | derive => exact .derive hcall
  | decide => exact .decide hcall
  | backtrack => exact .backtrack hcall

/-- Package 0 is decided and 1 and 2 required; the decision is undone and made otherwise, and 2 and then 1 are
required anew and narrowed. -/
def secondAttempt : List (Call Nat Nat (Ranges Nat)) :=
  [.derive 0 (.positive .full) 0, .decide 0 2, .derive 1 (.positive .full) 1, .derive 2 (.positive .full) 2,
    .backtrack 0, .decide 0 1, .derive 2 (.positive (.atLeast 1)) 3, .derive 1 (.positive .full) 4,
    .derive 1 (.positive (.below 3)) 5, .derive 2 (.positive (.below 4)) 6]

def requiredAnew : PartialSolution Nat Nat (Ranges Nat) :=
  (secondAttempt.foldlM Call.run .empty).toOption.getD .empty

/-- 0 is not at 1 with 1 below 3 and any version of 2. -/
def anewExcluded : Incompatibility Nat Nat (Ranges Nat) String :=
  ⟨((OrderedMap.single 0 (.exact 1)).insert 1 (.positive (.below 3))).insert 2 (.positive .full), .derived 0 0⟩

/-- The three terms came to hold with the derivation 7 of package 1, after one that requires less of 1 and
before another of 2. -/
theorem History.satisfier_ends_shortest_requiredAnew :
    ∃ (b : Assignment Nat Nat (Ranges Nat)) (pre post : List (Assignment Nat Nat (Ranges Nat))),
      requiredAnew.standing anewExcluded = .satisfied ∧ (b.package, b.satisfier) = (1, ⟨some 5, 7, 1⟩) ∧
        requiredAnew.assignments = pre ++ b :: post ∧
        anewExcluded.standing (knownFrom (pre ++ [b])) = .satisfied ∧
        ∀ shorter, shorter <+: pre → anewExcluded.standing (knownFrom shorter) ≠ .satisfied := by
  have hcalls : secondAttempt.foldlM Call.run .empty = .ok requiredAnew := by decide +kernel
  have hterms : requiredAnew.packages.entries.flatMap (fun e => e.2.assignments.map Assignment.term) =
      [.positive .full, .exact 1, .positive (.atLeast 1), .positive (.below 4), .positive .full,
        .positive (.below 3)] := by
    decide +kernel
  have hproper : ProperTrail requiredAnew.assignments := by
    intro a ha
    obtain ⟨e, he, hae⟩ := List.mem_flatMap.mp (List.mem_mergeSort.mp ha)
    have hterm : a.term ∈ requiredAnew.packages.entries.flatMap
        fun e => e.2.assignments.map Assignment.term :=
      List.mem_flatMap.mpr ⟨e, he, List.mem_map_of_mem hae⟩
    rw [hterms] at hterm
    generalize a.term = u at hterm ⊢
    fin_cases hterm
    · exact Ranges.canonical_full
    · exact Term.isProper_exact 1
    · exact Ranges.canonical_atLeast 1
    · exact Ranges.canonical_below 4
    · exact Ranges.canonical_full
    · exact Ranges.canonical_below 3
  have hi : anewExcluded.IsProper := by
    intro q u hu
    have hmem := anewExcluded.terms.get?_eq_some_iff.mp hu
    fin_cases hmem
    · exact Term.isProper_exact 1
    · exact Ranges.canonical_below 3
    · exact Ranges.canonical_full
  have hfound : requiredAnew.satisfiers anewExcluded.terms.entries =
      .ok [(0, ⟨none, 4, 1⟩), (1, ⟨some 5, 7, 1⟩), (2, ⟨some 3, 5, 1⟩)] := by
    decide +kernel
  have hsat : requiredAnew.standing anewExcluded = .satisfied := by decide +kernel
  obtain ⟨past, hpast⟩ := History.start.calls hcalls
  obtain ⟨found, b, pre, post, hok, hlatest, hsplit, hafter, hshort, -⟩ :=
    hpast.satisfier_ends_shortest hproper hi (by decide) hsat
  rw [hfound] at hok
  cases hok
  exact ⟨b, pre, post, hsat, (Option.some.inj hlatest).symm, hsplit, hafter, hshort⟩

end PartialSolution

end DependencyResolution
