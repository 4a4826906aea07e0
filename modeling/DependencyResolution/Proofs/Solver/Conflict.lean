import DependencyResolution.Proofs.Solver.Satisfier

/-!
# Conflicts

A trail that satisfies an incompatibility has a first point from which on it does so, and the assignment
that is made there is the satisfier. If what else is needed was there at a lower level, the
incompatibility is almost satisfied once the solver is back at that level; otherwise the satisfier is a
derivation, and the resolvent with its cause is satisfied before it (`Trail.satisfierSearch_spec`,
`satisfiedBy_resolvent`). So a conflict is resolved in steps that go down the trail.

What this rests on is that a derivation is justified by its cause (`Incompatibility.Justifies`).
-/

namespace DependencyResolution

variable {P V S M : Type}

@[simp] theorem Term.negate_negate (u : Term S) : u.negate.negate = u := by
  cases u <;> rfl

section excludes

variable [VersionSet S V] [LawfulVersionSet S V] {A : Knowledge P S V} {p : P} {u w : Term S}

theorem excludes_negate_iff : Excludes A p u.negate ↔ Entails A p u := by
  refine forall_congr' fun x => ?_
  rw [Term.holds_negate, not_not]

theorem excludes_intersection_negate_iff (hw : w.IsProper) (hu : u.IsProper) :
    Excludes A p (w.intersection u.negate) ↔ ∀ x, A p x → w.Holds x → u.Holds x := by
  refine forall_congr' fun x => ?_
  rw [Term.holds_intersection hw hu.negate, Term.holds_negate, not_and, not_not]

end excludes

/-! ## Justification -/

section justification

variable [DecidableEq P] [VersionSet S V] [LawfulVersionSet S V]

/-- A derivation negates a term of its cause, all other terms of which hold before, and says something
new. -/
structure Incompatibility.Justifies (c : Incompatibility P V S M) (t : List (Assignment P V S))
    (d : Derivation P S) : Prop where
  term : c.get? d.package = some d.term.negate
  others : ∀ q w, c.get? q = some w → q ≠ d.package → Entails (Allows (before d.index t)) q w
  narrows : ¬ Entails (Allows (before d.index t)) d.package d.term

/-- The assignment is the satisfier: the last of those that make the terms hold. -/
structure Incompatibility.LastSatisfied (i : Incompatibility P V S M) (t : List (Assignment P V S))
    (p : P) (u : Term S) (b : Assignment P V S) : Prop where
  term : i.get? p = some u
  first : FirstExcluding t p u.negate b
  others : ∀ q w, i.get? q = some w → q ≠ p → Entails (Allows (before b.index t)) q w

end justification

namespace PartialSolution

variable [DecidableEq P] [DecidableEq S] [VersionSet S V] [LawfulVersionSet S V]
  {s : PartialSolution P V S} {t : List (Assignment P V S)} {i : Incompatibility P V S M}

/-! ## The satisfiers of all packages -/

omit [DecidableEq P] in
theorem latest_eq_none_iff {found : List (P × Satisfier)} : latest found = none ↔ found = [] := by
  cases found <;> simp [latest]

omit [DecidableEq P] in
theorem exists_latest_of_ne_nil {found : List (P × Satisfier)} (h : found ≠ []) :
    ∃ e, latest found = some e :=
  Option.ne_none_iff_exists'.mp (mt latest_eq_none_iff.mp h)

omit [DecidableEq P] in
theorem latest_spec {found : List (P × Satisfier)} {e : P × Satisfier} (h : latest found = some e) :
    e ∈ found ∧ ∀ f ∈ found, f.2.index ≤ e.2.index := by
  cases found with
  | nil => cases h
  | cons first rest =>
    simp only [latest, Option.some.injEq] at h
    induction rest generalizing first with
    | nil =>
      subst h
      simp
    | cons next rest ih =>
      rw [List.foldl_cons] at h
      obtain ⟨hmem, hle⟩ := ih _ h
      rw [List.forall_mem_cons] at hle ⊢
      rw [List.forall_mem_cons]
      split_ifs at hmem hle with hlt
      · exact ⟨List.mem_cons_of_mem _ hmem, by omega, hle⟩
      · refine ⟨?_, hle.1, by omega, hle.2⟩
        rcases List.mem_cons.mp hmem with rfl | hmem
        · exact List.mem_cons_self
        · exact List.mem_cons_of_mem _ (List.mem_cons_of_mem _ hmem)

namespace Trail

omit [DecidableEq S] in
theorem ne_none_of_entails (h : Trail s t) {p : P} {u : Term S} (hu : u.IsContingent)
    (hent : Entails (Allows t) p u) : s.packages.get? p ≠ none := by
  intro hnone
  obtain ⟨x, hx⟩ := hu.fails
  exact hx (hent x fun a hat hap => absurd hap (h.absent_iff.mp hnone a hat))

theorem exists_satisfiers (h : Trail s t) (hp : ProperTrail t) {entries : List (P × Term S)}
    (hentries : ∀ e ∈ entries,
      e.2.IsProper ∧ s.packages.get? e.1 ≠ none ∧ Entails (Allows t) e.1 e.2) :
    ∃ found, s.satisfiers entries = .ok found ∧
      (∀ e ∈ entries, ∃ b, FirstExcluding t e.1 e.2.negate b ∧ (e.1, b.satisfier) ∈ found) ∧
      ∀ f ∈ found, ∃ e ∈ entries, ∃ b, FirstExcluding t e.1 e.2.negate b ∧ f = (e.1, b.satisfier) := by
  induction entries with
  | nil => exact ⟨[], rfl, by simp, by simp⟩
  | cons e rest ih =>
    obtain ⟨p, u⟩ := e
    rw [List.forall_mem_cons] at hentries
    obtain ⟨⟨hu, hseen, hent⟩, hrest⟩ := hentries
    obtain ⟨found, hfound, hforth, hback⟩ := ih hrest
    obtain ⟨a, ha⟩ := Option.ne_none_iff_exists'.mp hseen
    obtain ⟨b, hb, hok⟩ := h.exists_firstExcluding hp ha hu.negate (excludes_negate_iff.mpr hent)
    refine ⟨(p, b.satisfier) :: found, ?_, ?_, ?_⟩
    · rw [satisfiers, ha]
      dsimp only
      rw [hok, hfound]
      rfl
    · rw [List.forall_mem_cons]
      refine ⟨⟨b, hb, List.mem_cons_self⟩, fun e he => ?_⟩
      obtain ⟨b', hb', hmem⟩ := hforth e he
      exact ⟨b', hb', List.mem_cons_of_mem _ hmem⟩
    · rw [List.forall_mem_cons]
      refine ⟨⟨(p, u), List.mem_cons_self, b, hb, rfl⟩, fun f hf => ?_⟩
      obtain ⟨e, he, b', hb', hmem⟩ := hback f hf
      exact ⟨e, List.mem_cons_of_mem _ he, b', hb', hmem⟩

end Trail

/-- The list gives the satisfier of each package that an incompatibility mentions. -/
structure FindsSatisfiers (t : List (Assignment P V S)) (i : Incompatibility P V S M)
    (found : List (P × Satisfier)) : Prop where
  forth : ∀ q w, i.get? q = some w → ∃ b, FirstExcluding t q w.negate b ∧ (q, b.satisfier) ∈ found
  back : ∀ f ∈ found, ∃ q w b, i.get? q = some w ∧ FirstExcluding t q w.negate b ∧
    f = (q, b.satisfier)

namespace Trail

theorem exists_findsSatisfiers (h : Trail s t) (hp : ProperTrail t) (hi : i.IsProper)
    (hseen : ∀ q w, i.get? q = some w → s.packages.get? q ≠ none) (hsat : i.SatisfiedBy (Allows t)) :
    ∃ found, s.satisfiers i.terms.entries = .ok found ∧ FindsSatisfiers t i found := by
  have hentry : ∀ e ∈ i.terms.entries, i.get? e.1 = some e.2 := fun e he => i.terms.get?_eq_some_iff.mpr he
  obtain ⟨found, hok, hforth, hback⟩ := h.exists_satisfiers hp fun e he =>
    ⟨hi e.1 e.2 (hentry e he), hseen e.1 e.2 (hentry e he), hsat e.1 e.2 (hentry e he)⟩
  refine ⟨found, hok, fun q w hw => hforth (q, w) (i.terms.get?_eq_some_iff.mp hw), fun f hf => ?_⟩
  obtain ⟨⟨q, w⟩, he, b, hb, hfb⟩ := hback f hf
  exact ⟨q, w, b, i.terms.get?_eq_some_iff.mpr he, hb, hfb⟩

omit [DecidableEq S] in
theorem exists_lastSatisfied (h : Trail s t) {found : List (P × Satisfier)}
    (hfound : FindsSatisfiers t i found) {e : P × Satisfier} (he : latest found = some e) :
    ∃ p u b, e = (p, b.satisfier) ∧ i.LastSatisfied t p u b := by
  obtain ⟨hmem, hlast⟩ := latest_spec he
  obtain ⟨p, u, b, hu, hb, rfl⟩ := hfound.back e hmem
  refine ⟨p, u, b, rfl, hu, hb, fun q w hw hq => ?_⟩
  obtain ⟨c, hc, hcmem⟩ := hfound.forth q w hw
  have hle := hlast _ hcmem
  simp only [Assignment.index_satisfier] at hle
  have hne : c.index ≠ b.index := by
    intro heq
    have hcb := h.eq_of_index_eq hc.mem hb.mem heq
    exact hq (hc.package.symm.trans ((congrArg Assignment.package hcb).trans hb.package))
  refine (excludes_negate_iff.mp hc.excludes).mono fun x hx => hx.mono fun a ha => ?_
  rw [mem_before_iff] at ha ⊢
  exact ⟨ha.1, by omega⟩

omit [DecidableEq S] in
theorem exists_latest {found : List (P × Satisfier)} (hfound : FindsSatisfiers t i found)
    (hne : i.terms.entries ≠ []) : ∃ e, latest found = some e := by
  refine exists_latest_of_ne_nil ?_
  rintro rfl
  obtain ⟨⟨q, w⟩, hq⟩ := List.exists_mem_of_ne_nil _ hne
  obtain ⟨b, -, hb⟩ := hfound.forth q w (i.terms.get?_eq_some_iff.mpr hq)
  cases hb

theorem exists_satisfier (h : Trail s t) (hp : ProperTrail t) (hi : i.IsContingent)
    (hsat : i.SatisfiedBy (Allows t)) (hne : i.terms.entries ≠ []) :
    ∃ found p u b, s.satisfiers i.terms.entries = .ok found ∧ FindsSatisfiers t i found ∧
      latest found = some (p, b.satisfier) ∧ i.LastSatisfied t p u b := by
  obtain ⟨found, hok, hfound⟩ := h.exists_findsSatisfiers hp hi.isProper
    (fun q w hw => h.ne_none_of_entails (hi q w hw) (hsat q w hw)) hsat
  obtain ⟨e, he⟩ := exists_latest hfound hne
  obtain ⟨p, u, b, rfl, hb⟩ := h.exists_lastSatisfied hfound he
  exact ⟨found, p, u, b, hok, hfound, he, hb⟩

/-! ## The level to go back to -/

omit [DecidableEq S] in
theorem excludes_upTo (h : Trail s t) {p : P} {u : Term S} {b : Assignment P V S} {l : Nat}
    (hb : FirstExcluding t p u b) (hl : b.level ≤ l) : Excludes (Allows (upTo l t)) p u := by
  refine hb.excludes.mono fun x hx => hx.mono fun a ha => ?_
  rw [mem_before_iff] at ha
  rw [mem_upTo_iff]
  exact ⟨ha.1, (h.level_le_of_index_le ha.1 hb.mem (by omega)).trans hl⟩

omit [DecidableEq S] in
/-- The term of a decision excludes what it does not satisfy from the first assignment of the package
on. -/
theorem level_lt_of_isDecision (h : Trail s t) (hp : ProperTrail t) {p : P} {u : Term S}
    {b b' : Assignment P V S} (hu : u.IsProper) (hb : FirstExcluding t p u.negate b)
    (hd : b.isDecision = true) (hb' : FirstExcluding t p (b.term.intersection u.negate) b') :
    b'.level < b.level := by
  cases b with
  | derivation d => cases hd
  | decision d =>
    obtain ⟨a, ha, hdec, -, -, hterm⟩ := h.decision_term hb.mem
    have hbp : d.package = p := hb.package
    have hempty : ∀ A : Knowledge P S V, Excludes A p ((Assignment.decision d).term.intersection u.negate) := by
      intro A
      rw [excludes_intersection_negate_iff (hp _ hb.mem) hu]
      intro x _ hx
      have hallowed : Allows t d.package x := (h.holds_exact_iff hp hb.mem x).mp (by rwa [← hterm])
      rw [hbp] at hallowed
      exact excludes_negate_iff.mp hb.excludes x
        (allows_before hallowed)
    obtain ⟨e, hemem⟩ := List.exists_mem_of_ne_nil _ (h.records ha).derived.ne_nil
    obtain ⟨het, hep⟩ := (h.mem_derivation_iff ha).mp hemem
    have hle : b'.index ≤ e.index := by
      rcases hb'.first with hfirst | hnot
      · exact hfirst _ het (hep.trans hbp)
      · exact absurd (hempty _) hnot
    have hlt := h.index_lt_decision ha hemem hdec
    exact h.level_lt_of_index_lt hb'.mem hb.mem (show b'.index < d.index by omega) rfl

omit [LawfulVersionSet S V] in
theorem previousLevel_eq (h : Trail s t) {store : Store P V S M} {p : P} {u : Term S}
    {b : Assignment P V S} {a : PackageAssignments P V S} (ha : s.packages.get? p = some a)
    (hu : i.get? p = some u) (hb : b ∈ t) (hbp : b.package = p)
    (hcause : ∀ d, b = .derivation d → ∃ c, store.get? d.cause = some c ∧
      c.get? p = some d.term.negate) {found : List (P × Satisfier)} (hne : found ≠ []) :
    s.previousLevel store i found p b.satisfier =
      (a.satisfier (b.term.intersection u.negate)).map fun r =>
        max ((latest (found.map fun e => if e.1 = p then (e.1, r) else e)).elim 0 (·.2.level)) 1 := by
  have hlatest : ∀ r : Satisfier, ∃ e, latest (found.map fun e => if e.1 = p then (e.1, r) else e) = some e :=
    fun r => exists_latest_of_ne_nil (by simpa using hne)
  unfold previousLevel
  rw [ha, hu]
  cases b with
  | derivation d =>
    obtain ⟨c, hc, hcp⟩ := hcause d rfl
    have hget : store.get d.cause = .ok c := by rw [Store.get, hc]
    simp only [Assignment.satisfier, hget, Assignment.term, bind, Except.bind, hcp, Term.negate_negate]
    cases a.satisfier (d.term.intersection u.negate) with
    | error e => rfl
    | ok r =>
      obtain ⟨e, he⟩ := hlatest r
      simp only [Except.map, he, Option.elim_some]
  | decision d =>
    have hdec := (h.mem_decision_iff ha).mpr ⟨hb, hbp⟩
    simp only [Assignment.satisfier, hdec, Assignment.term, bind, Except.bind]
    cases a.satisfier (d.term.intersection u.negate) with
    | error e => rfl
    | ok r =>
      obtain ⟨e, he⟩ := hlatest r
      simp only [Except.map, he, Option.elim_some]

/-- The satisfier is replaced by the first assignment that leaves nothing of what its own term leaves open. -/
theorem exists_replacement (h : Trail s t) (hp : ProperTrail t) {store : Store P V S M} {p : P} {u : Term S}
    {b : Assignment P V S} (hu : u.IsProper) (hb : i.LastSatisfied t p u b)
    (hcause : ∀ d, b = .derivation d → ∃ c, store.get? d.cause = some c ∧
      c.get? p = some d.term.negate) {found : List (P × Satisfier)} (hne : found ≠ []) :
    ∃ b', FirstExcluding t p (b.term.intersection u.negate) b' ∧
      s.previousLevel store i found p b.satisfier =
        .ok (max ((latest (found.map fun e => if e.1 = p then (e.1, b'.satisfier) else e)).elim 0
          (·.2.level)) 1) := by
  have hbp := hb.first.package
  have hbproper := hp b hb.first.mem
  obtain ⟨a, ha⟩ : ∃ a, s.packages.get? p = some a :=
    Option.ne_none_iff_exists'.mp fun hnone => h.absent_iff.mp hnone b hb.first.mem hbp
  have hall : Entails (Allows t) p u :=
    (excludes_negate_iff.mp hb.first.excludes).mono fun _ => allows_before
  obtain ⟨b', hb', hrep⟩ := h.exists_firstExcluding hp ha (hbproper.intersection hu.negate)
    ((excludes_intersection_negate_iff hbproper hu).mpr fun x hx _ => hall x hx)
  refine ⟨b', hb', ?_⟩
  rw [h.previousLevel_eq ha hb.term hb.first.mem hbp hcause hne, hrep]
  rfl

omit [DecidableEq S] [LawfulVersionSet S V] in
theorem level_le_latest (h : Trail s t) {found : List (P × Satisfier)}
    (hfound : ∀ f ∈ found, ∃ c ∈ t, f.2 = c.satisfier) {q : P} {c : Assignment P V S}
    (hmem : (q, c.satisfier) ∈ found) (hc : c ∈ t) : c.level ≤ (latest found).elim 0 (·.2.level) := by
  cases hlatest : latest found with
  | none =>
    rw [latest_eq_none_iff.mp hlatest] at hmem
    cases hmem
  | some e =>
    obtain ⟨he, hmax⟩ := latest_spec hlatest
    obtain ⟨d, hd, hed⟩ := hfound e he
    have hle := hmax _ hmem
    simp only [hed, Assignment.index_satisfier] at hle
    simp only [Option.elim_some, hed, Assignment.level_satisfier]
    exact h.level_le_of_index_le hc hd hle

omit [DecidableEq S] in
/-- Once the satisfier is replaced by what else the package's term needs, only assignments of lower
levels are compared if the satisfier is a decision. -/
theorem exists_of_mem_replaced (h : Trail s t) (hp : ProperTrail t) {found : List (P × Satisfier)}
    (hfound : FindsSatisfiers t i found) {p : P} {u : Term S} {b b' : Assignment P V S}
    (hu : u.IsProper) (hb : i.LastSatisfied t p u b) (hlast : latest found = some (p, b.satisfier))
    (hb' : FirstExcluding t p (b.term.intersection u.negate) b') {f : P × Satisfier}
    (hf : f ∈ found.map fun e => if e.1 = p then (e.1, b'.satisfier) else e) :
    ∃ c ∈ t, f.2 = c.satisfier ∧ (b.isDecision = true → c.level < b.level) := by
  obtain ⟨e, he, rfl⟩ := List.mem_map.mp hf
  obtain ⟨q, w, c, hw, hc, rfl⟩ := hfound.back e he
  have hle := (latest_spec hlast).2 _ he
  simp only [Assignment.index_satisfier] at hle
  dsimp only
  split_ifs with hq
  · exact ⟨b', hb'.mem, rfl, fun hd => h.level_lt_of_isDecision hp hu hb.first hd hb'⟩
  · refine ⟨c, hc.mem, rfl, fun hd => ?_⟩
    have hne : c.index ≠ b.index := by
      intro heq
      have hcb := h.eq_of_index_eq hc.mem hb.first.mem heq
      exact hq (hc.package.symm.trans ((congrArg Assignment.package hcb).trans hb.first.package))
    exact h.level_lt_of_index_lt hc.mem hb.first.mem (by omega) hd

/-- Up to the previous level all other terms hold, and the package's term does together with that of
the satisfier. -/
theorem previousLevel_spec (h : Trail s t) (hp : ProperTrail t) (hi : i.IsContingent)
    {store : Store P V S M} {found : List (P × Satisfier)} (hfound : FindsSatisfiers t i found) {p : P}
    {u : Term S} {b : Assignment P V S} (hb : i.LastSatisfied t p u b)
    (hlast : latest found = some (p, b.satisfier))
    (hcause : ∀ d, b = .derivation d → ∃ c, store.get? d.cause = some c ∧
      c.get? p = some d.term.negate) :
    ∃ l, s.previousLevel store i found p b.satisfier = .ok l ∧ 1 ≤ l ∧
      (∀ q w, i.get? q = some w → q ≠ p → Entails (Allows (upTo l t)) q w) ∧
      (∀ x, Allows (upTo l t) p x → b.term.Holds x → u.Holds x) ∧
      (b.isDecision = true → l < b.level ∨ l = 1) := by
  have hu := (hi p u hb.term).proper
  have hbproper := hp b hb.first.mem
  obtain ⟨b', hb', hprevious⟩ := h.exists_replacement hp hu hb hcause (List.ne_nil_of_mem (latest_spec hlast).1)
  rw [hprevious]
  have hback : ∀ f ∈ found.map fun e => if e.1 = p then (e.1, b'.satisfier) else e,
      ∃ c ∈ t, f.2 = c.satisfier ∧ (b.isDecision = true → c.level < b.level) :=
    fun f hf => h.exists_of_mem_replaced hp hfound hu hb hlast hb' hf
  have hself : (p, b'.satisfier) ∈ found.map fun e => if e.1 = p then (e.1, b'.satisfier) else e :=
    List.mem_map.mpr ⟨_, (latest_spec hlast).1, by simp⟩
  have hother : ∀ (q : P) (c : Assignment P V S), q ≠ p → (q, c.satisfier) ∈ found →
      (q, c.satisfier) ∈ found.map fun e => if e.1 = p then (e.1, b'.satisfier) else e :=
    fun q c hq hmem => List.mem_map.mpr ⟨_, hmem, by simp [hq]⟩
  generalize (found.map fun e => if e.1 = p then (e.1, b'.satisfier) else e) = replaced at *
  have hlevel : ∀ (q : P) (c : Assignment P V S), (q, c.satisfier) ∈ replaced → c ∈ t →
      c.level ≤ (latest replaced).elim 0 (·.2.level) := by
    refine fun q c hmem hc => h.level_le_latest (fun f hf => ?_) hmem hc
    obtain ⟨d, hd, hfd, -⟩ := hback f hf
    exact ⟨d, hd, hfd⟩
  refine ⟨_, rfl, le_max_right _ _, fun q w hw hq => ?_, ?_, fun hd => ?_⟩
  · obtain ⟨c, hc, hmem⟩ := hfound.forth q w hw
    exact excludes_negate_iff.mp (h.excludes_upTo hc
      ((hlevel q c (hother q c hq hmem) hc.mem).trans (le_max_left _ _)))
  · rw [← excludes_intersection_negate_iff hbproper hu]
    exact h.excludes_upTo hb' ((hlevel p b' hself hb'.mem).trans (le_max_left _ _))
  · -- if the satisfier is a decision, everything that is compared lies below its level
    cases hlatest : latest replaced with
    | none =>
      rw [latest_eq_none_iff.mp hlatest] at hself
      cases hself
    | some e =>
      obtain ⟨c, -, hec, hlow⟩ := hback e (latest_spec hlatest).1
      have hlt := hlow hd
      simp only [Option.elim_some, hec, Assignment.level_satisfier]
      omega

/-! ## What to do about a conflict -/

omit [DecidableEq P] [DecidableEq S] in
theorem entails_of_exact (hc : Consistent (Allows t)) (hu : u.IsProper) (hent : Entails (Allows t) p u)
    {t' : List (Assignment P V S)} {e : Assignment P V S} {v : V} (he : e ∈ t') (hle : ∀ c ∈ t', c ∈ t)
    (hp : e.package = p) (hv : e.term = .exact v) : Entails (Allows t') p u := by
  intro x hx
  have hex : (Term.exact v : Term S).Holds x := hv ▸ hx e he hp
  obtain ⟨y, hy⟩ := hc p
  have hey : (Term.exact v : Term S).Holds y := hv ▸ hy e (hle e he) hp
  have huy := hent y hy
  rw [Term.holds_iff_of_holds_exact hey hu] at huy
  exact (Term.holds_iff_of_holds_exact hex hu).mpr huy

/-- The solver either can go back to a lower level, which is no lower than 1, and derive something
there, or the satisfier is a derivation. The decision of level 1 must have been inevitable. -/
theorem satisfierSearch_spec (h : Trail s t) (hp : ProperTrail t) (hc : Consistent (Allows t))
    (hi : i.IsContingent) (hsat : i.SatisfiedBy (Allows t)) (hne : i.terms.entries ≠ [])
    {store : Store P V S M}
    (hjust : ∀ d, .derivation d ∈ t → ∃ c, store.get? d.cause = some c ∧ c.Justifies t d)
    (hfirst : ∀ d, .decision d ∈ t → d.level = 1 →
      ∃ e ∈ t, e.package = d.package ∧ e.index < d.index ∧ ∃ v, e.term = .exact v) :
    ∃ p u b, i.LastSatisfied t p u b ∧
      ((∃ l, s.satisfierSearch store i = .ok (p, .differentLevels l) ∧ 1 ≤ l ∧ l < b.level ∧
          i.AlmostSatisfiedBy (Allows (upTo l t)) p) ∨
        ∃ d, b = .derivation d ∧ s.satisfierSearch store i = .ok (p, .sameLevel d.cause)) := by
  obtain ⟨found, p, u, b, hok, hfound, he, hb⟩ := h.exists_satisfier hp hi hsat hne
  have hcause : ∀ d, b = .derivation d → ∃ c, store.get? d.cause = some c ∧
      c.get? p = some d.term.negate := by
    rintro d rfl
    obtain ⟨c, hc, hj⟩ := hjust d hb.first.mem
    have hdp : d.package = p := hb.first.package
    exact ⟨c, hc, hdp ▸ hj.term⟩
  obtain ⟨l, hl, hpos, hothers, hown, hdec⟩ := h.previousLevel_spec hp hi hfound hb he hcause
  have hnot : ¬ Entails (Allows (before b.index t)) p u := by
    rw [← excludes_negate_iff]
    exact hb.first.not_excludes (hi p u hb.term).negate.holds
  refine ⟨p, u, b, hb, ?_⟩
  by_cases hlt : l < b.level
  · left
    have hsearch : s.satisfierSearch store i = .ok (p, .differentLevels l) := by
      simp only [satisfierSearch, hok, he, hl, bind, Except.bind, Assignment.level_satisfier, if_pos hlt]
    refine ⟨l, hsearch, hpos, hlt, ⟨u, hb.term, fun hent => hnot ?_, fun hex => ?_⟩, hothers⟩
    · refine hent.mono fun x hx => hx.mono fun c hcl => ?_
      rw [mem_upTo_iff] at hcl
      exact h.mem_before_of_level_lt hb.first.mem hcl.1 (by omega)
    · obtain ⟨x, hx⟩ := hc p
      exact hex x (allows_upTo hx) (hsat p u hb.term x hx)
  · right
    cases b with
    | derivation d =>
      refine ⟨d, rfl, ?_⟩
      have hdc : (Assignment.derivation d : Assignment P V S).satisfier.cause = some d.cause := rfl
      simp only [satisfierSearch, hok, he, hl, bind, Except.bind, Assignment.level_satisfier,
        if_neg hlt, hdc]
    | decision d =>
      -- only the decision of level 1 is left, and the trail before it already entailed the term
      have hlevel : d.level = 1 := by
        have hdl : 0 < d.level := h.level_pos hb.first.mem
        have hl1 := hdec rfl
        simp only [Assignment.level] at hlt hl1
        omega
      obtain ⟨e, het, hep, hlt', v, hev⟩ := hfirst d hb.first.mem hlevel
      have hdp : d.package = p := hb.first.package
      have hebefore : e ∈ before d.index t := mem_before_iff.mpr ⟨het, hlt'⟩
      have hent := entails_of_exact hc (hi p u hb.term).proper (hsat p u hb.term) hebefore
        (fun c hc => (mem_before_iff.mp hc).1) (hep.trans hdp) hev
      exact absurd hent hnot

end Trail

end PartialSolution

/-! ## Resolution -/

namespace Incompatibility

variable [DecidableEq P] [DecidableEq S] [VersionSet S V] [LawfulVersionSet S V]
  {s : PartialSolution P V S} {t : List (Assignment P V S)} {i c r : Incompatibility P V S M} {p : P}
  {u : Term S} {d : Derivation P S} {first second : Nat}

/-- The resolvent with the cause of the satisfier is satisfied before the satisfier. -/
theorem satisfiedBy_resolvent (h : s.Trail t) (hi : i.IsProper) (hc : c.IsProper)
    (hb : i.LastSatisfied t p u (.derivation d)) (hj : c.Justifies t d)
    (hr : i.resolvent c first second p = .ok r) : r.SatisfiedBy (Allows (before d.index t)) := by
  have hdp : d.package = p := hb.first.package
  obtain ⟨u', w, hu', hw, -, hget⟩ := get?_resolvent hr
  rw [hb.term, Option.some.injEq] at hu'
  subst hu'
  have hjt := hj.term
  rw [hdp, hw, Option.some.injEq] at hjt
  intro q k hk x hx
  rw [hget q] at hk
  split_ifs at hk with hq
  · cases hk
    subst hq
    rw [Term.holds_union (hi q u hb.term) (hc q w hw), hjt, Term.holds_negate]
    -- where the derived term holds the satisfier adds nothing, and elsewhere its cause holds
    by_cases hdx : d.term.Holds x
    · left
      refine excludes_negate_iff.mp hb.first.excludes x fun a ha hap => ?_
      rw [mem_before_iff] at ha
      by_cases hlt : a.index < d.index
      · exact hx a (mem_before_iff.mpr ⟨ha.1, hlt⟩) hap
      · have hindex : a.index = d.index := by
          have hle := ha.2
          simp only [Assignment.index] at hle hlt ⊢
          omega
        rw [h.eq_of_index_eq ha.1 hb.first.mem hindex]
        exact hdx
    · exact Or.inr hdx
  · exact (holds_merge_iff (hi q) (hc q) x).mpr
      ⟨fun v hv => hb.others q v hv hq x hx, fun v hv => hj.others q v hv (hdp ▸ hq) x hx⟩ k hk

theorem isContingent_resolvent {A : Knowledge P S V} (hA : Consistent A) (hi : i.IsContingent)
    (hc : c.IsContingent) (hr : i.resolvent c first second p = .ok r) (hsat : r.SatisfiedBy A) :
    r.IsContingent := by
  intro q k hk
  have hproper := isProper_resolvent hi.isProper hc.isProper hr q k hk
  obtain ⟨y, hy⟩ := hA q
  refine ⟨hproper, ⟨y, hsat q k hk y hy⟩, ?_⟩
  obtain ⟨u, w, hu, hw, -, hget⟩ := get?_resolvent hr
  rw [hget q] at hk
  split_ifs at hk with hq hany
  · cases hk
    by_contra hall
    push Not at hall
    exact hany ((Term.isAny_iff hproper).mpr hall)
  · have hmerge := fun x hx => (holds_merge_iff (hi.isProper q) (hc.isProper q) x).mp hx
    rw [hk] at hmerge
    simp only [Option.some.injEq, forall_eq'] at hmerge
    cases hiq : i.get? q with
    | none =>
      rw [hiq, Option.merge_none_left] at hk
      exact (hc q k hk).fails
    | some a =>
      obtain ⟨x, hx⟩ := (hi q a hiq).fails
      exact ⟨x, fun hkx => hx ((hmerge x hkx).1 a hiq)⟩

end Incompatibility

end DependencyResolution
