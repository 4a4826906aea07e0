import DependencyResolution.Proofs.Solver.Analysis
import DependencyResolution.Proofs.Solver.Coherence
import DependencyResolution.Proofs.Solver.FirstSatisfied

/-!
# How far the previous satisfier lets the solver go back

With the satisfier's own term kept, some of the assignments before it are enough to satisfy the
incompatibility, and the level of the last one that is needed is as far as the solver could go back
(`Incompatibility.CompletedBy`). That is the level which is found, 1 at the least, as long as the
satisfier's own term does not satisfy its package's term alone.

If it does, nothing else is needed of the package. The search is then for an assignment that leaves
nothing of an empty term; it comes to the first assignment of the package, which is compared with the
satisfiers of the other packages though it is not needed (`Reached.previousLevel_eq_lastLevel`). So the solver may
stay at a level that it could leave, or resolve a conflict from which it could go back
(`PackageTable.previousLevel_unneeded`).
-/

namespace DependencyResolution

open Incompatibility

variable {P V S M : Type}

/-- The level of the last of some assignments, or 0 if there are none. -/
def lastLevel (l : List (Assignment P V S)) : Nat := l.getLast?.elim 0 Assignment.level

section completed

variable [DecidableEq P] [VersionSet S V]

theorem Incompatibility.entries_ne_nil {i : Incompatibility P V S M} {root : P} {version : V}
    (h : i.isTerminal root version = false) : i.terms.entries ≠ [] := by
  intro hnil
  rw [isTerminal, hnil] at h
  cases h

variable [DecidableEq S]

/-- Of the assignments before another one, the fewest with which it satisfies the incompatibility. -/
structure Incompatibility.CompletedBy (i : Incompatibility P V S M) (earlier few : List (Assignment P V S))
    (b : Assignment P V S) : Prop where
  initial : few <+: earlier
  satisfied : i.standing (knownFrom (few ++ [b])) = .satisfied
  fewest : ∀ l, l <+: earlier → i.standing (knownFrom (l ++ [b])) = .satisfied → few <+: l

theorem Incompatibility.exists_completedBy {i : Incompatibility P V S M} {earlier : List (Assignment P V S)}
    {b : Assignment P V S} (h : i.standing (knownFrom (earlier ++ [b])) = .satisfied) :
    ∃ few, i.CompletedBy earlier few b := by
  classical
  have hex : ∃ n, i.standing (knownFrom (earlier.take n ++ [b])) = .satisfied :=
    ⟨earlier.length, by rwa [List.take_length]⟩
  refine ⟨earlier.take (Nat.find hex), List.take_prefix _ _, Nat.find_spec hex, fun l hl hsat => ?_⟩
  have htake : l = earlier.take l.length := List.prefix_iff_eq_take.mp hl
  rw [htake] at hsat
  rw [htake]
  exact List.take_prefix_take_left (Nat.find_min' hex hsat)

theorem Incompatibility.CompletedBy.not_satisfied {i : Incompatibility P V S M}
    {earlier few : List (Assignment P V S)} {b z : Assignment P V S} (h : i.CompletedBy earlier (few ++ [z]) b) :
    i.standing (knownFrom (few ++ [b])) ≠ .satisfied := by
  intro hsat
  have hlength := (h.fewest few ((List.prefix_append few [z]).trans h.initial) hsat).length_le
  rw [List.length_append, List.length_singleton] at hlength
  omega

end completed

namespace PartialSolution

variable [DecidableEq P] [VersionSet S V] [LawfulVersionSet S V] {s : PartialSolution P V S}
  {t few : List (Assignment P V S)} {i : Incompatibility P V S M} {p : P} {u : Term S}
  {b b' c : Assignment P V S}

namespace Trail

theorem mem_initial_iff (h : Trail s t) (hfew : few <+: t) (hc : FirstExcluding t p u c) :
    c ∈ few ↔ (∃ a ∈ few, a.package = p) ∧ Excludes (Allows few) p u := by
  obtain ⟨rest, rfl⟩ := hfew
  have hlt : ∀ a ∈ few, ∀ d ∈ rest, a.index < d.index :=
    fun a ha d hd => ((List.pairwise_append.mp h.ordered).2.2 a ha d hd).1
  constructor
  · intro hmem
    refine ⟨⟨c, hmem, hc.package⟩, hc.excludes.mono fun x hx => hx.mono fun a ha => ?_⟩
    rw [mem_before_iff] at ha
    refine (List.mem_append.mp ha.1).resolve_right fun hrest => ?_
    have hle := hlt c hmem a hrest
    omega
  · rintro ⟨⟨a, ha, hap⟩, hex⟩
    by_contra hnot
    have hrest : c ∈ rest := (List.mem_append.mp hc.mem).resolve_left hnot
    rcases hc.first with hfirst | hopen
    · exact absurd (hfirst a (List.mem_append_left _ ha) hap) (not_le.mpr (hlt a ha c hrest))
    · refine hopen (hex.mono fun x hx => hx.mono fun d hd => ?_)
      exact mem_before_iff.mpr ⟨List.mem_append_left _ hd, hlt d hd c hrest⟩

omit [LawfulVersionSet S V] in
theorem level_le_lastLevel (h : Trail s t) (hfew : few <+: t) (hc : c ∈ few) : c.level ≤ lastLevel few := by
  rcases List.eq_nil_or_concat few with rfl | ⟨init, z, rfl⟩
  · cases hc
  · have hordered := h.ordered.sublist hfew.sublist
    simp only [List.concat_eq_append] at hordered hc ⊢
    rw [lastLevel, List.getLast?_concat, Option.elim_some]
    rcases List.mem_append.mp hc with hc | hc
    · exact ((List.pairwise_append.mp hordered).2.2 c hc z (List.mem_singleton_self z)).2.1
    · rw [List.mem_singleton.mp hc]

/-- Nothing is left of a term that no assignment is needed to exclude: the first assignment to exclude it is
that of its package. -/
theorem firstAssignment_of_excludes (h : Trail s t) (hc : FirstExcluding t p u c)
    (hex : Excludes (Allows (before c.index t)) p u) : s.firstAssignment p = some c := by
  obtain ⟨a, ha, hat, hap⟩ := h.exists_firstAssignment (h.mem_keys_iff.mpr ⟨c, hc.mem, hc.package⟩)
  have hfind := ha
  rw [firstAssignment, h.assignments_eq] at hfind
  have hle := (hc.first.resolve_right (not_not_intro hex)) a hat hap
  have hge := h.index_le_of_find? hfind hc.mem hc.package
  rw [ha, h.eq_of_index_eq hat hc.mem (le_antisymm hge hle)]

variable [DecidableEq S]

/-- The satisfier and some assignments before it satisfy the incompatibility just if these have the satisfiers
of all other packages, and what is needed of the satisfier's package besides its own term, if anything is. -/
theorem standing_append_iff (h : Trail s t) (hp : ProperTrail t) (hi : i.IsProper)
    {found : List (P × Satisfier)} (hfound : FindsSatisfiers t i found) (hb : i.LastSatisfied t p u b)
    (hb' : FirstExcluding t p (b.term.intersection u.negate) b') (hfew : few <+: t) :
    i.standing (knownFrom (few ++ [b])) = .satisfied ↔
      (∀ q w c, i.get? q = some w → q ≠ p → FirstExcluding t q w.negate c → (q, c.satisfier) ∈ found →
          c ∈ few) ∧
        (u.relationWith b.term = .satisfied ∨ b' ∈ few) := by
  have hu := hi p u hb.term
  have hbproper := hp b hb.first.mem
  have hproper : ProperTrail (few ++ [b]) := by
    intro a ha
    rcases List.mem_append.mp ha with ha | ha
    · exact hp a (hfew.subset ha)
    · exact List.mem_singleton.mp ha ▸ hbproper
  have hother : ∀ q w c, i.get? q = some w → q ≠ p → FirstExcluding t q w.negate c →
      (relationIn (knownFrom (few ++ [b])) (q, w) = .satisfied ↔ c ∈ few) := by
    intro q w c hw hq hc
    have hbq : b.package ≠ q := fun h => hq (h.symm.trans hb.first.package)
    rw [relationIn_knownFrom_iff hproper (hi q w hw), h.mem_initial_iff hfew hc, excludes_negate_iff]
    simp [Entails, allows_append_singleton, hbq]
  have hown : relationIn (knownFrom (few ++ [b])) (p, u) = .satisfied ↔
      u.relationWith b.term = .satisfied ∨ b' ∈ few := by
    have hsome : ∃ a ∈ few ++ [b], a.package = p := ⟨b, by simp, hb.first.package⟩
    have hent : Entails (Allows (few ++ [b])) p u ↔ ∀ x, Allows few p x → b.term.Holds x → u.Holds x := by
      simp [Entails, allows_append_singleton, hb.first.package]
    rw [relationIn_knownFrom_iff hproper hu, and_iff_right hsome, hent, h.mem_initial_iff hfew hb',
      excludes_intersection_negate_iff hbproper hu, Term.relationWith_eq_satisfied hu hbproper]
    constructor
    · intro hneeded
      by_cases hany : ∃ a ∈ few, a.package = p
      · exact Or.inr ⟨hany, hneeded⟩
      · exact Or.inl fun x => hneeded x fun a ha hap => absurd ⟨a, ha, hap⟩ hany
    · rintro (halone | ⟨-, hneeded⟩)
      · exact fun x _ => halone x
      · exact hneeded
  rw [standing_eq_satisfied_iff_relationIn]
  constructor
  · intro hall
    exact ⟨fun q w c hw hq hc _ => (hother q w c hw hq hc).mp (hall q w hw), hown.mp (hall p u hb.term)⟩
  · rintro ⟨hothers, hneeded⟩ q w hw
    by_cases hq : q = p
    · subst hq
      obtain rfl := Option.some.inj (hb.term.symm.trans hw)
      exact hown.mpr hneeded
    · obtain ⟨c, hc, hmem⟩ := hfound.forth q w hw
      exact (hother q w c hw hq hc).mpr (hothers q w c hw hq hc hmem)

/-- The last of the fewest assignments is needed: it is the satisfier of another package, or what is needed of
the satisfier's package besides its own term. -/
theorem last_needed (h : Trail s t) (hp : ProperTrail t) (hi : i.IsProper) {found : List (P × Satisfier)}
    (hfound : FindsSatisfiers t i found) (hb : i.LastSatisfied t p u b)
    (hb' : FirstExcluding t p (b.term.intersection u.negate) b') {earlier init : List (Assignment P V S)}
    {z : Assignment P V S} (hearlier : earlier <+: t) (hfew : i.CompletedBy earlier (init ++ [z]) b) :
    (∃ q, q ≠ p ∧ (q, z.satisfier) ∈ found) ∨ b' = z := by
  have hinitial : init ++ [z] <+: t := hfew.initial.trans hearlier
  obtain ⟨hothers, hown⟩ := (h.standing_append_iff hp hi hfound hb hb' hinitial).mp hfew.satisfied
  have hnot := hfew.not_satisfied
  rw [Ne, h.standing_append_iff hp hi hfound hb hb' ((List.prefix_append init [z]).trans hinitial)] at hnot
  by_contra hneedless
  push Not at hneedless
  have hinit : ∀ c ∈ init ++ [z], c ≠ z → c ∈ init := fun c hc hne =>
    (List.mem_append.mp hc).resolve_right fun hz => hne (List.mem_singleton.mp hz)
  refine hnot ⟨fun q w c hw hq hc hmem => ?_, hown.imp_right fun hmem => hinit b' hmem hneedless.2⟩
  refine hinit c (hothers q w c hw hq hc hmem) ?_
  rintro rfl
  exact hneedless.1 q hq hmem

/-- The level that is found is that of the last assignment needed besides the satisfier's own term; but if
nothing is needed of its package, the first assignment of the package is compared nevertheless. -/
theorem exists_previousLevel_eq (h : Trail s t) (hp : ProperTrail t) (hi : i.IsProper) {store : Store P V S M}
    {found : List (P × Satisfier)} (hfound : FindsSatisfiers t i found) (hb : i.LastSatisfied t p u b)
    (hlast : latest found = some (p, b.satisfier))
    (hcause : ∀ d, b = .derivation d → ∃ c, store.get? d.cause = some c ∧ c.get? p = some d.term.negate)
    {earlier : List (Assignment P V S)} (hearlier : earlier <+: t) (hfew : i.CompletedBy earlier few b) :
    ∃ b', FirstExcluding t p (b.term.intersection u.negate) b' ∧
      s.previousLevel store i found p b.satisfier =
        .ok (max (max (lastLevel few) (if u.relationWith b.term = .satisfied then b'.level else 0)) 1) := by
  obtain ⟨b', hb', hprevious⟩ := h.exists_replacement hp (hi p u hb.term) hb hcause
    (List.ne_nil_of_mem (latest_spec hlast).1)
  refine ⟨b', hb', ?_⟩
  have hinitial : few <+: t := hfew.initial.trans hearlier
  obtain ⟨hothers, hown⟩ := (h.standing_append_iff hp hi hfound hb hb' hinitial).mp hfew.satisfied
  have hself : (p, b'.satisfier) ∈ found.map fun e => if e.1 = p then (e.1, b'.satisfier) else e :=
    List.mem_map.mpr ⟨_, (latest_spec hlast).1, by simp⟩
  have hother : ∀ (q : P) (c : Assignment P V S), q ≠ p → (q, c.satisfier) ∈ found →
      (q, c.satisfier) ∈ found.map fun e => if e.1 = p then (e.1, b'.satisfier) else e :=
    fun q c hq hmem => List.mem_map.mpr ⟨_, hmem, by simp [hq]⟩
  -- what is compared is one of the few, or the first assignment of the package
  have hback : ∀ f ∈ found.map fun e => if e.1 = p then (e.1, b'.satisfier) else e,
      ∃ c ∈ t, f.2 = c.satisfier ∧ (c ∈ few ∨ u.relationWith b.term = .satisfied ∧ c = b') := by
    intro f hf
    obtain ⟨e, he, rfl⟩ := List.mem_map.mp hf
    obtain ⟨q, w, c, hw, hc, rfl⟩ := hfound.back e he
    dsimp only
    split_ifs with hq
    · exact ⟨b', hb'.mem, rfl, hown.elim (fun halone => Or.inr ⟨halone, rfl⟩) Or.inl⟩
    · exact ⟨c, hc.mem, rfl, Or.inl (hothers q w c hw hq hc he)⟩
  rw [hprevious]
  generalize (found.map fun e => if e.1 = p then (e.1, b'.satisfier) else e) = compared at *
  have hlevel : ∀ (q : P) (c : Assignment P V S), (q, c.satisfier) ∈ compared → c ∈ t →
      c.level ≤ (latest compared).elim 0 (·.2.level) := by
    refine fun q c hmem hc => h.level_le_latest (fun f hf => ?_) hmem hc
    obtain ⟨d, hd, hfd, -⟩ := hback f hf
    exact ⟨d, hd, hfd⟩
  refine congrArg (fun l => Except.ok (max l 1)) (le_antisymm ?_ (max_le ?_ ?_))
  · cases hlatest : latest compared with
    | none => exact Nat.zero_le _
    | some e =>
      obtain ⟨c, -, hec, hc⟩ := hback e (latest_spec hlatest).1
      simp only [Option.elim_some, hec, Assignment.level_satisfier]
      rcases hc with hc | ⟨halone, rfl⟩
      · exact (h.level_le_lastLevel hinitial hc).trans (le_max_left _ _)
      · rw [if_pos halone]
        exact le_max_right _ _
  · rcases List.eq_nil_or_concat few with rfl | ⟨init, z, rfl⟩
    · exact Nat.zero_le _
    · rw [List.concat_eq_append] at hfew hinitial ⊢
      have hz : z ∈ t := hinitial.subset (by simp)
      rw [lastLevel, List.getLast?_concat, Option.elim_some]
      rcases h.last_needed hp hi hfound hb hb' hearlier hfew with ⟨q, hq, hmem⟩ | rfl
      · exact hlevel q z (hother q z hq hmem) hz
      · exact hlevel p b' hself hz
  · split_ifs with halone
    · exact hlevel p b' hself hb'.mem
    · exact Nat.zero_le _

theorem exists_previousLevel (h : Trail s t) (hp : ProperTrail t) (hi : i.IsProper)
    (hne : i.terms.entries ≠ []) (hsat : i.standing (knownFrom t) = .satisfied) {store : Store P V S M}
    (hjust : ∀ d, .derivation d ∈ t → ∃ c, store.get? d.cause = some c ∧
      c.get? d.package = some d.term.negate) :
    ∃ found b earlier later few u l, s.satisfiers i.terms.entries = .ok found ∧
      latest found = some (b.package, b.satisfier) ∧ t = earlier ++ b :: later ∧
      i.CompletedBy earlier few b ∧ i.get? b.package = some u ∧
      s.previousLevel store i found b.package b.satisfier = .ok l ∧
      (u.relationWith b.term ≠ .satisfied → l = max (lastLevel few) 1) ∧
      (u.relationWith b.term = .satisfied → ∃ first, s.firstAssignment b.package = some first ∧
        l = max (max (lastLevel few) first.level) 1) := by
  obtain ⟨found, b, hok, hlast, hbt, hafter, -⟩ := h.exists_latest_satisfier hp hi hne hsat
  obtain ⟨found', hok', hfound⟩ := h.exists_findsSatisfiers_of_standing hp hi hsat
  obtain rfl := Except.ok.inj (hok.symm.trans hok')
  obtain ⟨p, u, c, hpc, hc⟩ := h.exists_lastSatisfied hfound hlast
  obtain ⟨rfl, hbc⟩ := Prod.mk.inj hpc
  obtain rfl := h.eq_of_index_eq hbt hc.first.mem (by simpa using congrArg Satisfier.index hbc)
  obtain ⟨later, hsplit, hnext⟩ := h.exists_eq_append hbt
  rw [hnext] at hafter
  obtain ⟨few, hfew⟩ := exists_completedBy hafter
  obtain ⟨b', hb', hl⟩ := h.exists_previousLevel_eq hp hi hfound hc hlast
    (fun d hd => by
      subst hd
      exact hjust d hbt) ⟨_, hsplit.symm⟩ hfew
  refine ⟨found, b, _, later, few, u, _, hok, hlast, hsplit, hfew, hc.term, hl, fun hneeded => ?_,
    fun halone => ⟨b', ?_, ?_⟩⟩
  · rw [if_neg hneeded, Nat.max_zero]
  · refine h.firstAssignment_of_excludes hb' ?_
    have hu := hi _ u hc.term
    rw [excludes_intersection_negate_iff (hp b hbt) hu]
    exact fun x _ => (Term.relationWith_eq_satisfied hu (hp b hbt)).mp halone x
  · rw [if_pos halone]

end Trail

end PartialSolution

/-! ## At any moment -/

section moments

variable {σ π E : Type} [DecidableEq P] [DecidableEq S] [DecidableEq V] [VersionSet S V]
  [LawfulVersionSet S V] [LT π] [DecidableLT π] {provider : Provider σ P V S M π E} {client : σ} {root : P}
  {version : V} {x : Session σ P V S M π E} {φ : Phase P}

/-- At every moment of a run, of every incompatibility that is satisfied and does not end it, let the
satisfier be preceded by as few assignments as satisfy the incompatibility with its own term. If that term
does not satisfy its package's term alone, the level that is found is that of the last of the few, and 1 at
the least. If it does, the level of the first assignment of its package counts as well. -/
theorem Reached.previousLevel_eq_lastLevel (h : Reached provider client root version x φ)
    (hproper : provider.AnswersProper) {i : Incompatibility P V S M} (hi : i.IsProper)
    (hopen : i.isTerminal x.state.root x.state.rootVersion = false)
    (hsat : x.state.solution.standing i = .satisfied) :
    ∃ found b earlier later few u l, x.state.solution.satisfiers i.terms.entries = .ok found ∧
      PartialSolution.latest found = some (b.package, b.satisfier) ∧
      x.state.solution.assignments = earlier ++ b :: later ∧ i.CompletedBy earlier few b ∧
      i.get? b.package = some u ∧
      x.state.solution.previousLevel x.state.store i found b.package b.satisfier = .ok l ∧
      (u.relationWith b.term ≠ .satisfied → l = max (lastLevel few) 1) ∧
      (u.relationWith b.term = .satisfied → ∃ first,
        x.state.solution.firstAssignment b.package = some first ∧
          l = max (max (lastLevel few) first.level) 1) := by
  have hne := entries_ne_nil hopen
  rcases h.cases (I := fun _ _ _ => True) hproper (fun _ => trivial) fun _ _ _ _ => trivial with
    hfresh | ⟨t, hinv, -⟩
  · -- before anything is derived every term is open
    obtain ⟨⟨q, w⟩, hq⟩ := List.exists_mem_of_ne_nil _ hne
    rw [PartialSolution.standing, standing_eq_satisfied_iff_relationIn, hfresh.state] at hsat
    cases hsat q w (i.terms.get?_eq_some_iff.mpr hq)
  · rw [PartialSolution.standing, hinv.trail.term?_eq_knownFrom hinv.properTrail] at hsat
    rw [hinv.trail.assignments_eq]
    refine hinv.trail.exists_previousLevel hinv.properTrail hi hne hsat fun d hd => ?_
    obtain ⟨c, hc, hj⟩ := hinv.justified d hd
    exact ⟨c, hc, hj.term⟩

end moments

namespace PackageTable

def onlyVersion : Incompatibility ℕ ℕ (Ranges ℕ) String :=
  ⟨.single 2 (.positive (.complement (.singleton 1))), .fact (.noVersions 2 (.complement (.singleton 1)))⟩

/-- After version 1 of package 2 is excluded, the conflict needs what required the package, at level 2. -/
theorem previousLevel_eq_onlyVersion :
    (fourPackagesMoment 86).1.state.store.get? 9 = some onlyVersion ∧
      (fourPackagesMoment 86).1.state.solution.standing onlyVersion = .satisfied ∧
      ∃ found b earlier later few u l,
        (fourPackagesMoment 86).1.state.solution.satisfiers onlyVersion.terms.entries = .ok found ∧
          PartialSolution.latest found = some (b.package, b.satisfier) ∧
          (fourPackagesMoment 86).1.state.solution.assignments = earlier ++ b :: later ∧
          onlyVersion.CompletedBy earlier few b ∧ onlyVersion.get? b.package = some u ∧
          (fourPackagesMoment 86).1.state.solution.previousLevel (fourPackagesMoment 86).1.state.store
            onlyVersion found b.package b.satisfier = .ok l ∧
          (u.relationWith b.term ≠ .satisfied → l = max (lastLevel few) 1) ∧
          (u.relationWith b.term = .satisfied → ∃ first,
            (fourPackagesMoment 86).1.state.solution.firstAssignment b.package = some first ∧
              l = max (max (lastLevel few) first.level) 1) := by
  have hstored : (fourPackagesMoment 86).1.state.store.get? 9 = some onlyVersion := by
    rw [fourPackagesMoment, fourPackages_ascending.provider_eq]
    decide +kernel
  have hsat : (fourPackagesMoment 86).1.state.solution.standing onlyVersion = .satisfied := by
    rw [fourPackagesMoment, fourPackages_ascending.provider_eq]
    decide +kernel
  have hopen : onlyVersion.isTerminal (fourPackagesMoment 86).1.state.root
      (fourPackagesMoment 86).1.state.rootVersion = false := by
    rw [fourPackagesMoment, fourPackages_ascending.provider_eq]
    decide +kernel
  have hproper : onlyVersion.IsProper := by
    intro q u hu
    obtain ⟨-, rfl⟩ := Prod.mk.inj (List.mem_singleton.mp (onlyVersion.terms.get?_eq_some_iff.mp hu))
    exact Ranges.canonical_complement (Ranges.canonical_singleton 1)
  exact ⟨hstored, hsat, (reached_fourPackagesMoment 86).previousLevel_eq_lastLevel
    (provider_answersProper fourPackages_proper) hproper hopen hsat⟩

def unavailable : Incompatibility ℕ ℕ (Ranges ℕ) String :=
  ⟨.single 3 (.positive .full), .fact (.noVersions 3 .full)⟩

/-- In the conflict that version 2 of package 1 leads to, the only assignment of package 3 is the satisfier and
satisfies the incompatibility alone. The previous level is the level of this assignment nevertheless. -/
theorem previousLevel_unneeded :
    Reached fourPackages.provider () 0 1 (fourPackagesMoment 42).1 (fourPackagesMoment 42).2 ∧
      (fourPackagesMoment 42).1.state.store.get? 4 = some unavailable ∧
      unavailable.isTerminal 0 1 = false ∧
      (fourPackagesMoment 42).1.state.solution.standing unavailable = .satisfied ∧
      ∃ b ∈ (fourPackagesMoment 42).1.state.solution.assignments,
        (fourPackagesMoment 42).1.state.solution.satisfiers unavailable.terms.entries =
            .ok [(b.package, b.satisfier)] ∧
          unavailable.standing (knownFrom [b]) = .satisfied ∧
          (fourPackagesMoment 42).1.state.solution.previousLevel (fourPackagesMoment 42).1.state.store
            unavailable [(b.package, b.satisfier)] b.package b.satisfier = .ok 3 := by
  let d : Derivation ℕ (Ranges ℕ) := ⟨3, .positive .full, 3, 3, 6, .positive .full⟩
  have hlive : ∃ e ∈ (fourPackagesMoment 42).1.state.solution.packages.entries,
      Assignment.derivation d ∈ e.2.assignments := by
    rw [fourPackagesMoment, fourPackages_ascending.provider_eq]
    decide +kernel
  refine ⟨reached_fourPackagesMoment 42, ?_, by decide, ?_, .derivation d,
    List.mem_mergeSort.mpr (List.mem_flatMap.mpr hlive), ?_, by decide +kernel, ?_⟩
  all_goals
    rw [fourPackagesMoment, fourPackages_ascending.provider_eq]
    decide +kernel

end PackageTable

end DependencyResolution
