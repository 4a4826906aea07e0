import DependencyResolution.Proofs.Explanation.Shortening
import DependencyResolution.Proofs.Solver.Termination
import Mathlib.Data.List.Sort

/-!
# The order of entries

What a table answers depends on what it says of each version of each package and not on the order in which its
entries were added: the versions of a package are counted or sorted before anything is made of them, and all else is
looked up (`PackageTable.provider_eq_of_dependencies?`). So if the same entries are added in another order, each for
another version of a package, every run takes the same steps and ends with the same solution or the same
explanation (`PackageTable.resolveWithin_perm`).
-/

namespace DependencyResolution

namespace PackageTable

/-! ## Entries -/

section entries

variable {P V S : Type} [DecidableEq P] [DecidableEq V] {t t' : PackageTable P V S}

/-- The table to which these entries have been added, one after the other. -/
def ofEntries (entries : List (P × V × OrderedMap P S)) : PackageTable P V S :=
  entries.foldl (fun t e => t.add e.1 e.2.1 e.2.2) .empty

def subject (e : P × V × OrderedMap P S) : P × V := (e.1, e.2.1)

/-- After entries for different versions were added, the table says what they say, and what it said before of all
other versions. -/
theorem dependencies?_foldl_add (entries : List (P × V × OrderedMap P S)) (t : PackageTable P V S)
    (hsubjects : (entries.map subject).Nodup) (p : P) (v : V) (requirements : OrderedMap P S) :
    (entries.foldl (fun t e => t.add e.1 e.2.1 e.2.2) t).dependencies? p v = some requirements ↔
      (p, v, requirements) ∈ entries ∨
        (p, v) ∉ entries.map subject ∧ t.dependencies? p v = some requirements := by
  induction entries generalizing t with
  | nil => simp
  | cons e entries ih =>
    obtain ⟨q, w, requirements'⟩ := e
    rw [List.map_cons, List.nodup_cons] at hsubjects
    rw [List.foldl_cons, ih _ hsubjects.2, dependencies?_add]
    by_cases hsame : q = p ∧ w = v
    · -- nothing later is for this version
      obtain ⟨rfl, rfl⟩ := hsame
      have hlater : (q, w, requirements) ∉ entries := fun hmem =>
        hsubjects.1 (List.mem_map.mpr ⟨_, hmem, rfl⟩)
      have hnot : (q, w) ∉ entries.map subject := hsubjects.1
      simp [hlater, hnot, subject, eq_comm]
    · have hne : (p, v) ≠ (q, w) := fun h => hsame ⟨(Prod.ext_iff.mp h).1.symm, (Prod.ext_iff.mp h).2.symm⟩
      have hne' : (p, v, requirements) ≠ (q, w, requirements') := fun h => by
        cases h
        exact hne rfl
      rw [if_neg hsame, List.mem_cons, List.map_cons, List.mem_cons, subject]
      simp [hne, hne']

theorem dependencies?_ofEntries {entries : List (P × V × OrderedMap P S)}
    (hsubjects : (entries.map subject).Nodup) {p : P} {v : V} {requirements : OrderedMap P S} :
    (ofEntries entries).dependencies? p v = some requirements ↔ (p, v, requirements) ∈ entries := by
  rw [ofEntries, dependencies?_foldl_add entries .empty hsubjects, dependencies?_empty]
  simp

theorem dependencies?_ofEntries_perm {entries entries' : List (P × V × OrderedMap P S)}
    (hperm : entries.Perm entries') (hsubjects : (entries.map subject).Nodup) (p : P) (v : V) :
    (ofEntries entries).dependencies? p v = (ofEntries entries').dependencies? p v := by
  have hsubjects' : (entries'.map subject).Nodup := (hperm.map subject).nodup_iff.mp hsubjects
  refine Option.ext fun requirements => ?_
  rw [dependencies?_ofEntries hsubjects, dependencies?_ofEntries hsubjects', hperm.mem_iff]

theorem perm_listed (h : ∀ p v, t.dependencies? p v = t'.dependencies? p v) (p : P) :
    (t.listed p).Perm (t'.listed p) := by
  have hnodup : ∀ t : PackageTable P V S, (t.listed p).Nodup := fun t =>
    ((t.entries.get? p).getD .empty).nodup
  rw [List.perm_ext_iff_of_nodup (hnodup t) (hnodup t')]
  intro v
  rw [mem_listed_iff, mem_listed_iff, h p v]

end entries

/-! ## Answers -/

section answers

variable {P V : Type} [DecidableEq P] [LinearOrder V] {t t' : PackageTable P V (Ranges V)}

theorem versions_eq_of_dependencies? (h : ∀ p v, t.dependencies? p v = t'.dependencies? p v) :
    t.versions = t'.versions := by
  funext p
  have hperm : (t.versions p).Perm (t'.versions p) :=
    (List.mergeSort_perm _ _).trans ((perm_listed h p).trans (List.mergeSort_perm _ _).symm)
  exact hperm.eq_of_pairwise' (t.pairwise_versions p) (t'.pairwise_versions p)

theorem provider_eq_of_dependencies? (h : ∀ p v, t.dependencies? p v = t'.dependencies? p v) :
    t.provider = t'.provider := by
  have hprioritize : t.prioritize = t'.prioritize := by
    funext p versions
    rw [prioritize, prioritize, (perm_listed h p).countP_eq]
  have hhighest : t.highest = t'.highest := by
    funext p versions
    rw [highest, highest, versions_eq_of_dependencies? h]
  have hdependencies : t.dependencies = t'.dependencies := by
    funext p v
    rw [dependencies, dependencies, h p v]
  rw [provider, provider, hprioritize, hhighest, hdependencies]

theorem ofEntries_proper {entries : List (P × V × OrderedMap P (Ranges V))}
    (hsubjects : (entries.map subject).Nodup)
    (hproper : ∀ e ∈ entries, ∀ r ∈ e.2.2.entries, r.2.Canonical) : (ofEntries entries).Proper :=
  fun _ _ _ hmem => hproper _ ((dependencies?_ofEntries hsubjects).mp hmem)

/-! ## Runs -/

/-- A table gives the same whatever the order in which its entries were added, if no two are for the same version of
a package: runs of any number of steps are the same, and with enough steps they end with the same solution, in the
same order, or for want of one with the same explanation, which stays the same when it is collapsed and simplified
against the known versions. -/
theorem resolveWithin_perm {entries entries' : List (P × V × OrderedMap P (Ranges V))}
    (hperm : entries.Perm entries') (hsubjects : (entries.map subject).Nodup)
    (hproper : ∀ e ∈ entries, ∀ r ∈ e.2.2.entries, r.2.Canonical) (root : P) (version : V) :
    let t := ofEntries entries
    let t' := ofEntries entries'
    (∀ n, resolveWithin n t.provider () root version = resolveWithin n t'.provider () root version) ∧
    ∃ N outcome outcome',
      (∀ n, N ≤ n → resolveWithin n t.provider () root version = outcome ∧
        resolveWithin n t'.provider () root version = outcome') ∧
      ((∃ solution, outcome.1 = .ok solution ∧ outcome'.1 = .ok solution) ∨
        ∃ id, outcome.1 = .error (.noSolution id) ∧ outcome'.1 = .error (.noSolution id) ∧
          let e := Explanation.ofStore outcome.2.state.store id
          let e' := Explanation.ofStore outcome'.2.state.store id
          e = e' ∧ e.collapse = e'.collapse ∧
            e.collapse.simplify t.versions = e'.collapse.simplify t'.versions) := by
  intro t t'
  have hsame := dependencies?_ofEntries_perm hperm hsubjects
  have hprovider : t.provider = t'.provider := provider_eq_of_dependencies? hsame
  have hversions : t.versions = t'.versions := versions_eq_of_dependencies? hsame
  obtain ⟨N, outcome, hrun, hends⟩ :=
    resolveWithin_ends (provider_answersFrom (ofEntries_proper hsubjects hproper)) () root version
  refine ⟨fun n => by rw [hprovider], N, outcome, outcome, fun n hn => ⟨hrun n hn, hprovider ▸ hrun n hn⟩, ?_⟩
  rcases hends (provider_faultless t) with ⟨solution, hsolution⟩ | ⟨id, hid⟩
  · exact .inl ⟨solution, hsolution, hsolution⟩
  · exact .inr ⟨id, hid, hid, rfl, rfl, by rw [hversions]⟩

end answers

/-- What version 1 of package 0 and the two versions of package 1 require, in ascending order. -/
def ascendingEntries : List (ℕ × ℕ × OrderedMap ℕ (Ranges ℕ)) :=
  [(0, 1, .single 1 (.atLeast 1)), (1, 1, .single 2 (.atLeast 2)), (1, 2, .single 2 (.atLeast 2)), (2, 1, .empty)]

/-- Added in descending order they lead to the same explanation. -/
theorem resolveWithin_reverse_ascendingEntries :
    (ascendingEntries.map subject).Nodup ∧
      (resolveWithin 90 (ofEntries ascendingEntries).provider () 0 1).1 = .error (.noSolution 10) ∧
      (resolveWithin 90 (ofEntries ascendingEntries.reverse).provider () 0 1).1 = .error (.noSolution 10) ∧
      Explanation.ofStore (resolveWithin 90 (ofEntries ascendingEntries).provider () 0 1).2.state.store 10 =
        Explanation.ofStore (resolveWithin 90 (ofEntries ascendingEntries.reverse).provider () 0
          1).2.state.store 10 := by
  have hsubjects : (ascendingEntries.map subject).Nodup := by decide
  have hproper : ∀ e ∈ ascendingEntries, ∀ r ∈ e.2.2.entries, r.2.Canonical := fun e he =>
    threePackages_proper (proper_single_atLeast 2 2) e.1 e.2.1 e.2.2 ((dependencies?_ofEntries hsubjects).mpr he)
  have hrun : (resolveWithin 90 (ofEntries ascendingEntries).provider () 0 1).1 = .error (.noSolution 10) := by
    change (resolveWithin 90 (threePackages (.single 2 (.atLeast 2))).provider () 0 1).1 = _
    rw [(threePackages_ascending _).provider_eq]
    decide +kernel
  have hsame := (resolveWithin_perm (List.reverse_perm ascendingEntries).symm hsubjects hproper 0 1).1 90
  exact ⟨hsubjects, hrun, hsame ▸ hrun, by rw [hsame]⟩

end PackageTable

end DependencyResolution
