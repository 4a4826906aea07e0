import DependencyResolution.Proofs.Solver.Catalogue
import DependencyResolution.Proofs.Version.Ranges

/-!
# Package tables are catalogues

A table with proper requirements is a catalogue in which every version is available, and as a provider
the table answers from it: the highest version in a set is a version in the set, and there is none only
if no version of the package is in the set. It never fails and never gives up.
-/

namespace DependencyResolution

namespace PackageTable

variable {P V S : Type} [DecidableEq P] [DecidableEq V]

theorem dependencies?_eq_bind (t : PackageTable P V S) (p : P) (v : V) :
    t.dependencies? p v = (t.entries.get? p).bind fun versions => versions.get? v := by
  rw [dependencies?]
  cases t.entries.get? p <;> rfl

theorem mem_listed_iff {t : PackageTable P V S} {p : P} {v : V} :
    v ∈ t.listed p ↔ ∃ requirements, t.dependencies? p v = some requirements := by
  rw [listed, OrderedMap.mem_keys_iff]
  rfl

theorem dependencies?_empty (p : P) (v : V) :
    (empty : PackageTable P V S).dependencies? p v = none := rfl

theorem dependencies?_add (t : PackageTable P V S) (p q : P) (v w : V) (requirements : OrderedMap P S) :
    (t.add p v requirements).dependencies? q w =
      if p = q ∧ v = w then some requirements else t.dependencies? q w := by
  rw [dependencies?, add, OrderedMap.get?_insert]
  by_cases hp : p = q
  · subst hp
    rw [if_pos rfl, Option.getD_some, OrderedMap.get?_insert, dependencies?]
    simp only [true_and]
  · rw [if_neg hp, if_neg fun h => hp h.1, dependencies?]

theorem mem_packages_add {t : PackageTable P V S} {p q : P} {v : V} {requirements : OrderedMap P S} :
    q ∈ (t.add p v requirements).packages ↔ q = p ∨ q ∈ t.packages :=
  t.entries.mem_keys_insert p q _

section catalogue

variable [VersionSet S V]

def Proper [LawfulVersionSet S V] (t : PackageTable P V S) : Prop :=
  ∀ p v requirements, t.dependencies? p v = some requirements →
    ∀ r ∈ requirements.entries, LawfulVersionSet.Proper r.2

theorem proper_empty [LawfulVersionSet S V] : (empty : PackageTable P V S).Proper := by
  intro p v requirements h
  rw [dependencies?_empty] at h
  cases h

theorem Proper.add [LawfulVersionSet S V] {t : PackageTable P V S} (h : t.Proper) (p : P) (v : V)
    {requirements : OrderedMap P S} (hproper : ∀ r ∈ requirements.entries, LawfulVersionSet.Proper r.2) :
    (t.add p v requirements).Proper := by
  intro q w requirements' hq
  rw [dependencies?_add] at hq
  split_ifs at hq with heq
  · obtain rfl := Option.some.inj hq
    exact hproper
  · exact h q w requirements' hq

def catalogue [LawfulVersionSet S V] (t : PackageTable P V S) (h : t.Proper) :
    Catalogue P V S String where
  entries := t.entries.mapValues fun versions => versions.mapValues .available
  proper := by
    rintro e he f hf requirements hrequirements
    obtain ⟨⟨p, versions⟩, hp, rfl⟩ := List.mem_map.mp he
    obtain ⟨⟨v, requirements'⟩, hv, rfl⟩ := List.mem_map.mp hf
    obtain rfl := Dependencies.available.inj hrequirements
    refine h p v requirements' ?_
    rw [dependencies?_eq_bind, (t.entries.get?_eq_some_iff).mpr hp]
    exact (versions.get?_eq_some_iff).mpr hv

theorem find?_catalogue [LawfulVersionSet S V] {t : PackageTable P V S} (h : t.Proper) (p : P) (v : V) :
    (t.catalogue h).find? p v = (t.dependencies? p v).map .available := by
  rw [dependencies?_eq_bind, Catalogue.find?, catalogue, OrderedMap.get?_mapValues]
  cases t.entries.get? p with
  | none => rfl
  | some versions => exact versions.get?_mapValues _ v

/-! ## The answers -/

variable [LT V] [DecidableLT V] {t : PackageTable P V S} {p : P} {versions : S} {v : V}

omit [VersionSet S V] in
theorem mem_versions_iff : v ∈ t.versions p ↔ v ∈ t.listed p := List.mem_mergeSort

theorem contains_of_highest (h : t.highest p versions = some v) :
    VersionSet.contains versions v = true ∧ v ∈ t.listed p := by
  refine ⟨List.find?_some h, ?_⟩
  rw [← mem_versions_iff, ← List.mem_reverse]
  exact List.mem_of_find?_eq_some h

theorem highest_eq_none_iff :
    t.highest p versions = none ↔ ∀ v ∈ t.listed p, VersionSet.contains versions v = false := by
  simp only [highest, List.find?_eq_none, List.mem_reverse, mem_versions_iff, Bool.not_eq_true]

def Ascending (t : PackageTable P V S) : Prop :=
  ∀ versions ∈ t.entries.entries.map fun e => e.2.keys, versions.Pairwise fun v w => ¬ w < v

omit [VersionSet S V] in
theorem Ascending.versions_eq (h : t.Ascending) (p : P) : t.versions p = t.listed p := by
  have hlisted : (t.listed p).Pairwise fun v w => ¬ w < v := by
    rw [listed]
    cases hp : t.entries.get? p with
    | none => exact .nil
    | some versions => exact h _ (List.mem_map_of_mem (t.entries.get?_eq_some_iff.mp hp))
  exact List.mergeSort_of_pairwise (hlisted.imp fun hvw => by simpa using hvw)

/-- In an ascending table the highest version in a set is the last one that was added. -/
theorem Ascending.provider_eq (h : t.Ascending) :
    t.provider = { t.provider with
      chooseVersion := fun p versions s =>
        (.ok ((t.listed p).reverse.find? (VersionSet.contains versions)), s) } := by
  simp only [provider, highest, h.versions_eq]

theorem provider_answersFrom [LawfulVersionSet S V] (h : t.Proper) :
    t.provider.AnswersFrom (t.catalogue h) where
  absent p versions c hnone v d hd := by
    rw [find?_catalogue, Option.map_eq_some_iff] at hd
    obtain ⟨requirements, hrequirements, -⟩ := hd
    exact highest_eq_none_iff.mp (Except.ok.inj hnone) v (mem_listed_iff.mpr ⟨requirements, hrequirements⟩)
  chosen p versions c v hsome := by
    obtain ⟨hin, hmem⟩ := contains_of_highest (Except.ok.inj hsome)
    obtain ⟨requirements, hrequirements⟩ := mem_listed_iff.mp hmem
    exact ⟨hin, .available requirements, by rw [find?_catalogue, hrequirements, Option.map_some]⟩
  told p v c d d' hd hd' := by
    rw [find?_catalogue, Option.map_eq_some_iff] at hd'
    obtain ⟨requirements, hrequirements, rfl⟩ := hd'
    rw [← Except.ok.inj hd, dependencies, hrequirements]

theorem provider_answersProper [LawfulVersionSet S V] (h : t.Proper) : t.provider.AnswersProper :=
  (provider_answersFrom h).answersProper

theorem provider_faultless (t : PackageTable P V S) : t.provider.Faultless where
  prioritize _ _ _ _ h := by cases h
  chooseVersion _ _ _ _ h := by cases h
  dependencies _ _ _ _ h := by cases h
  shouldCancel _ := rfl

end catalogue

/-! ## Small tables -/

theorem proper_single (p : ℕ) {versions : Ranges ℕ} (h : LawfulVersionSet.Proper versions) :
    ∀ r ∈ (OrderedMap.single p versions).entries, LawfulVersionSet.Proper r.2 := by
  intro r hr
  obtain rfl := List.mem_singleton.mp hr
  exact h

theorem proper_single_full (p : ℕ) :
    ∀ r ∈ (OrderedMap.single p .full : OrderedMap ℕ (Ranges ℕ)).entries, LawfulVersionSet.Proper r.2 :=
  proper_single p Ranges.canonical_full

theorem proper_single_atLeast (p v : ℕ) :
    ∀ r ∈ (OrderedMap.single p (.atLeast v) : OrderedMap ℕ (Ranges ℕ)).entries,
      LawfulVersionSet.Proper r.2 :=
  proper_single p (Ranges.canonical_atLeast v)

/-- Package 0 has version 1, which requires package 1 from version 2 on, and package 1 has one
version. -/
def twoPackages (v : ℕ) : PackageTable ℕ ℕ (Ranges ℕ) :=
  (PackageTable.empty.add 0 1 (.single 1 (.atLeast 2))).add 1 v .empty

theorem twoPackages_proper (v : ℕ) : (twoPackages v).Proper :=
  (proper_empty.add 0 1 (proper_single_atLeast 1 2)).add 1 v fun r hr => by cases hr

/-- Package 0 requires package 1, which has two versions. What version 1 requires is given; version 2
requires package 2 from version 2 on, of which there is version 1 only. -/
def threePackages (requirements : OrderedMap ℕ (Ranges ℕ)) : PackageTable ℕ ℕ (Ranges ℕ) :=
  (((PackageTable.empty.add 0 1 (.single 1 (.atLeast 1))).add 1 1 requirements).add 1 2
    (.single 2 (.atLeast 2))).add 2 1 .empty

theorem threePackages_proper {requirements : OrderedMap ℕ (Ranges ℕ)}
    (h : ∀ r ∈ requirements.entries, LawfulVersionSet.Proper r.2) : (threePackages requirements).Proper :=
  (((proper_empty.add 0 1 (proper_single_atLeast 1 1)).add 1 1 h).add 1 2 (proper_single_atLeast 2 2)).add 2 1
    fun r hr => by cases hr

theorem threePackages_ascending (requirements : OrderedMap ℕ (Ranges ℕ)) :
    (threePackages requirements).Ascending := by
  change ∀ versions ∈ [[1], [1, 2], [1]], versions.Pairwise fun v w => ¬ w < v
  decide

/-- Package 0 requires package 1, which has two versions. Both require package 2, and version 2 requires
the only version there is of it, which requires package 3, of which there is none. -/
def fourPackages : PackageTable ℕ ℕ (Ranges ℕ) :=
  (((PackageTable.empty.add 0 1 (.single 1 .full)).add 1 1 (.single 2 .full)).add 1 2
    (.single 2 (.singleton 1))).add 2 1 (.single 3 .full)

theorem fourPackages_proper : fourPackages.Proper :=
  (((proper_empty.add 0 1 (proper_single_full 1)).add 1 1 (proper_single_full 2)).add 1 2
    (proper_single 2 (Ranges.canonical_singleton 1))).add 2 1 (proper_single_full 3)

theorem fourPackages_ascending : fourPackages.Ascending := by
  change ∀ versions ∈ [[1], [1, 2], [1]], versions.Pairwise fun v w => ¬ w < v
  decide

end PackageTable

end DependencyResolution
