import DependencyResolution.Index.Basic
import DependencyResolution.Proofs.Outcome
import DependencyResolution.Proofs.PackageTable
import DependencyResolution.Proofs.Version.Constraint

/-!
# What an index keeps of its data

An index is read from data whose keys are scalars of any kind, while the index itself goes by texts and by
parsed versions, so that different keys may come to mean the same. Reading data is reading its entries, one
version of one package each, one after another, whichever keys they stand under
(`foldlM_addPackage_eq_ok_iff`). Entries for the same version of the same package are refused, within a
package and across packages, and what is read holds these entries and nothing else (`holds_of_foldlM`).

The dependencies of one version are not guarded in this way: of constraints under keys with the same text
the last one counts, and the others are dropped without an error (`ofDatum_drops_constraint`). Every other
constraint is kept as it is (`ofDatum_keeps`).
-/

namespace DependencyResolution

open Text

namespace Index

@[simp]
theorem textOf_eq_ok_iff {α : Type} [Shown α] {a : α} {s : String} :
    textOf a = .ok s ↔ Shown.isWritable a = true ∧ Shown.text a = s := by
  rw [textOf, mapError_eq_ok_iff, Shown.written]
  split_ifs with h <;> simp [h]

@[simp]
theorem refuse_ne_ok {α : Type} {package : Scalar} {e : IndexError} {a : α} : refuse package e ≠ .ok a := by
  rw [refuse]
  split <;> simp

theorem versionOf_eq_ok_iff {package key : Scalar} {v : SemanticVersion} : versionOf package key = .ok v ↔
    Shown.isWritable key = true ∧ SemanticVersion.parse (Shown.text key) = .ok v := by
  simp only [versionOf, bind_eq_ok_iff, textOf_eq_ok_iff, and_assoc, exists_and_left, exists_eq_left']
  refine and_congr_right fun _ => ?_
  split <;> simp [*]

/-! ## Dependencies -/

variable {needed needed' : OrderedMap String (Ranges SemanticVersion)} {listed : List (Scalar × Datum)}

/-- The entries under a version; null stands for none. -/
def dependencyEntries? : Datum → Option (List (Scalar × Datum))
  | .scalar .null => some []
  | .mapping listed => some listed
  | _ => none

/-- The requirements are what the entries under a version say, of entries with the same text as key the
last one. -/
structure Requires (listed : List (Scalar × Datum))
    (needed : OrderedMap String (Ranges SemanticVersion)) : Prop where
  kept : ∀ before d after, listed = before ++ d :: after → ∃ constraint allowed,
    Constraint.parse .semantic (Shown.text d.2) = .ok constraint ∧
      needed.get? (Shown.text d.1) = some allowed ∧
      ((∀ e ∈ after, Shown.text e.1 ≠ Shown.text d.1) → allowed = constraint)
  only : ∀ package allowed, needed.get? package = some allowed → ∃ d ∈ listed,
    Shown.text d.1 = package ∧ Constraint.parse .semantic (Shown.text d.2) = .ok allowed

theorem requires_nil : Requires [] .empty where
  kept before d after h := by simp at h
  only package allowed h := by cases h

theorem eq_insert_of_addRequirement {package version : Scalar} {d : Scalar × Datum}
    (h : addRequirement package version needed d = .ok needed') : ∃ constraint,
      Constraint.parse .semantic (Shown.text d.2) = .ok constraint ∧
        needed' = needed.insert (Shown.text d.1) constraint := by
  simp only [addRequirement, bind_eq_ok_iff, textOf_eq_ok_iff] at h
  obtain ⟨_, ⟨-, rfl⟩, _, ⟨-, rfl⟩, h⟩ := h
  split at h
  · next constraint hconstraint => exact ⟨constraint, hconstraint, (Except.ok.inj h).symm⟩
  · exact absurd h refuse_ne_ok

theorem Requires.concat {package version : Scalar} {d : Scalar × Datum} (h : Requires listed needed)
    (hd : addRequirement package version needed d = .ok needed') : Requires (listed ++ [d]) needed' := by
  obtain ⟨constraint, hconstraint, rfl⟩ := eq_insert_of_addRequirement hd
  constructor
  · intro before e after heq
    rcases List.eq_nil_or_concat' after with rfl | ⟨after, last, rfl⟩
    · obtain ⟨-, heq⟩ := List.append_inj' heq rfl
      obtain rfl := List.singleton_inj.mp heq
      exact ⟨constraint, constraint, hconstraint, by rw [OrderedMap.get?_insert, if_pos rfl], fun _ => rfl⟩
    · rw [← List.cons_append, ← List.append_assoc] at heq
      obtain ⟨hlisted, heq⟩ := List.append_inj' heq rfl
      obtain rfl := List.singleton_inj.mp heq
      obtain ⟨constraint', allowed, hparse, hget, hlast⟩ := h.kept before e after hlisted
      by_cases htext : Shown.text d.1 = Shown.text e.1
      · -- the new entry takes the place of the earlier one, which is then not the last of its text
        refine ⟨constraint', constraint, hparse, by rw [OrderedMap.get?_insert, if_pos htext], fun hnone => ?_⟩
        exact absurd htext (hnone d (by simp))
      · refine ⟨constraint', allowed, hparse, by rw [OrderedMap.get?_insert, if_neg htext, hget], fun hnone => ?_⟩
        exact hlast fun f hf => hnone f (List.mem_append_left _ hf)
  · intro package allowed hallowed
    rw [OrderedMap.get?_insert] at hallowed
    split_ifs at hallowed with htext
    · obtain rfl := Option.some.inj hallowed
      exact ⟨d, by simp, htext, hconstraint⟩
    · obtain ⟨e, he, hrest⟩ := h.only package allowed hallowed
      exact ⟨e, List.mem_append_left _ he, hrest⟩

theorem requires_of_requirements {package version : Scalar} {data : Datum}
    (h : requirements package version data = .ok needed) :
    ∃ listed, dependencyEntries? data = some listed ∧ Requires listed needed := by
  unfold requirements at h
  split at h
  · obtain rfl := Except.ok.inj h
    exact ⟨[], rfl, requires_nil⟩
  · next listed =>
    exact ⟨listed, rfl, foldlM_keeps Requires (fun _ _ _ _ => Requires.concat) [] listed requires_nil h⟩
  · exact absurd h refuse_ne_ok

/-! ## Versions -/

/-- One version of a package, as data lists it. -/
structure Entry where
  package : Scalar
  version : Scalar
  dependencies : Datum

def entriesUnder : Scalar × Datum → List Entry
  | (package, .mapping versions) => versions.map fun v => ⟨package, v.1, v.2⟩
  | _ => []

def entries (packages : List (Scalar × Datum)) : List Entry := packages.flatMap entriesUnder

/-- The entry stands for a version with these requirements. -/
structure Entry.Denotes (e : Entry) (v : SemanticVersion)
    (needed : OrderedMap String (Ranges SemanticVersion)) : Prop where
  version : SemanticVersion.parse (Shown.text e.version) = .ok v
  needed : requirements e.package e.version e.dependencies = .ok needed
  writable : Shown.isWritable e.package = true ∧ Shown.isWritable e.version = true

/-- Two entries stand for the same version of the same package. -/
def Entry.Clash (e f : Entry) : Prop :=
  Shown.text e.package = Shown.text f.package ∧ ∃ v,
    SemanticVersion.parse (Shown.text e.version) = .ok v ∧
      SemanticVersion.parse (Shown.text f.version) = .ok v

def addEntry (index : Index) (e : Entry) : Except IndexError Index :=
  addVersion e.package index (e.version, e.dependencies)

variable {index index' : Index} {e : Entry} {es : List Entry} {packages : List (Scalar × Datum)}

theorem addEntry_eq_ok_iff : addEntry index e = .ok index' ↔ ∃ v needed, e.Denotes v needed ∧
    index.dependencies? (Shown.text e.package) v = none ∧
      index' = index.add (Shown.text e.package) v needed := by
  simp only [addEntry, addVersion, bind_eq_ok_iff, versionOf_eq_ok_iff, textOf_eq_ok_iff]
  constructor
  · rintro ⟨v, ⟨hkey, hversion⟩, needed, hneeded, _, ⟨hpackage, rfl⟩, h⟩
    split_ifs at h with hthere
    exact ⟨v, needed, ⟨hversion, hneeded, hpackage, hkey⟩, by simpa using hthere, (Except.ok.inj h).symm⟩
  · rintro ⟨v, needed, ⟨hversion, hneeded, hpackage, hkey⟩, hnone, rfl⟩
    exact ⟨v, ⟨hkey, hversion⟩, needed, hneeded, _, ⟨hpackage, rfl⟩, if_neg (by simp [hnone])⟩

theorem foldlM_addPackage_eq_ok_iff : packages.foldlM addPackage index = .ok index' ↔
    (∀ p ∈ packages, ∃ versions, p.2 = .mapping versions) ∧
      (entries packages).foldlM addEntry index = .ok index' := by
  induction packages generalizing index with
  | nil => simp [entries]
  | cons p packages ih =>
    obtain ⟨package, data⟩ := p
    have hentries : entries ((package, data) :: packages) =
        entriesUnder (package, data) ++ entries packages := List.flatMap_cons
    rw [List.foldlM_cons, List.forall_mem_cons, hentries, List.foldlM_append]
    cases data with
    | mapping versions =>
      have hadd : addPackage index (package, .mapping versions) =
          (entriesUnder (package, .mapping versions)).foldlM addEntry index := by
        rw [addPackage, entriesUnder, List.foldlM_map]
        rfl
      simp only [hadd, bind_eq_ok_iff, ih]
      constructor
      · rintro ⟨next, hnext, hrest, hfold⟩
        exact ⟨⟨⟨versions, rfl⟩, hrest⟩, next, hnext, hfold⟩
      · rintro ⟨⟨-, hrest⟩, next, hnext, hfold⟩
        exact ⟨next, hnext, hrest, hfold⟩
    | scalar s => simp [addPackage, bind_eq_ok_iff]
    | list items => simp [addPackage, bind_eq_ok_iff]

/-- The index holds the entries, no two of them for the same version, and nothing else. -/
structure Holds (es : List Entry) (index : Index) : Prop where
  readable : ∀ e ∈ es, ∃ v needed, e.Denotes v needed
  apart : es.Pairwise fun e f => ¬ e.Clash f
  found : ∀ p v needed, index.dependencies? p v = some needed ↔
    ∃ e ∈ es, Shown.text e.package = p ∧ e.Denotes v needed
  named : ∀ p, p ∈ index.packages ↔ ∃ e ∈ es, Shown.text e.package = p

theorem holds_empty : Holds [] PackageTable.empty where
  readable e he := by cases he
  apart := .nil
  found p v needed := by simp [PackageTable.dependencies?_empty]
  named p := by simp [PackageTable.packages, PackageTable.empty, OrderedMap.keys, OrderedMap.empty]

theorem Holds.dependencies?_eq_none_iff (h : Holds es index) {v : SemanticVersion}
    (hv : SemanticVersion.parse (Shown.text e.version) = .ok v) :
    index.dependencies? (Shown.text e.package) v = none ↔ ∀ f ∈ es, ¬ f.Clash e := by
  constructor
  · rintro hnone f hf ⟨htext, w, hfw, hew⟩
    obtain ⟨v', needed, hdenotes⟩ := h.readable f hf
    obtain rfl := Except.ok.inj (hfw.symm.trans hdenotes.version)
    obtain rfl := Except.ok.inj (hew.symm.trans hv)
    have hsome := (h.found _ _ _).mpr ⟨f, hf, htext, hdenotes⟩
    rw [hnone] at hsome
    cases hsome
  · intro hclash
    rw [Option.eq_none_iff_forall_ne_some]
    intro needed hsome
    obtain ⟨f, hf, htext, hdenotes⟩ := (h.found _ _ _).mp hsome
    exact hclash f hf ⟨htext, v, hdenotes.version, hv⟩

theorem Holds.concat (h : Holds es index) (he : addEntry index e = .ok index') : Holds (es ++ [e]) index' := by
  obtain ⟨v, needed, hdenotes, hnone, rfl⟩ := addEntry_eq_ok_iff.mp he
  have hclash := (h.dependencies?_eq_none_iff hdenotes.version).mp hnone
  constructor
  · intro f hf
    rcases List.mem_append.mp hf with hf | hf
    · exact h.readable f hf
    · obtain rfl := List.mem_singleton.mp hf
      exact ⟨v, needed, hdenotes⟩
  · rw [List.pairwise_append]
    refine ⟨h.apart, List.pairwise_singleton _ _, fun f hf g hg => ?_⟩
    obtain rfl := List.mem_singleton.mp hg
    exact hclash f hf
  · intro p w needed'
    rw [PackageTable.dependencies?_add]
    simp only [List.mem_append, List.mem_singleton, or_and_right, exists_or, exists_eq_left]
    split_ifs with hsame
    · obtain ⟨rfl, rfl⟩ := hsame
      rw [← h.found, hnone]
      simp only [reduceCtorEq, false_or, true_and, Option.some.injEq]
      constructor
      · rintro rfl
        exact hdenotes
      · exact fun hdenotes' => Except.ok.inj (hdenotes.needed.symm.trans hdenotes'.needed)
    · rw [← h.found]
      refine (or_iff_left ?_).symm
      rintro ⟨rfl, hdenotes'⟩
      exact hsame ⟨rfl, Except.ok.inj (hdenotes.version.symm.trans hdenotes'.version)⟩
  · intro p
    rw [PackageTable.mem_packages_add, h.named]
    simp only [List.mem_append, List.mem_singleton, or_and_right, exists_or, exists_eq_left]
    rw [or_comm, eq_comm]

theorem holds_of_foldlM (h : es.foldlM addEntry PackageTable.empty = .ok index) : Holds es index :=
  foldlM_keeps Holds (fun _ _ _ _ => Holds.concat) [] es holds_empty h

theorem exists_foldlM_addEntry (hreadable : ∀ e ∈ es, ∃ v needed, e.Denotes v needed)
    (hapart : es.Pairwise fun e f => ¬ e.Clash f) :
    ∃ index, es.foldlM addEntry PackageTable.empty = .ok index := by
  induction es using List.reverseRecOn with
  | nil => exact ⟨.empty, rfl⟩
  | append_singleton es e ih =>
    rw [List.pairwise_append] at hapart
    obtain ⟨index, hindex⟩ := ih (fun f hf => hreadable f (List.mem_append_left _ hf)) hapart.1
    obtain ⟨v, needed, hdenotes⟩ := hreadable e (by simp)
    have hnone := ((holds_of_foldlM hindex).dependencies?_eq_none_iff hdenotes.version).mpr
      fun f hf => hapart.2.2 f hf e (by simp)
    have hlast : addEntry index e = .ok (index.add (Shown.text e.package) v needed) :=
      addEntry_eq_ok_iff.mpr ⟨v, needed, hdenotes, hnone, rfl⟩
    refine ⟨index.add (Shown.text e.package) v needed, ?_⟩
    rw [List.foldlM_append, hindex]
    change [e].foldlM addEntry index = _
    rw [List.foldlM_cons, hlast]
    rfl

/-- Data is an index exactly if every package maps to a mapping, every entry can be read, and no two
entries stand for the same version of the same package. -/
theorem exists_ofDatum_iff : (∃ index, ofDatum (.mapping packages) = .ok index) ↔
    (∀ p ∈ packages, ∃ versions, p.2 = .mapping versions) ∧
      (∀ e ∈ entries packages, ∃ v needed, e.Denotes v needed) ∧
      (entries packages).Pairwise fun e f => ¬ e.Clash f := by
  simp only [ofDatum, foldlM_addPackage_eq_ok_iff, exists_and_left]
  refine and_congr_right fun _ => ⟨?_, fun h => exists_foldlM_addEntry h.1 h.2⟩
  rintro ⟨index, hindex⟩
  exact ⟨(holds_of_foldlM hindex).readable, (holds_of_foldlM hindex).apart⟩

/-- An index that is read holds what the data lists, and nothing else: every entry under its package and
version, with the last constraint under each text; no package, version or requirement comes from
elsewhere, and no entry takes the place of another. -/
theorem ofDatum_keeps (h : ofDatum (.mapping packages) = .ok index) :
    (∀ p ∈ packages, ∃ versions, p.2 = .mapping versions) ∧
    (∀ e ∈ entries packages, ∃ v needed listed,
      SemanticVersion.parse (Shown.text e.version) = .ok v ∧
        index.dependencies? (Shown.text e.package) v = some needed ∧
        dependencyEntries? e.dependencies = some listed ∧ Requires listed needed) ∧
    (entries packages).Pairwise (fun e f => ¬ e.Clash f) ∧
    (∀ p, p ∈ index.packages ↔ ∃ e ∈ entries packages, Shown.text e.package = p) ∧
    ∀ p v, v ∈ index.versions p ↔ ∃ e ∈ entries packages,
      Shown.text e.package = p ∧ SemanticVersion.parse (Shown.text e.version) = .ok v := by
  obtain ⟨hmappings, hfold⟩ := foldlM_addPackage_eq_ok_iff.mp h
  have hholds := holds_of_foldlM hfold
  refine ⟨hmappings, fun e he => ?_, hholds.apart, hholds.named, fun p v => ?_⟩
  · obtain ⟨v, needed, hdenotes⟩ := hholds.readable e he
    obtain ⟨listed, hlisted, hrequires⟩ := requires_of_requirements hdenotes.needed
    exact ⟨v, needed, listed, hdenotes.version, (hholds.found _ _ _).mpr ⟨e, he, rfl, hdenotes⟩,
      hlisted, hrequires⟩
  · rw [PackageTable.mem_versions_iff, PackageTable.mem_listed_iff]
    simp only [hholds.found]
    constructor
    · rintro ⟨needed, e, he, htext, hdenotes⟩
      exact ⟨e, he, htext, hdenotes.version⟩
    · rintro ⟨e, he, htext, hversion⟩
      obtain ⟨w, needed, hdenotes⟩ := hholds.readable e he
      obtain rfl := Except.ok.inj (hversion.symm.trans hdenotes.version)
      exact ⟨needed, e, he, htext, hdenotes⟩

/-- The root requires one package under two spellings of its name, as a number and as a text. -/
def twoSpellings : List (Scalar × Datum) :=
  [(.text "root", .mapping [(.text "1", .mapping [(.integer 1, .ofString "<2"), (.text "1", .ofString "*")])]),
    (.integer 1, .mapping [(.integer 2, .null)])]

theorem exists_ofDatum_twoSpellings : ∃ index, ofDatum (.mapping twoSpellings) = .ok index := by
  have hread : (ofDatum (.mapping twoSpellings)).isOk = true := by decide +kernel
  cases h : ofDatum (.mapping twoSpellings) with
  | error cause =>
    rw [h] at hread
    cases hread
  | ok index => exact ⟨index, rfl⟩

theorem twoSpellings_kept : ∃ index, ofDatum (.mapping twoSpellings) = .ok index ∧
    (∀ p, p ∈ index.packages ↔ p = "root" ∨ p = "1") ∧ ∃ needed,
      index.dependencies? "root" ⟨1, 0, 0⟩ = some needed ∧ needed.get? "1" = some .full := by
  obtain ⟨index, hindex⟩ := exists_ofDatum_twoSpellings
  obtain ⟨-, hentries, -, hpackages, -⟩ := ofDatum_keeps hindex
  obtain ⟨v, needed, listed, hversion, hneeded, hlisted, hrequires⟩ := hentries _ List.mem_cons_self
  obtain rfl := Option.some.inj hlisted
  have hone : SemanticVersion.parse "1" = .ok ⟨1, 0, 0⟩ := by decide +kernel
  obtain rfl := Except.ok.inj (hversion.symm.trans hone)
  obtain ⟨constraint, allowed, hconstraint, hallowed, hlast⟩ :=
    hrequires.kept [(.integer 1, .ofString "<2")] (.text "1", .ofString "*") [] rfl
  have hfull : Constraint.parse .semantic "*" = .ok .full := by decide +kernel
  obtain rfl := Except.ok.inj (hconstraint.symm.trans hfull)
  obtain rfl := hlast nofun
  refine ⟨index, hindex, fun p => ?_, needed, hneeded, hallowed⟩
  have hname : Shown.text (Scalar.integer 1) = "1" := by decide +kernel
  rw [hpackages]
  simp only [entries, twoSpellings, entriesUnder, List.flatMap_cons, List.flatMap_nil, List.map_cons,
    List.map_nil, List.singleton_append, List.append_nil, List.mem_cons, List.not_mem_nil, or_false,
    exists_eq_or_imp, exists_eq_left, hname]
  exact or_congr eq_comm eq_comm

/-- The first of two constraints under keys with the same text is dropped: what it forbids is allowed. -/
theorem ofDatum_drops_constraint : ∃ index needed allowed constraint,
    ofDatum (.mapping twoSpellings) = .ok index ∧
      index.dependencies? "root" ⟨1, 0, 0⟩ = some needed ∧
      needed.get? (Shown.text (Scalar.integer 1)) = some allowed ∧
      Constraint.parse .semantic (Shown.text (Datum.ofString "<2")) = .ok constraint ∧
      allowed.contains ⟨2, 0, 0⟩ = true ∧ constraint.contains ⟨2, 0, 0⟩ = false := by
  have hallowed : ((ofDatum (.mapping twoSpellings)).toOption.bind fun index =>
      (index.dependencies? "root" ⟨1, 0, 0⟩).bind fun needed =>
        needed.get? (Shown.text (Scalar.integer 1))) = some .full := by decide +kernel
  have hconstraint : Constraint.parse .semantic (Shown.text (Datum.ofString "<2")) = .ok (.below ⟨2, 0, 0⟩) := by
    decide +kernel
  obtain ⟨index, hindex⟩ := exists_ofDatum_twoSpellings
  rw [hindex, Except.toOption, Option.bind_some] at hallowed
  obtain ⟨needed, hneeded, hget⟩ := Option.bind_eq_some_iff.mp hallowed
  exact ⟨index, needed, .full, .below ⟨2, 0, 0⟩, hindex, hneeded, hget, hconstraint, by decide, by decide⟩

end Index

end DependencyResolution
