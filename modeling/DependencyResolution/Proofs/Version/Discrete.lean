import DependencyResolution.Proofs.Version.Algebra
import DependencyResolution.Proofs.Version.Semantic

/-!
# Sets of semantic versions

No version lies between the cut after a version and the cut before the next one, and sets that differ only
there hold the same versions and are not equal. Sets whose intervals start at a version and end before one do
not differ there: they hold a cut if they hold the version at the cut (`Ranges.At` in terms of `Cut.version`),
so they are determined by their versions. Every set has such a form (`Ranges.halfOpen`), and two sets hold the
same versions iff their forms are equal.

All this is about the versions without negative numbers, and about sets whose intervals start and end at such
versions (`Ranges.Within`). Among all versions none is the least, and many are between the versions of one
minor number and those of the next.
-/

namespace DependencyResolution

open SemanticVersion

/-! ## Cuts and the versions at them -/

/-- The version just before or just after the cut; below everything, `0.0.0`. -/
def Cut.version (x : Cut SemanticVersion) : SemanticVersion := x.recBotCoe zero fun p => (ofLex p).1

@[simp]
theorem Cut.version_bot : (⊥ : Cut SemanticVersion).version = zero := rfl

@[simp]
theorem Cut.version_ofVersion (v : SemanticVersion) (after : Bool) : (Cut.ofVersion v after).version = v := rfl

theorem Cut.eq_bot_or_ofVersion (x : Cut SemanticVersion) : x = ⊥ ∨ ∃ v after, x = .ofVersion v after := by
  cases x using WithBot.recBotCoe with
  | bot => exact Or.inl rfl
  | coe p => exact Or.inr ⟨(ofLex p).1, (ofLex p).2, rfl⟩

/-- The cuts at versions without negative numbers. -/
def naturalCuts : Set (Cut SemanticVersion) := {x | x.version.IsNatural}

variable {s : Segment SemanticVersion} {b : Bound SemanticVersion}

theorem Segment.Within.endsIn (h : s.Within naturals) : s.EndsIn naturalCuts := by
  obtain ⟨l, u⟩ := s
  constructor
  · cases l with
    | none => exact isNatural_zero
    | some e => exact h.lower e rfl
  · intro x hx
    cases u with
    | none => exact absurd hx WithTop.coe_ne_top
    | some e =>
      obtain rfl := WithTop.coe_injective hx
      exact h.upper e rfl

/-! ## Half-open intervals -/

/-- The interval starts at a version and ends before one, if it starts and ends at all; neither is `0.0.0`, at
which there is no need to start and before which nothing ends. -/
structure Segment.IsHalfOpen (s : Segment SemanticVersion) : Prop where
  lower : ∀ l ∈ s.lower, l.inclusive = true ∧ l.version ≠ zero
  upper : ∀ u ∈ s.upper, u.inclusive = false ∧ u.version ≠ zero

theorem Bound.lowerCut_le_iff (hb : b.Within naturals) (h : ∀ l ∈ b, l.inclusive = true ∧ l.version ≠ zero)
    (x : Cut SemanticVersion) : b.lowerCut ≤ x ↔ ∀ l ∈ b, l.version ≤ x.version := by
  obtain _ | ⟨w, i⟩ := b
  · simp [lowerCut]
  · obtain ⟨rfl, hw⟩ := h _ rfl
    have hlt : zero < w := lt_of_le_of_ne (zero_le (hb _ rfl)) hw.symm
    obtain rfl | ⟨v, after, rfl⟩ := x.eq_bot_or_ofVersion
    · simp [lowerCut, Cut.ofVersion, hlt]
    · rw [← not_lt, lowerCut, Cut.ofVersion_lt_iff]
      simp

theorem Bound.lt_upperCut_iff (hb : b.Within naturals) (h : ∀ u ∈ b, u.inclusive = false ∧ u.version ≠ zero)
    (x : Cut SemanticVersion) : (x : WithTop (Cut SemanticVersion)) < b.upperCut ↔ ∀ u ∈ b, x.version < u.version := by
  obtain _ | ⟨w, i⟩ := b
  · simp [upperCut]
  · obtain ⟨rfl, hw⟩ := h _ rfl
    have hlt : zero < w := lt_of_le_of_ne (zero_le (hb _ rfl)) hw.symm
    obtain rfl | ⟨v, after, rfl⟩ := x.eq_bot_or_ofVersion
    · simp [upperCut, Cut.ofVersion, bot_lt_iff_ne_bot, hlt]
    · rw [upperCut, WithTop.coe_lt_coe, Cut.ofVersion_lt_iff]
      simp

/-- A half-open interval holds a cut if it admits the version at it. -/
theorem Segment.IsHalfOpen.at_iff (h : s.IsHalfOpen) (hs : s.Within naturals) (x : Cut SemanticVersion) :
    s.At x ↔ s.Admits x.version := by
  rw [← at_ofVersion_iff, At, At, Bound.lowerCut_le_iff hs.lower h.lower, Bound.lt_upperCut_iff hs.upper h.upper,
    Bound.lowerCut_le_iff hs.lower h.lower, Bound.lt_upperCut_iff hs.upper h.upper, Cut.version_ofVersion]

namespace Ranges

variable {a b r : Ranges SemanticVersion}

/-- The set holds a cut at a version without negative numbers if it holds that version. -/
def IsOfVersions (r : Ranges SemanticVersion) : Prop := ∀ x ∈ naturalCuts, r.At x ↔ r.contains x.version = true

theorem isOfVersions_of_isHalfOpen (hr : r.Canonical) (hin : r.Within naturals)
    (h : ∀ s ∈ r.segments, s.IsHalfOpen) : r.IsOfVersions := by
  intro x _
  rw [hr.contains_iff_admits]
  exact exists_congr fun s => and_congr_right fun hs => (h s hs).at_iff (hin s hs) x

theorem isOfVersions_empty : (empty : Ranges SemanticVersion).IsOfVersions := fun _ _ =>
  iff_of_false not_at_empty Bool.false_ne_true

theorem isOfVersions_intersection (ha : a.Canonical) (hb : b.Canonical) (ha' : a.IsOfVersions)
    (hb' : b.IsOfVersions) : (a.intersection b).IsOfVersions := fun x hx => by
  rw [at_intersection ha hb, contains_intersection ha hb, ha' x hx, hb' x hx]

/-- Equality, inclusion and disjointness of two sets are those of the versions without negative numbers that they
hold. -/
structure DeterminedByNatural (a b : Ranges SemanticVersion) : Prop where
  eq_iff : a = b ↔ ∀ v : SemanticVersion, v.IsNatural → (a.contains v = true ↔ b.contains v = true)
  subsetOf_iff : VersionSet.subsetOf a b = true ↔
    ∀ v : SemanticVersion, v.IsNatural → a.contains v = true → b.contains v = true
  isDisjoint_iff : VersionSet.isDisjoint a b = true ↔
    ∀ v : SemanticVersion, v.IsNatural → ¬ (a.contains v = true ∧ b.contains v = true)

theorem eq_iff_of_isOfVersions (ha : a.Canonical) (hb : b.Canonical) (hain : a.Within naturals)
    (hbin : b.Within naturals) (ha' : a.IsOfVersions) (hb' : b.IsOfVersions) :
    a = b ↔ ∀ v : SemanticVersion, v.IsNatural → (a.contains v = true ↔ b.contains v = true) := by
  constructor
  · rintro rfl v _
    exact Iff.rfl
  · intro h
    refine eq_of_at_of_endsIn ha hb (fun s hs => (hain s hs).endsIn) (fun s hs => (hbin s hs).endsIn) fun x hx => ?_
    rw [ha' x hx, hb' x hx, h _ hx]

theorem determinedByNatural_of_isOfVersions (ha : a.Canonical) (hb : b.Canonical) (hain : a.Within naturals)
    (hbin : b.Within naturals) (ha' : a.IsOfVersions) (hb' : b.IsOfVersions) : DeterminedByNatural a b := by
  have hinter := canonical_intersection ha hb
  have hinterin := within_intersection hain hbin
  have hinter' := isOfVersions_intersection ha hb ha' hb'
  refine ⟨eq_iff_of_isOfVersions ha hb hain hbin ha' hb', ?_, ?_⟩
  · rw [VersionSet.subsetOf, decide_eq_true_iff, versionSet_intersection,
      eq_iff_of_isOfVersions hinter ha hinterin hain hinter' ha']
    simp only [contains_intersection ha hb, and_iff_left_iff_imp]
  · rw [VersionSet.isDisjoint, decide_eq_true_iff, versionSet_intersection, versionSet_empty,
      eq_iff_of_isOfVersions hinter canonical_empty hinterin within_empty hinter' isOfVersions_empty]
    simp only [contains_intersection ha hb]
    exact forall_congr' fun v => imp_congr_right fun _ => iff_false_right Bool.false_ne_true

end Ranges

/-! ## The half-open form -/

/-- The lower bound with the same versions above it that includes the version it is at; at `0.0.0` there is no
need for one. -/
def Bound.startAt (b : Bound SemanticVersion) : Bound SemanticVersion :=
  match b with
  | none => none
  | some e =>
    if e.inclusive = false then some ⟨e.version.nextPatch, true⟩
    else if e.version = zero then none
    else some e

/-- The upper bound with the same versions below it that excludes the version it is at. -/
def Bound.endBefore (b : Bound SemanticVersion) : Bound SemanticVersion :=
  match b with
  | none => none
  | some e => if e.inclusive = true then some ⟨e.version.nextPatch, false⟩ else some e

/-- The half-open interval of the same versions, if there are any below the upper bound. -/
def Segment.halfOpen (s : Segment SemanticVersion) : Segment SemanticVersion := ⟨s.lower.startAt, s.upper.endBefore⟩

/-- The set of the same versions with half-open intervals only. Intervals without versions are left out, and
those with no version between them are joined. -/
def Ranges.halfOpen (r : Ranges SemanticVersion) : Ranges SemanticVersion :=
  .ofSegments ((r.segments.filter fun s => decide (s.upper ≠ some ⟨zero, false⟩)).map Segment.halfOpen)

theorem Ranges.canonical_halfOpen (r : Ranges SemanticVersion) : r.halfOpen.Canonical := canonical_ofSegments _

theorem zero_lt_nextPatch {v : SemanticVersion} (h : v.IsNatural) : zero < v.nextPatch :=
  lt_nextPatch_iff.mpr (zero_le h)

theorem Bound.startAt_spec (hb : b.Within naturals) : b.startAt.Within naturals ∧
    (∀ l ∈ b.startAt, l.inclusive = true ∧ l.version ≠ zero) ∧
      ∀ v : SemanticVersion, v.IsNatural →
        ((∀ l ∈ b.startAt, l.version ≤ v) ↔ ∀ l ∈ b, l.version < v ∨ l.version = v ∧ l.inclusive = true) := by
  obtain _ | ⟨w, _ | _⟩ := b
  · simp [startAt, within_none]
  · have hw := hb _ rfl
    have hne : w.nextPatch ≠ zero := (zero_lt_nextPatch hw).ne'
    have hin : w.nextPatch ∈ naturals := isNatural_nextPatch hw
    simp [startAt, within_some, hne, hin, nextPatch_le_iff]
  · by_cases hw : w = zero
    · simpa [startAt, hw, within_none, ← le_iff_lt_or_eq] using fun v => zero_le
    · simpa [startAt, hw, within_some, ← le_iff_lt_or_eq] using hb _ rfl

theorem Bound.endBefore_spec (hb : b.Within naturals) (h : b ≠ some ⟨zero, false⟩) :
    b.endBefore.Within naturals ∧
    (∀ u ∈ b.endBefore, u.inclusive = false ∧ u.version ≠ zero) ∧
      ∀ v, (∀ u ∈ b.endBefore, v < u.version) ↔ ∀ u ∈ b, v < u.version ∨ v = u.version ∧ u.inclusive = true := by
  obtain _ | ⟨w, _ | _⟩ := b
  · simp [endBefore, within_none]
  · have hne : w ≠ zero := by
      rintro rfl
      exact h rfl
    simpa [endBefore, within_some, hne] using hb _ rfl
  · have hw := hb _ rfl
    have hne : w.nextPatch ≠ zero := (zero_lt_nextPatch hw).ne'
    have hin : w.nextPatch ∈ naturals := isNatural_nextPatch hw
    simp [endBefore, within_some, hne, hin, lt_nextPatch_iff, ← le_iff_lt_or_eq]

theorem Segment.isHalfOpen_halfOpen (hs : s.Within naturals) (h : s.upper ≠ some ⟨zero, false⟩) :
    s.halfOpen.IsHalfOpen where
  lower := (Bound.startAt_spec hs.lower).2.1
  upper := (Bound.endBefore_spec hs.upper h).2.1

theorem Segment.within_halfOpen (hs : s.Within naturals) (h : s.upper ≠ some ⟨zero, false⟩) :
    s.halfOpen.Within naturals where
  lower := (Bound.startAt_spec hs.lower).1
  upper := (Bound.endBefore_spec hs.upper h).1

theorem Segment.at_halfOpen (hs : s.Within naturals) (h : s.upper ≠ some ⟨zero, false⟩)
    {x : Cut SemanticVersion} (hx : x ∈ naturalCuts) : s.halfOpen.At x ↔ s.Admits x.version := by
  have hform := isHalfOpen_halfOpen hs h
  have hin := within_halfOpen hs h
  rw [At, Bound.lowerCut_le_iff hin.lower hform.lower, Bound.lt_upperCut_iff hin.upper hform.upper]
  exact and_congr ((Bound.startAt_spec hs.lower).2.2 _ hx) ((Bound.endBefore_spec hs.upper h).2.2 _)

namespace Ranges

variable {a b r : Ranges SemanticVersion}

theorem within_halfOpen (hin : r.Within naturals) : r.halfOpen.Within naturals := by
  refine within_ofSegments fun t ht => ?_
  obtain ⟨s, hs, rfl⟩ := List.mem_map.mp ht
  obtain ⟨hs, hupper⟩ := List.mem_filter.mp hs
  exact Segment.within_halfOpen (hin s hs) (of_decide_eq_true hupper)

theorem at_halfOpen (hr : r.Canonical) (hin : r.Within naturals) {x : Cut SemanticVersion}
    (hx : x ∈ naturalCuts) : r.halfOpen.At x ↔ r.contains x.version = true := by
  rw [halfOpen, at_ofSegments, hr.contains_iff_admits]
  constructor
  · rintro ⟨_, hmem, hat⟩
    obtain ⟨s, hs, rfl⟩ := List.mem_map.mp hmem
    obtain ⟨hs, hupper⟩ := List.mem_filter.mp hs
    exact ⟨s, hs, (Segment.at_halfOpen (hin s hs) (of_decide_eq_true hupper) hx).mp hat⟩
  · rintro ⟨s, hs, hadmits⟩
    have hupper : s.upper ≠ some ⟨zero, false⟩ := by
      -- nothing without negative numbers is below `0.0.0`
      intro h
      have hbelow := hadmits.2 _ h
      simp [(zero_le hx).not_gt] at hbelow
    refine ⟨s.halfOpen, List.mem_map_of_mem ?_, (Segment.at_halfOpen (hin s hs) hupper hx).mpr hadmits⟩
    exact List.mem_filter.mpr ⟨hs, decide_eq_true hupper⟩

theorem contains_halfOpen (hr : r.Canonical) (hin : r.Within naturals) {v : SemanticVersion}
    (hv : v.IsNatural) : r.halfOpen.contains v = r.contains v := by
  have hcut : Cut.ofVersion v false ∈ naturalCuts := hv
  rw [Bool.eq_iff_iff, contains_iff (canonical_halfOpen r), at_halfOpen hr hin hcut, Cut.version_ofVersion]

theorem isOfVersions_halfOpen (hr : r.Canonical) (hin : r.Within naturals) : r.halfOpen.IsOfVersions :=
  fun x hx => by rw [at_halfOpen hr hin hx, contains_halfOpen hr hin hx]

theorem determinedByNatural_halfOpen (ha : a.Canonical) (hb : b.Canonical) (hain : a.Within naturals)
    (hbin : b.Within naturals) : DeterminedByNatural a.halfOpen b.halfOpen :=
  determinedByNatural_of_isOfVersions (canonical_halfOpen a) (canonical_halfOpen b) (within_halfOpen hain)
    (within_halfOpen hbin) (isOfVersions_halfOpen ha hain) (isOfVersions_halfOpen hb hbin)

/-! ## Versions and sets -/

/-- For sets of semantic versions that are built, equality, inclusion and disjointness imply the same of the
versions held. Of sets with bounds without negative numbers, and of versions without them, more holds: they are
the same if all intervals are half-open, and for other sets the versions determine equality, inclusion and
disjointness of the half-open forms. -/
theorem Built.versions_iff_halfOpen {a b : Ranges SemanticVersion} (ha : a.Built) (hb : b.Built)
    (hain : a.Within naturals) (hbin : b.Within naturals) :
    (a = b → ∀ v, a.contains v = true ↔ b.contains v = true) ∧
      (VersionSet.subsetOf a b = true → ∀ v, a.contains v = true → b.contains v = true) ∧
      (VersionSet.isDisjoint a b = true → ∀ v, ¬ (a.contains v = true ∧ b.contains v = true)) ∧
      ((∀ s ∈ a.segments, s.IsHalfOpen) → (∀ s ∈ b.segments, s.IsHalfOpen) → DeterminedByNatural a b) ∧
      ((∀ v : SemanticVersion, v.IsNatural → (a.contains v = true ↔ b.contains v = true)) ↔
        a.halfOpen = b.halfOpen) ∧
      ((∀ v : SemanticVersion, v.IsNatural → a.contains v = true → b.contains v = true) ↔
        VersionSet.subsetOf a.halfOpen b.halfOpen = true) ∧
      ((∀ v : SemanticVersion, v.IsNatural → ¬ (a.contains v = true ∧ b.contains v = true)) ↔
        VersionSet.isDisjoint a.halfOpen b.halfOpen = true) := by
  have ha := ha.canonical
  have hb := hb.canonical
  have hforms := determinedByNatural_halfOpen ha hb hain hbin
  refine ⟨?_, ?_, ?_, fun ha' hb' => ?_, ?_, ?_, ?_⟩
  · rintro rfl v
    exact Iff.rfl
  · intro h v hv
    rw [VersionSet.subsetOf, decide_eq_true_iff, versionSet_intersection] at h
    rw [← h, contains_intersection ha hb] at hv
    exact hv.2
  · intro h v hv
    rw [VersionSet.isDisjoint, decide_eq_true_iff, versionSet_intersection] at h
    rw [← contains_intersection ha hb, h] at hv
    exact Bool.false_ne_true hv
  · exact determinedByNatural_of_isOfVersions ha hb hain hbin (isOfVersions_of_isHalfOpen ha hain ha')
      (isOfVersions_of_isHalfOpen hb hbin hb')
  · rw [hforms.eq_iff]
    exact forall₂_congr fun v hv => by rw [contains_halfOpen ha hain hv, contains_halfOpen hb hbin hv]
  · rw [hforms.subsetOf_iff]
    exact forall₂_congr fun v hv => by rw [contains_halfOpen ha hain hv, contains_halfOpen hb hbin hv]
  · rw [hforms.isDisjoint_iff]
    exact forall₂_congr fun v hv => by rw [contains_halfOpen ha hain hv, contains_halfOpen hb hbin hv]

theorem within_atLeast {v : SemanticVersion} (h : v.IsNatural) : (atLeast v).Within naturals := by
  intro s hs
  obtain rfl := List.mem_singleton.mp hs
  exact ⟨Bound.within_some.mpr h, Bound.within_none⟩

/-- The versions from one on are among those from an earlier one on, and the versions above one are those
from the next on. -/
theorem versions_iff_halfOpen_next :
    VersionSet.subsetOf (atLeast ⟨1, 2, 0⟩ : Ranges SemanticVersion) (atLeast ⟨1, 0, 0⟩) = true ∧
      (above ⟨1, 0, 0⟩ : Ranges SemanticVersion).halfOpen = (atLeast ⟨1, 0, 1⟩).halfOpen := by
  have hform : ∀ v : SemanticVersion, v ≠ zero → ∀ s ∈ (atLeast v).segments, s.IsHalfOpen := by
    intro v hv s hs
    obtain rfl := List.mem_singleton.mp hs
    exact ⟨by simpa using hv, by simp⟩
  constructor
  · obtain ⟨-, -, -, hdetermined, -⟩ :=
      Built.versions_iff_halfOpen (.atLeast ⟨1, 2, 0⟩) (.atLeast (⟨1, 0, 0⟩ : SemanticVersion))
        (within_atLeast (by decide)) (within_atLeast (by decide))
    rw [(hdetermined (hform _ (by decide)) (hform _ (by decide))).subsetOf_iff]
    intro v _
    rw [contains_atLeast, contains_atLeast]
    exact le_trans (by decide)
  · have hin : (above ⟨1, 0, 0⟩ : Ranges SemanticVersion).Within naturals := by
      intro s hs
      obtain rfl := List.mem_singleton.mp hs
      exact ⟨Bound.within_some.mpr (show IsNatural ⟨1, 0, 0⟩ by decide), Bound.within_none⟩
    obtain ⟨-, -, -, -, hsame, -⟩ :=
      Built.versions_iff_halfOpen (.above ⟨1, 0, 0⟩) (.atLeast (⟨1, 0, 1⟩ : SemanticVersion)) hin
        (within_atLeast (by decide))
    rw [← hsame]
    intro v _
    rw [contains_above, contains_atLeast]
    exact nextPatch_le_iff.symm

/-- What is above a version is what starts at the next one, as versions go, but not as sets; nor is what is
below `0.0.0` disjoint from itself. -/
theorem above_ne_atLeast_next :
    (above (⟨1, 0, 0⟩ : SemanticVersion)).Built ∧ (atLeast (⟨1, 0, 1⟩ : SemanticVersion)).Built ∧
      (∀ v : SemanticVersion, (above ⟨1, 0, 0⟩).contains v = true ↔ (atLeast ⟨1, 0, 1⟩).contains v = true) ∧
      above (⟨1, 0, 0⟩ : SemanticVersion) ≠ atLeast ⟨1, 0, 1⟩ ∧
      VersionSet.subsetOf (above (⟨1, 0, 0⟩ : SemanticVersion)) (atLeast ⟨1, 0, 1⟩) = false ∧
      (below (⟨0, 0, 0⟩ : SemanticVersion)).Built ∧
      (∀ v : SemanticVersion, v.IsNatural → ¬ (below ⟨0, 0, 0⟩).contains v = true) ∧
      VersionSet.isDisjoint (below (⟨0, 0, 0⟩ : SemanticVersion)) (below ⟨0, 0, 0⟩) = false := by
  refine ⟨.above _, .atLeast _, fun v => ?_, by decide, by decide, .under _, fun v hv => ?_, by decide⟩
  · rw [contains_above, contains_atLeast]
    exact nextPatch_le_iff.symm
  · rw [contains_below]
    exact (zero_le hv).not_gt

end Ranges

end DependencyResolution
