import DependencyResolution.Proofs.Version.Simplify

/-!
# What a set of versions says

The sets that constructors and operations build, in whatever composition, are in canonical form. Read
without the functions that compare bounds, this says that every interval is inhabited and ends strictly
before the next one starts (`Segment.ApartFrom`), and that a set holds a version iff one of its
intervals admits it, whichever interval that is. Normalization and intersection move no bound
(`Ranges.Within`).
-/

namespace DependencyResolution

variable {V : Type u} [LinearOrder V]

/-! ## Intervals by their endpoints -/

namespace Segment

/-- The version lies above the lower bound, or at it if that is included, and likewise below the upper
bound. -/
def Admits (s : Segment V) (v : V) : Prop :=
  (∀ l ∈ s.lower, l.version < v ∨ l.version = v ∧ l.inclusive = true) ∧
    ∀ u ∈ s.upper, v < u.version ∨ v = u.version ∧ u.inclusive = true

/-- The bounds leave room between them: they ascend, or both include the same version. -/
def IsInhabited (s : Segment V) : Prop :=
  ∀ l ∈ s.lower, ∀ u ∈ s.upper,
    l.version < u.version ∨ l.version = u.version ∧ l.inclusive = true ∧ u.inclusive = true

/-- There is a gap between an interval and the next, which is at least the version at which both end if
they end at the same. -/
def ApartFrom (s t : Segment V) : Prop :=
  ∃ u ∈ s.upper, ∃ l ∈ t.lower,
    u.version < l.version ∨ u.version = l.version ∧ u.inclusive = false ∧ l.inclusive = false

variable {s t : Segment V} {v : V}

theorem at_ofVersion_iff : s.At (.ofVersion v false) ↔ s.Admits v := by
  obtain ⟨l, u⟩ := s
  rw [At, Admits, ← not_lt, ← Bound.excludesBelow_iff, ← Bound.admitsAbove_iff]
  refine and_congr ?_ ?_
  · rcases l with _ | ⟨w, i⟩
    · simp [Bound.excludesBelow]
    · rcases lt_trichotomy v w with h | h | h
      · simp [Bound.excludesBelow, h, h.not_gt, h.ne']
      · simp [Bound.excludesBelow, h]
      · simp [Bound.excludesBelow, h, h.not_gt, h.ne']
  · rcases u with _ | ⟨w, i⟩ <;> simp [Bound.admitsAbove]

theorem isInhabited_iff : Bound.isInhabited s.lower s.upper = true ↔ s.IsInhabited := by
  obtain ⟨_ | ⟨v, i⟩, _ | ⟨w, j⟩⟩ := s
  · simp [IsInhabited, Bound.isInhabited]
  · simp [IsInhabited, Bound.isInhabited]
  · simp [IsInhabited, Bound.isInhabited]
  · rcases lt_trichotomy v w with h | h | h
    · simp [IsInhabited, Bound.isInhabited, h]
    · simp [IsInhabited, Bound.isInhabited, h]
    · simp [IsInhabited, Bound.isInhabited, h, h.not_gt, h.ne']

theorem touches_eq_false_iff : Bound.touches s.upper t.lower = false ↔ s.ApartFrom t := by
  obtain ⟨-, _ | ⟨v, i⟩⟩ := s <;> obtain ⟨_ | ⟨w, j⟩, -⟩ := t
  · simp [ApartFrom, Bound.touches]
  · simp [ApartFrom, Bound.touches]
  · simp [ApartFrom, Bound.touches]
  · rcases lt_trichotomy v w with h | h | h
    · simp [ApartFrom, Bound.touches, h, h.not_gt]
    · simp [ApartFrom, Bound.touches, h]
    · simp [ApartFrom, Bound.touches, h, h.not_gt, h.ne']

end Segment

namespace Ranges

/-! ## Sets that are built -/

/-- The sets that compositions of constructors and operations build. The intervals that a set is made of
are arbitrary; the versions that it is simplified over ascend. -/
inductive Built : Ranges V → Prop
  | empty : Built .empty
  | full : Built .full
  | singleton (v : V) : Built (.singleton v)
  | atLeast (v : V) : Built (.atLeast v)
  | above (v : V) : Built (.above v)
  | atMost (v : V) : Built (.atMost v)
  | under (v : V) : Built (.below v)
  | between (v w : V) : Built (.between v w)
  | ofSegments (segments : List (Segment V)) : Built (.ofSegments segments)
  | complement {r : Ranges V} : r.Built → Built r.complement
  | intersection {r s : Ranges V} : r.Built → s.Built → Built (r.intersection s)
  | union {r s : Ranges V} : r.Built → s.Built → Built (VersionSet.union r s)
  | simplify {r : Ranges V} {known : List V} : r.Built → known.Pairwise (· ≤ ·) → Built (r.simplify known)

variable {r s : Ranges V} {v : V}

theorem Built.canonical (h : r.Built) : r.Canonical := by
  induction h with
  | empty => exact canonical_empty
  | full => exact canonical_full
  | singleton v => exact canonical_singleton v
  | atLeast v => exact canonical_atLeast v
  | above v => exact canonical_above v
  | atMost v => exact canonical_atMost v
  | under v => exact canonical_below v
  | between v w => exact canonical_ofSegments _
  | ofSegments segments => exact canonical_ofSegments segments
  | complement _ ih => exact canonical_complement ih
  | intersection _ _ ihr ihs => exact canonical_intersection ihr ihs
  | union _ _ ihr ihs => exact canonical_union ihr ihs
  | simplify _ hknown ih =>
    rw [← simplify_dedup _ hknown]
    exact canonical_simplify ih (pairwise_lt_dedup hknown)

theorem Canonical.isChain_apartFrom (h : r.Canonical) : r.segments.IsChain Segment.ApartFrom :=
  (h.apart.imp fun hst => Segment.touches_eq_false_iff.mp hst).isChain

/-- Membership stops at the first interval that starts above the version; no later one admits it. -/
theorem Canonical.contains_iff_admits (h : r.Canonical) :
    r.contains v = true ↔ ∃ s ∈ r.segments, s.Admits v := by
  simp only [contains_iff h, At, Covers, Segment.at_ofVersion_iff]

theorem contains_ofSegments (segments : List (Segment V)) :
    (ofSegments segments).contains v = true ↔ ∃ s ∈ segments, s.Admits v := by
  simp only [contains_iff (canonical_ofSegments segments), at_ofSegments, Covers, Segment.at_ofVersion_iff]

theorem contains_complement (hr : r.Canonical) :
    r.complement.contains v = true ↔ ¬ r.contains v = true := by
  rw [contains_iff (canonical_complement hr), at_complement hr, contains_iff hr]

theorem contains_intersection (hr : r.Canonical) (hs : s.Canonical) :
    (r.intersection s).contains v = true ↔ r.contains v = true ∧ s.contains v = true := by
  rw [contains_iff (canonical_intersection hr hs), at_intersection hr hs, contains_iff hr, contains_iff hs]

theorem contains_union (hr : r.Canonical) (hs : s.Canonical) :
    (VersionSet.union r s).contains v = true ↔ r.contains v = true ∨ s.contains v = true := by
  rw [contains_iff (canonical_union hr hs), at_union hr hs, contains_iff hr, contains_iff hs]

theorem contains_singleton (v w : V) : (singleton v).contains w = true ↔ w = v :=
  LawfulVersionSet.contains_singleton (S := Ranges V) v w

theorem contains_atLeast (v w : V) : (atLeast v).contains w = true ↔ v ≤ w := by
  rw [(canonical_atLeast v).contains_iff_admits]
  simp [atLeast, Segment.Admits, le_iff_lt_or_eq]

theorem contains_above (v w : V) : (above v).contains w = true ↔ v < w := by
  rw [(canonical_above v).contains_iff_admits]
  simp [above, Segment.Admits]

theorem contains_atMost (v w : V) : (atMost v).contains w = true ↔ w ≤ v := by
  rw [(canonical_atMost v).contains_iff_admits]
  simp [atMost, Segment.Admits, le_iff_lt_or_eq]

theorem contains_below (v w : V) : (below v).contains w = true ↔ w < v := by
  rw [(canonical_below v).contains_iff_admits]
  simp [below, Segment.Admits]

theorem contains_between (lower upper v : V) :
    (between lower upper).contains v = true ↔ lower ≤ v ∧ v < upper := by
  rw [between, contains_ofSegments]
  simp [Segment.Admits, le_iff_lt_or_eq]

/-- Sets that are built are canonical and mean what they say. -/
theorem Built.membership (hr : r.Built) (hs : s.Built) (segments : List (Segment V)) (v : V) :
    (∀ t ∈ r.segments, t.IsInhabited) ∧ r.segments.IsChain Segment.ApartFrom ∧
      (r.contains v = true ↔ ∃ t ∈ r.segments, t.Admits v) ∧
      ((Ranges.ofSegments segments).contains v = true ↔ ∃ t ∈ segments, t.Admits v) ∧
      (r.complement.contains v = true ↔ ¬ r.contains v = true) ∧
      ((r.intersection s).contains v = true ↔ r.contains v = true ∧ s.contains v = true) ∧
      ((VersionSet.union r s).contains v = true ↔ r.contains v = true ∨ s.contains v = true) := by
  have hr := hr.canonical
  have hs := hs.canonical
  exact ⟨fun t ht => Segment.isInhabited_iff.mp (hr.inhabited t ht), hr.isChain_apartFrom,
    hr.contains_iff_admits, contains_ofSegments segments, contains_complement hr,
    contains_intersection hr hs, contains_union hr hs⟩

/-- Two intervals that both stop short of a version stay apart, in whatever order they are given and
with a reversed one between them, and only that version is outside. -/
theorem Built.membership_split :
    (Ranges.ofSegments [⟨some ⟨2, false⟩, none⟩, ⟨some ⟨5, true⟩, some ⟨3, true⟩⟩, ⟨none, some ⟨2, false⟩⟩] :
        Ranges Nat).segments = [⟨none, some ⟨2, false⟩⟩, ⟨some ⟨2, false⟩, none⟩] ∧
      [(⟨none, some ⟨2, false⟩⟩ : Segment Nat), ⟨some ⟨2, false⟩, none⟩].IsChain Segment.ApartFrom ∧
      (Ranges.ofSegments [⟨some ⟨2, false⟩, none⟩, ⟨some ⟨5, true⟩, some ⟨3, true⟩⟩,
        ⟨none, some ⟨2, false⟩⟩] : Ranges Nat).complement.contains 2 = true := by
  have hr := Built.ofSegments
    [(⟨some ⟨2, false⟩, none⟩ : Segment Nat), ⟨some ⟨5, true⟩, some ⟨3, true⟩⟩, ⟨none, some ⟨2, false⟩⟩]
  have hsegments : (Ranges.ofSegments
      [(⟨some ⟨2, false⟩, none⟩ : Segment Nat), ⟨some ⟨5, true⟩, some ⟨3, true⟩⟩,
        ⟨none, some ⟨2, false⟩⟩]).segments = [⟨none, some ⟨2, false⟩⟩, ⟨some ⟨2, false⟩, none⟩] := by
    have hinhabited : [(⟨some ⟨2, false⟩, none⟩ : Segment Nat), ⟨some ⟨5, true⟩, some ⟨3, true⟩⟩,
        ⟨none, some ⟨2, false⟩⟩].filter (fun s => Bound.isInhabited s.lower s.upper) =
          [⟨some ⟨2, false⟩, none⟩, ⟨none, some ⟨2, false⟩⟩] := by decide
    have hordered : [(⟨some ⟨2, false⟩, none⟩ : Segment Nat), ⟨none, some ⟨2, false⟩⟩].mergeSort
        (fun s t => !Bound.startsBefore t.lower s.lower) =
          [⟨none, some ⟨2, false⟩⟩, ⟨some ⟨2, false⟩, none⟩] := by
      simp [List.mergeSort, Bound.startsBefore]
    rw [Ranges.ofSegments, hinhabited, hordered]
    decide
  obtain ⟨-, hchain, -, -, hcomplement, -⟩ := Built.membership hr Built.full [] 2
  rw [hsegments] at hchain
  refine ⟨hsegments, hchain, hcomplement.mpr ?_⟩
  rw [Ranges.contains, hsegments]
  decide

end Ranges

/-! ## Bounds at some of the versions -/

section within

variable {versions : Set V}

/-- The bound is at one of the versions, if there is one. -/
def Bound.Within (b : Bound V) (versions : Set V) : Prop := ∀ e ∈ b, e.version ∈ versions

/-- The interval starts and ends at some of the versions, if it starts and ends at all. -/
structure Segment.Within (s : Segment V) (versions : Set V) : Prop where
  lower : s.lower.Within versions
  upper : s.upper.Within versions

/-- The intervals start and end at some of the versions. -/
def Ranges.Within (r : Ranges V) (versions : Set V) : Prop := ∀ s ∈ r.segments, s.Within versions

namespace Bound

variable {a b : Bound V}

omit [LinearOrder V] in
theorem within_none : Within (none : Bound V) versions := by
  rintro _ ⟨⟩

omit [LinearOrder V] in
theorem within_some {e : Endpoint V} : Within (some e) versions ↔ e.version ∈ versions := by
  simp [Within]

theorem within_maxLower (ha : a.Within versions) (hb : b.Within versions) : (maxLower a b).Within versions := by
  cases a with
  | none => exact hb
  | some a =>
    cases b with
    | none => exact ha
    | some b =>
      rw [within_some] at ha hb
      rw [maxLower]
      split_ifs <;> simpa only [within_some]

theorem within_minUpper (ha : a.Within versions) (hb : b.Within versions) : (minUpper a b).Within versions := by
  cases a with
  | none => exact hb
  | some a =>
    cases b with
    | none => exact ha
    | some b =>
      rw [within_some] at ha hb
      rw [minUpper]
      split_ifs <;> simpa only [within_some]

theorem within_maxUpper (ha : a.Within versions) (hb : b.Within versions) : (maxUpper a b).Within versions := by
  cases a with
  | none => exact within_none
  | some a =>
    cases b with
    | none => exact within_none
    | some b =>
      rw [within_some] at ha hb
      rw [maxUpper]
      split_ifs <;> simpa only [within_some]

end Bound

namespace Ranges

variable {r s : Ranges V}

theorem within_joinNext {kept : List (Segment V)} {s : Segment V} (h : ∀ t ∈ kept, t.Within versions)
    (hs : s.Within versions) : ∀ t ∈ joinNext kept s, t.Within versions := by
  cases kept with
  | nil => simpa [joinNext] using hs
  | cons last kept =>
    rw [List.forall_mem_cons] at h
    rw [joinNext]
    split_ifs
    · exact List.forall_mem_cons.mpr ⟨⟨h.1.lower, Bound.within_maxUpper h.1.upper hs.upper⟩, h.2⟩
    · exact List.forall_mem_cons.mpr ⟨hs, List.forall_mem_cons.mpr h⟩

/-- Normalization moves no bound. -/
theorem within_ofSegments {segments : List (Segment V)} (h : ∀ s ∈ segments, s.Within versions) :
    (ofSegments segments).Within versions := by
  have hfold : ∀ (ss kept : List (Segment V)), (∀ s ∈ ss, s.Within versions) → (∀ t ∈ kept, t.Within versions) →
      ∀ t ∈ ss.foldl joinNext kept, t.Within versions := by
    intro ss
    induction ss with
    | nil => exact fun _ _ hkept => hkept
    | cons s ss ih =>
      intro kept hss hkept
      rw [List.forall_mem_cons] at hss
      exact ih _ hss.2 (within_joinNext hkept hss.1)
  intro t ht
  refine hfold _ [] (fun s hs => ?_) (by simp) t (List.mem_reverse.mp ht)
  exact h s (List.mem_filter.mp (List.mem_mergeSort.mp hs)).1

theorem within_intersection (hr : r.Within versions) (hs : s.Within versions) :
    (r.intersection s).Within versions := by
  intro g hg
  obtain ⟨t, ht, u, hu, hmeet⟩ := exists_of_mem_sweep hg
  obtain ⟨rfl, -⟩ := mem_meet hmeet
  exact ⟨Bound.within_maxLower (hr t ht).lower (hs u hu).lower, Bound.within_minUpper (hr t ht).upper (hs u hu).upper⟩

omit [LinearOrder V] in
theorem within_empty : (empty : Ranges V).Within versions := by
  rintro _ ⟨⟩

end Ranges

end within

end DependencyResolution
