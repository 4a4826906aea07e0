import DependencyResolution.Proofs.Version.Lawful
import DependencyResolution.Version.Ranges.Basic
import Mathlib.Data.Prod.Lex
import Mathlib.Order.WithBot

/-!
# Unions of intervals are lawful

Between and around the versions there are cuts, one below everything and two at each version, just
before it and just after it. An interval goes from one cut to a later one, so a set of versions is a set
of cuts (`Ranges.At`), which every operation respects. In canonical form, which every constructor gives
and every operation keeps, the intervals are inhabited and do not touch, and then the cuts determine the
list of intervals (`Ranges.eq_of_at`). So the laws of `LawfulVersionSet` are laws of sets of cuts.
-/

namespace DependencyResolution

/-- The cuts of an order: one below everything, and for each version one just before it, marked
`false`, and one just after it. -/
abbrev Cut (V : Type u) := WithBot (V ×ₗ Bool)

variable {V : Type u} [LinearOrder V]

def Cut.ofVersion (v : V) (after : Bool) : Cut V := WithBot.some (toLex (v, after))

theorem Cut.ofVersion_lt_iff {v w : V} {a b : Bool} :
    ofVersion v a < ofVersion w b ↔ v < w ∨ v = w ∧ a = false ∧ b = true := by
  rw [ofVersion, ofVersion, WithBot.coe_lt_coe, Prod.Lex.toLex_lt_toLex, Bool.lt_iff]

theorem Cut.max_ofVersion (v : V) (a b : Bool) :
    max (ofVersion v a) (ofVersion v b) = ofVersion v (a || b) := by
  have hlt : ofVersion v false < ofVersion v true := ofVersion_lt_iff.mpr (Or.inr ⟨rfl, rfl, rfl⟩)
  cases a <;> cases b <;> simp [hlt.le]

theorem Cut.min_ofVersion (v : V) (a b : Bool) :
    min (ofVersion v a) (ofVersion v b) = ofVersion v (a && b) := by
  have hlt : ofVersion v false < ofVersion v true := ofVersion_lt_iff.mpr (Or.inr ⟨rfl, rfl, rfl⟩)
  cases a <;> cases b <;> simp [hlt.le]

omit [LinearOrder V] in
theorem Cut.ofVersion_inj {v w : V} {a b : Bool} : ofVersion v a = ofVersion w b ↔ v = w ∧ a = b := by
  simp [ofVersion]

/-! ## Bounds as cuts -/

namespace Bound

def lowerCut : Bound V → Cut V
  | none => ⊥
  | some e => .ofVersion e.version (!e.inclusive)

def upperCut : Bound V → WithTop (Cut V)
  | none => ⊤
  | some e => WithTop.some (.ofVersion e.version e.inclusive)

omit [LinearOrder V] in
theorem lowerCut_injective : Function.Injective (lowerCut (V := V)) := by
  rintro (_ | ⟨v, i⟩) (_ | ⟨w, j⟩) h
  · rfl
  · cases h
  · cases h
  · simpa [lowerCut, Cut.ofVersion_inj] using h

omit [LinearOrder V] in
theorem upperCut_injective : Function.Injective (upperCut (V := V)) := by
  rintro (_ | ⟨v, i⟩) (_ | ⟨w, j⟩) h
  · rfl
  · cases h
  · cases h
  · simpa [upperCut, Cut.ofVersion_inj] using h

theorem isInhabited_iff (l u : Bound V) :
    isInhabited l u = true ↔ (l.lowerCut : WithTop (Cut V)) < u.upperCut := by
  rcases l with _ | ⟨v, i⟩ <;> rcases u with _ | ⟨w, j⟩
  · simp [isInhabited, lowerCut, upperCut]
  · exact iff_of_true rfl (WithTop.coe_lt_coe.mpr (WithBot.bot_lt_coe _))
  · simp [isInhabited, lowerCut, upperCut]
  · simp only [isInhabited, lowerCut, upperCut, WithTop.coe_lt_coe, Cut.ofVersion_lt_iff]
    rcases lt_trichotomy v w with h | h | h
    · simp [h]
    · simp [h]
    · simp [h.not_gt, h.ne', h]

theorem touches_eq_false_iff (u l : Bound V) :
    touches u l = false ↔ u.upperCut < (l.lowerCut : WithTop (Cut V)) := by
  rcases u with _ | ⟨v, i⟩ <;> rcases l with _ | ⟨w, j⟩
  · simp [touches, lowerCut, upperCut]
  · simp [touches, lowerCut, upperCut]
  · simp [touches, lowerCut, upperCut]
  · simp only [touches, lowerCut, upperCut, WithTop.coe_lt_coe, Cut.ofVersion_lt_iff]
    rcases lt_trichotomy v w with h | h | h
    · simp [h, h.not_gt]
    · simp [h]
    · simp [h.not_gt, h.ne', h]

theorem endsBefore_iff (a b : Bound V) : endsBefore a b = true ↔ a.upperCut < b.upperCut := by
  rcases a with _ | ⟨v, i⟩ <;> rcases b with _ | ⟨w, j⟩
  · simp [endsBefore, upperCut]
  · simp [endsBefore, upperCut]
  · simp [endsBefore, upperCut]
  · simp only [endsBefore, upperCut, WithTop.coe_lt_coe, Cut.ofVersion_lt_iff]
    rcases lt_trichotomy v w with h | h | h
    · simp [h]
    · simp [h]
    · simp [h.not_gt, h.ne', h]

theorem startsBefore_iff (a b : Bound V) : startsBefore a b = true ↔ a.lowerCut < b.lowerCut := by
  rcases a with _ | ⟨v, i⟩ <;> rcases b with _ | ⟨w, j⟩
  · simp [startsBefore, lowerCut]
  · exact iff_of_true rfl (WithBot.bot_lt_coe _)
  · simp [startsBefore, lowerCut]
  · simp only [startsBefore, lowerCut, Cut.ofVersion_lt_iff]
    rcases lt_trichotomy v w with h | h | h
    · simp [h]
    · simp [h]
    · simp [h.not_gt, h.ne', h]

theorem lowerCut_maxLower (a b : Bound V) : (maxLower a b).lowerCut = max a.lowerCut b.lowerCut := by
  rcases a with _ | ⟨v, i⟩ <;> rcases b with _ | ⟨w, j⟩
  · simp [maxLower, lowerCut]
  · simp [maxLower, lowerCut]
  · simp [maxLower, lowerCut]
  · simp only [maxLower, lowerCut]
    rcases lt_trichotomy v w with h | rfl | h
    · rw [if_pos h, max_eq_right (Cut.ofVersion_lt_iff.mpr (Or.inl h)).le]
    · rw [if_neg (lt_irrefl v), if_neg (lt_irrefl v), Cut.max_ofVersion, ← Bool.not_and]
    · rw [if_neg h.not_gt, if_pos h, max_eq_left (Cut.ofVersion_lt_iff.mpr (Or.inl h)).le]

theorem upperCut_minUpper (a b : Bound V) : (minUpper a b).upperCut = min a.upperCut b.upperCut := by
  rcases a with _ | ⟨v, i⟩ <;> rcases b with _ | ⟨w, j⟩
  · simp [minUpper, upperCut]
  · simp [minUpper, upperCut]
  · simp [minUpper, upperCut]
  · simp only [minUpper, upperCut, ← WithTop.coe_min]
    rcases lt_trichotomy v w with h | rfl | h
    · rw [if_pos h, min_eq_left (Cut.ofVersion_lt_iff.mpr (Or.inl h)).le]
    · rw [if_neg (lt_irrefl v), if_neg (lt_irrefl v), Cut.min_ofVersion]
    · rw [if_neg h.not_gt, if_pos h, min_eq_right (Cut.ofVersion_lt_iff.mpr (Or.inl h)).le]

theorem upperCut_maxUpper (a b : Bound V) : (maxUpper a b).upperCut = max a.upperCut b.upperCut := by
  rcases a with _ | ⟨v, i⟩ <;> rcases b with _ | ⟨w, j⟩
  · simp [maxUpper, upperCut]
  · simp [maxUpper, upperCut]
  · simp [maxUpper, upperCut]
  · simp only [maxUpper, upperCut, ← WithTop.coe_max]
    rcases lt_trichotomy v w with h | rfl | h
    · rw [if_pos h, max_eq_right (Cut.ofVersion_lt_iff.mpr (Or.inl h)).le]
    · rw [if_neg (lt_irrefl v), if_neg (lt_irrefl v), Cut.max_ofVersion]
    · rw [if_neg h.not_gt, if_pos h, max_eq_left (Cut.ofVersion_lt_iff.mpr (Or.inl h)).le]

theorem excludesBelow_iff (b : Bound V) (v : V) :
    excludesBelow b v = true ↔ Cut.ofVersion v false < b.lowerCut := by
  rcases b with _ | ⟨w, i⟩
  · simp [excludesBelow, lowerCut]
  · simp [excludesBelow, lowerCut, Cut.ofVersion_lt_iff]

theorem admitsAbove_iff (b : Bound V) (v : V) :
    admitsAbove b v = true ↔ (Cut.ofVersion v false : WithTop (Cut V)) < b.upperCut := by
  rcases b with _ | ⟨w, i⟩
  · simp [admitsAbove, upperCut]
  · simp [admitsAbove, upperCut, Cut.ofVersion_lt_iff]

omit [LinearOrder V] in
theorem lowerCut_flip {b : Bound V} (h : b ≠ none) : (b.flip.lowerCut : WithTop (Cut V)) = b.upperCut := by
  rcases b with _ | ⟨v, i⟩
  · exact absurd rfl h
  · simp [flip, lowerCut, upperCut]

omit [LinearOrder V] in
theorem upperCut_flip {b : Bound V} (h : b ≠ none) : b.flip.upperCut = (b.lowerCut : WithTop (Cut V)) := by
  rcases b with _ | ⟨v, i⟩
  · exact absurd rfl h
  · simp [flip, lowerCut, upperCut]

theorem ne_none_of_upperCut_lt {b : Bound V} {x : WithTop (Cut V)} (h : b.upperCut < x) : b ≠ none := by
  rintro rfl
  exact not_top_lt h

theorem ne_none_of_lt_lowerCut {b : Bound V} {x : WithTop (Cut V)}
    (h : x < (b.lowerCut : WithTop (Cut V))) : b ≠ none := by
  rintro rfl
  exact not_lt_bot h

end Bound

/-! ## Intervals as sets of cuts -/

/-- The cut is in the interval, which holds the cut that it starts at and not the one that it ends at. -/
def Segment.At (s : Segment V) (x : Cut V) : Prop :=
  s.lower.lowerCut ≤ x ∧ (x : WithTop (Cut V)) < s.upper.upperCut

/-- The interval starts at one of the cuts, and ends at one if it ends. -/
structure Segment.EndsIn (s : Segment V) (cuts : Set (Cut V)) : Prop where
  lower : s.lower.lowerCut ∈ cuts
  upper : ∀ x : Cut V, x = s.upper.upperCut → x ∈ cuts

namespace Ranges

def Covers (segments : List (Segment V)) (x : Cut V) : Prop := ∃ s ∈ segments, s.At x

/-- The intervals are inhabited, ascend, and leave gaps. -/
structure Ordered (segments : List (Segment V)) : Prop where
  inhabited : ∀ s ∈ segments, Bound.isInhabited s.lower s.upper = true
  apart : segments.Pairwise fun s t => Bound.touches s.upper t.lower = false

def Canonical (r : Ranges V) : Prop := Ordered r.segments

def At (r : Ranges V) (x : Cut V) : Prop := Covers r.segments x

variable {s t : Segment V} {ss ts : List (Segment V)} {x : Cut V}

theorem covers_nil : ¬ Covers ([] : List (Segment V)) x := by
  rintro ⟨s, hs, -⟩
  cases hs

theorem covers_cons : Covers (s :: ss) x ↔ s.At x ∨ Covers ss x := by
  simp [Covers]

theorem covers_append : Covers (ss ++ ts) x ↔ Covers ss x ∨ Covers ts x := by
  simp only [Covers, List.mem_append, or_and_right, exists_or]

theorem ordered_nil : Ordered ([] : List (Segment V)) := ⟨by simp, by simp⟩

theorem ordered_cons :
    Ordered (s :: ss) ↔ (s.lower.lowerCut : WithTop (Cut V)) < s.upper.upperCut ∧
      (∀ t ∈ ss, s.upper.upperCut < (t.lower.lowerCut : WithTop (Cut V))) ∧ Ordered ss := by
  simp only [← Bound.isInhabited_iff, ← Bound.touches_eq_false_iff]
  constructor
  · rintro ⟨hin, hap⟩
    rw [List.forall_mem_cons] at hin
    rw [List.pairwise_cons] at hap
    exact ⟨hin.1, hap.1, hin.2, hap.2⟩
  · rintro ⟨hs, hgap, hin, hap⟩
    exact ⟨List.forall_mem_cons.mpr ⟨hs, hin⟩, List.pairwise_cons.mpr ⟨hgap, hap⟩⟩

theorem not_covers_of_lt (h : ∀ t ∈ ss, s.upper.upperCut < (t.lower.lowerCut : WithTop (Cut V)))
    (hx : (x : WithTop (Cut V)) ≤ s.upper.upperCut) : ¬ Covers ss x := by
  rintro ⟨t, ht, hle, -⟩
  exact absurd ((hx.trans_lt (h t ht)).trans_le (WithTop.coe_le_coe.mpr hle)) (lt_irrefl _)

/-! ## Equality -/

/-- An interval that is not after a list that holds the same is the first of that list. -/
theorem lower_le_of_covers (hs : Ordered (s :: ss)) (ht : Ordered (t :: ts))
    (h : Covers (s :: ss) s.lower.lowerCut → Covers (t :: ts) s.lower.lowerCut) :
    t.lower.lowerCut ≤ s.lower.lowerCut := by
  rw [ordered_cons] at hs ht
  obtain ⟨u, hu, hle, -⟩ := h ⟨s, List.mem_cons_self, le_rfl, hs.1⟩
  rcases List.mem_cons.mp hu with rfl | hu
  · exact hle
  · have hlt := ht.1.trans (ht.2.1 u hu)
    exact (WithTop.coe_lt_coe.mp hlt).le.trans hle

theorem upper_le_of_covers (ht : Ordered (t :: ts)) (hlower : s.lower.lowerCut = t.lower.lowerCut)
    (h : ∀ x : Cut V, x = t.upper.upperCut → Covers (s :: ss) x → Covers (t :: ts) x) :
    s.upper.upperCut ≤ t.upper.upperCut := by
  rw [ordered_cons] at ht
  by_contra hlt
  push Not at hlt
  obtain ⟨x, hx⟩ := WithTop.ne_top_iff_exists.mp (ne_top_of_lt hlt)
  have hat : s.At x := by
    refine ⟨?_, hx ▸ hlt⟩
    rw [hlower]
    exact WithTop.coe_le_coe.mp (hx ▸ ht.1.le)
  rcases covers_cons.mp (h x hx (covers_cons.mpr (Or.inl hat))) with ⟨-, hlt'⟩ | hcov
  · exact absurd (hx ▸ hlt') (lt_irrefl _)
  · exact not_covers_of_lt ht.2.1 hx.le hcov

theorem covers_of_covers_cons
    (hgap : ∀ t ∈ ss, s.upper.upperCut < (t.lower.lowerCut : WithTop (Cut V)))
    (h : Covers (s :: ss) x → Covers (s :: ts) x) (hx : Covers ss x) : Covers ts x := by
  rcases covers_cons.mp (h (covers_cons.mpr (Or.inr hx))) with hat | hcov
  · exact absurd hx (not_covers_of_lt hgap hat.2.le)
  · exact hcov

/-- Lists of intervals in canonical form are equal if they hold the same of some cuts, those among them at
which their intervals start and end. -/
theorem eq_of_covers {cuts : Set (Cut V)} (hs : Ordered ss) (ht : Ordered ts) (hss : ∀ s ∈ ss, s.EndsIn cuts)
    (hts : ∀ t ∈ ts, t.EndsIn cuts) (h : ∀ x ∈ cuts, Covers ss x ↔ Covers ts x) : ss = ts := by
  induction ss generalizing ts with
  | nil =>
    cases ts with
    | nil => rfl
    | cons t ts =>
      have hlower := (hts t List.mem_cons_self).lower
      exact absurd ((h _ hlower).mpr ⟨t, List.mem_cons_self, le_rfl, (ordered_cons.mp ht).1⟩) covers_nil
  | cons s ss ih =>
    rw [List.forall_mem_cons] at hss
    cases ts with
    | nil =>
      exact absurd ((h _ hss.1.lower).mp ⟨s, List.mem_cons_self, le_rfl, (ordered_cons.mp hs).1⟩) covers_nil
    | cons t ts =>
      rw [List.forall_mem_cons] at hts
      have hlower := le_antisymm (lower_le_of_covers ht hs (h _ hts.1.lower).mpr)
        (lower_le_of_covers hs ht (h _ hss.1.lower).mp)
      have hupper := le_antisymm (upper_le_of_covers ht hlower fun x hx => (h x (hts.1.upper x hx)).mp)
        (upper_le_of_covers hs hlower.symm fun x hx => (h x (hss.1.upper x hx)).mpr)
      have hst : s = t := by
        obtain ⟨l, u⟩ := s
        obtain ⟨l', u'⟩ := t
        rw [Segment.mk.injEq]
        exact ⟨Bound.lowerCut_injective hlower, Bound.upperCut_injective hupper⟩
      subst hst
      rw [ordered_cons] at hs ht
      have hrest : ∀ x ∈ cuts, Covers ss x ↔ Covers ts x := fun x hx =>
        ⟨covers_of_covers_cons hs.2.1 fun hc => (h x hx).mp hc,
          covers_of_covers_cons ht.2.1 fun hc => (h x hx).mpr hc⟩
      rw [ih hs.2.2 ht.2.2 hss.2 hts.2 hrest]

theorem eq_of_at_of_endsIn {r s : Ranges V} {cuts : Set (Cut V)} (hr : r.Canonical) (hs : s.Canonical)
    (hrcuts : ∀ t ∈ r.segments, t.EndsIn cuts) (hscuts : ∀ t ∈ s.segments, t.EndsIn cuts)
    (h : ∀ x ∈ cuts, r.At x ↔ s.At x) : r = s := by
  obtain ⟨ss⟩ := r
  obtain ⟨ts⟩ := s
  rw [Ranges.mk.injEq]
  exact eq_of_covers hr hs hrcuts hscuts h

theorem eq_of_at {r s : Ranges V} (hr : r.Canonical) (hs : s.Canonical) (h : ∀ x, r.At x ↔ s.At x) :
    r = s :=
  have hends : ∀ t : Segment V, t.EndsIn Set.univ := fun _ => ⟨Set.mem_univ _, fun _ _ => Set.mem_univ _⟩
  eq_of_at_of_endsIn hr hs (fun t _ => hends t) (fun t _ => hends t) fun x _ => h x

/-! ## Membership -/

theorem segmentsContain_iff (h : Ordered ss) (v : V) :
    segmentsContain v ss = true ↔ Covers ss (.ofVersion v false) := by
  induction ss with
  | nil => simp [segmentsContain, covers_nil]
  | cons s ss ih =>
    rw [ordered_cons] at h
    rw [covers_cons, segmentsContain]
    split_ifs with hbelow habove
    · rw [Bound.excludesBelow_iff] at hbelow
      simp only [false_iff, not_or]
      refine ⟨fun hat => absurd (hbelow.trans_le hat.1) (lt_irrefl _), not_covers_of_lt h.2.1 ?_⟩
      exact ((WithTop.coe_lt_coe.mpr hbelow).trans h.1).le
    · rw [Bound.excludesBelow_iff, not_lt] at hbelow
      rw [Bound.admitsAbove_iff] at habove
      exact iff_of_true rfl (Or.inl ⟨hbelow, habove⟩)
    · rw [Bound.admitsAbove_iff] at habove
      rw [ih h.2.2]
      exact ⟨Or.inr, fun hc => hc.resolve_left fun hat => habove hat.2⟩

theorem contains_iff {r : Ranges V} (h : r.Canonical) (v : V) :
    r.contains v = true ↔ r.At (.ofVersion v false) :=
  segmentsContain_iff h v

/-! ## Constants -/

theorem canonical_empty : (empty : Ranges V).Canonical := ordered_nil

theorem not_at_empty : ¬ (empty : Ranges V).At x := covers_nil

theorem canonical_full : (full : Ranges V).Canonical :=
  ordered_cons.mpr ⟨WithTop.coe_lt_top _, by simp, ordered_nil⟩

theorem at_full : (full : Ranges V).At x := ⟨_, List.mem_cons_self, bot_le, WithTop.coe_lt_top _⟩

theorem canonical_singleton (v : V) : (singleton v).Canonical :=
  ordered_cons.mpr ⟨WithTop.coe_lt_coe.mpr (Cut.ofVersion_lt_iff.mpr (Or.inr ⟨rfl, rfl, rfl⟩)), by simp,
    ordered_nil⟩

theorem canonical_atLeast (v : V) : (atLeast v).Canonical :=
  ordered_cons.mpr ⟨WithTop.coe_lt_top _, by simp, ordered_nil⟩

theorem canonical_above (v : V) : (above v).Canonical :=
  ordered_cons.mpr ⟨WithTop.coe_lt_top _, by simp, ordered_nil⟩

theorem canonical_atMost (v : V) : (atMost v).Canonical :=
  ordered_cons.mpr ⟨WithTop.coe_lt_coe.mpr (WithBot.bot_lt_coe _), by simp, ordered_nil⟩

theorem canonical_below (v : V) : (below v).Canonical :=
  ordered_cons.mpr ⟨WithTop.coe_lt_coe.mpr (WithBot.bot_lt_coe _), by simp, ordered_nil⟩

theorem at_singleton {v : V} : (singleton v).At x ↔ x = .ofVersion v false := by
  have hiff : (singleton v).At x ↔ Cut.ofVersion v false ≤ x ∧ x < .ofVersion v true := by
    simp [At, Covers, singleton, Segment.At, Bound.lowerCut, Bound.upperCut]
  rw [hiff]
  constructor
  · rintro ⟨hle, hlt⟩
    cases x with
    | none => exact absurd hle (WithBot.not_coe_le_bot _)
    | some c =>
      obtain ⟨⟨w, after⟩, rfl⟩ := toLex.surjective c
      change Cut.ofVersion v false ≤ .ofVersion w after at hle
      change Cut.ofVersion w after < .ofVersion v true at hlt
      change Cut.ofVersion w after = _
      rw [← not_lt, Cut.ofVersion_lt_iff] at hle
      rw [Cut.ofVersion_lt_iff] at hlt
      rcases hlt with hlt | ⟨rfl, rfl, -⟩
      · exact absurd (Or.inl hlt) hle
      · rfl
  · rintro rfl
    exact ⟨le_rfl, Cut.ofVersion_lt_iff.mpr (Or.inr ⟨rfl, rfl, rfl⟩)⟩

/-! ## Normalization -/

theorem ordered_append_singleton :
    Ordered (ss ++ [s]) ↔ Ordered ss ∧ (s.lower.lowerCut : WithTop (Cut V)) < s.upper.upperCut ∧
      ∀ t ∈ ss, t.upper.upperCut < (s.lower.lowerCut : WithTop (Cut V)) := by
  simp only [← Bound.isInhabited_iff, ← Bound.touches_eq_false_iff]
  constructor
  · rintro ⟨hin, hap⟩
    rw [List.pairwise_append] at hap
    exact ⟨⟨fun t ht => hin t (List.mem_append_left _ ht), hap.1⟩, hin s (by simp),
      fun t ht => hap.2.2 t ht s (List.mem_singleton_self s)⟩
  · rintro ⟨⟨hin, hap⟩, hs, hgap⟩
    refine ⟨fun t ht => ?_, List.pairwise_append.mpr ⟨hap, List.pairwise_singleton _ _, ?_⟩⟩
    · rcases List.mem_append.mp ht with ht | ht
      · exact hin t ht
      · exact (List.mem_singleton.mp ht).symm ▸ hs
    · intro t ht t' ht'
      exact (List.mem_singleton.mp ht').symm ▸ hgap t ht

theorem ordered_joinNext {kept : List (Segment V)} (h : Ordered kept.reverse)
    (hs : Bound.isInhabited s.lower s.upper = true) : Ordered (joinNext kept s).reverse := by
  rw [Bound.isInhabited_iff] at hs
  cases kept with
  | nil => exact ordered_append_singleton.mpr ⟨ordered_nil, hs, by simp⟩
  | cons last kept =>
    have hlast := h
    rw [List.reverse_cons, ordered_append_singleton] at hlast
    rw [joinNext]
    split_ifs with htouch
    · rw [List.reverse_cons, ordered_append_singleton]
      refine ⟨hlast.1, ?_, hlast.2.2⟩
      rw [Bound.upperCut_maxUpper]
      exact hlast.2.1.trans_le (le_max_left _ _)
    · rw [Bool.not_eq_true, Bound.touches_eq_false_iff] at htouch
      rw [List.reverse_cons, ordered_append_singleton]
      refine ⟨h, hs, fun t ht => ?_⟩
      rcases List.mem_cons.mp (List.mem_reverse.mp ht) with rfl | ht
      · exact htouch
      · exact ((hlast.2.2 t (List.mem_reverse.mpr ht)).trans hlast.2.1).trans htouch

theorem ordered_foldl_joinNext {kept : List (Segment V)} (h : Ordered kept.reverse)
    (hs : ∀ s ∈ ss, Bound.isInhabited s.lower s.upper = true) : Ordered (ss.foldl joinNext kept).reverse := by
  induction ss generalizing kept with
  | nil => exact h
  | cons s ss ih =>
    rw [List.forall_mem_cons] at hs
    exact ih (ordered_joinNext h hs.1) hs.2

theorem canonical_ofSegments (segments : List (Segment V)) : (ofSegments segments).Canonical := by
  refine ordered_foldl_joinNext ordered_nil fun s hs => ?_
  exact (List.mem_filter.mp (List.mem_mergeSort.mp hs)).2

/-- An interval and one that starts no earlier and touches it cover what the joined interval covers. -/
theorem at_join (hlower : s.lower.lowerCut ≤ t.lower.lowerCut)
    (htouch : Bound.touches s.upper t.lower = true) :
    Segment.At ⟨s.lower, Bound.maxUpper s.upper t.upper⟩ x ↔ s.At x ∨ t.At x := by
  have hmeet : (t.lower.lowerCut : WithTop (Cut V)) ≤ s.upper.upperCut := by
    rw [← not_lt, ← Bound.touches_eq_false_iff, htouch]
    exact Bool.noConfusion
  simp only [Segment.At, Bound.upperCut_maxUpper, lt_max_iff]
  constructor
  · rintro ⟨hle, hlt⟩
    by_cases hs : (x : WithTop (Cut V)) < s.upper.upperCut
    · exact Or.inl ⟨hle, hs⟩
    · exact Or.inr ⟨WithTop.coe_le_coe.mp (hmeet.trans (not_lt.mp hs)), hlt.resolve_left hs⟩
  · rintro (⟨hle, hlt⟩ | ⟨hle, hlt⟩)
    · exact ⟨hle, Or.inl hlt⟩
    · exact ⟨hlower.trans hle, Or.inr hlt⟩

theorem covers_joinNext {kept : List (Segment V)} (h : ∀ t ∈ kept, t.lower.lowerCut ≤ s.lower.lowerCut) :
    Covers (joinNext kept s) x ↔ Covers kept x ∨ s.At x := by
  cases kept with
  | nil => simp [joinNext, covers_cons, covers_nil]
  | cons last kept =>
    rw [joinNext]
    split_ifs with htouch
    · rw [covers_cons, covers_cons, at_join (h last List.mem_cons_self) htouch]
      tauto
    · rw [covers_cons, or_comm]

theorem lower_le_of_mem_joinNext {kept : List (Segment V)} {l : Cut V}
    (h : ∀ t ∈ kept, t.lower.lowerCut ≤ l) (hs : s.lower.lowerCut ≤ l) :
    ∀ t ∈ joinNext kept s, t.lower.lowerCut ≤ l := by
  cases kept with
  | nil => simpa [joinNext] using hs
  | cons last kept =>
    rw [List.forall_mem_cons] at h
    rw [joinNext]
    split_ifs
    · exact List.forall_mem_cons.mpr h
    · exact List.forall_mem_cons.mpr ⟨hs, List.forall_mem_cons.mpr h⟩

/-- Joining intervals that ascend by lower bound loses nothing and adds nothing. -/
theorem covers_foldl_joinNext {kept : List (Segment V)}
    (hss : ss.Pairwise fun s t => s.lower.lowerCut ≤ t.lower.lowerCut)
    (h : ∀ t ∈ kept, ∀ s ∈ ss, t.lower.lowerCut ≤ s.lower.lowerCut) :
    Covers (ss.foldl joinNext kept) x ↔ Covers kept x ∨ Covers ss x := by
  induction ss generalizing kept with
  | nil => simp [covers_nil]
  | cons s ss ih =>
    rw [List.pairwise_cons] at hss
    have hkept : ∀ t ∈ kept, t.lower.lowerCut ≤ s.lower.lowerCut := fun t ht => h t ht s List.mem_cons_self
    have hnext : ∀ t ∈ joinNext kept s, ∀ u ∈ ss, t.lower.lowerCut ≤ u.lower.lowerCut := fun t ht u hu =>
      lower_le_of_mem_joinNext (fun t ht => h t ht u (List.mem_cons_of_mem s hu)) (hss.1 u hu) t ht
    rw [List.foldl_cons, ih hss.2 hnext, covers_joinNext hkept, covers_cons, or_assoc]

theorem pairwise_mergeSort_lower (segments : List (Segment V)) :
    (segments.mergeSort fun s t => !Bound.startsBefore t.lower s.lower).Pairwise
      fun s t => s.lower.lowerCut ≤ t.lower.lowerCut := by
  have hle : ∀ s t : Segment V,
      (!Bound.startsBefore t.lower s.lower) = true ↔ s.lower.lowerCut ≤ t.lower.lowerCut := by
    intro s t
    rw [Bool.not_eq_true', ← Bool.not_eq_true, Bound.startsBefore_iff, not_lt]
  refine (List.pairwise_mergeSort ?_ ?_ segments).imp fun {s t} h => (hle s t).mp h
  · intro s t u hst htu
    rw [hle] at hst htu ⊢
    exact hst.trans htu
  · intro s t
    rw [Bool.or_eq_true, hle, hle]
    exact le_total _ _

theorem at_ofSegments (segments : List (Segment V)) : (ofSegments segments).At x ↔ Covers segments x := by
  rw [At, ofSegments, Covers]
  simp only [List.mem_reverse]
  change Covers _ x ↔ _
  rw [covers_foldl_joinNext (pairwise_mergeSort_lower _) (by simp), or_iff_right covers_nil]
  simp only [Covers, List.mem_mergeSort, List.mem_filter, Bound.isInhabited_iff]
  constructor
  · rintro ⟨s, ⟨hs, -⟩, hat⟩
    exact ⟨s, hs, hat⟩
  · rintro ⟨s, hs, hat⟩
    exact ⟨s, ⟨hs, (WithTop.coe_le_coe.mpr hat.1).trans_lt hat.2⟩, hat⟩

/-! ## Complement -/

section gaps

variable {u : Bound V}

theorem le_of_mem_gapsAbove (hgap : ∀ t ∈ ss, u.upperCut < (t.lower.lowerCut : WithTop (Cut V)))
    (h : Ordered ss) {g : Segment V} (hg : g ∈ gapsAbove u ss) :
    u.upperCut ≤ (g.lower.lowerCut : WithTop (Cut V)) := by
  induction ss generalizing u with
  | nil =>
    cases u with
    | none => cases hg
    | some e =>
      rw [gapsAbove, List.mem_singleton] at hg
      subst hg
      exact (Bound.lowerCut_flip (by simp)).ge
  | cons s ss ih =>
    rw [ordered_cons] at h
    have hs := hgap s List.mem_cons_self
    rcases List.mem_cons.mp hg with rfl | hg
    · exact (Bound.lowerCut_flip (Bound.ne_none_of_upperCut_lt hs)).ge
    · exact (hs.trans h.1).le.trans (ih h.2.1 h.2.2 hg)

theorem covers_gapsAbove (hgap : ∀ t ∈ ss, u.upperCut < (t.lower.lowerCut : WithTop (Cut V)))
    (h : Ordered ss) : Covers (gapsAbove u ss) x ↔ u.upperCut ≤ (x : WithTop (Cut V)) ∧ ¬ Covers ss x := by
  induction ss generalizing u with
  | nil =>
    cases u with
    | none => simp [gapsAbove, Covers, Bound.upperCut]
    | some e =>
      have hflip := Bound.lowerCut_flip (b := some e) (by simp)
      simp only [gapsAbove, covers_cons, covers_nil, or_false, not_false_iff, and_true, Segment.At]
      rw [← hflip, WithTop.coe_le_coe]
      exact and_iff_left (WithTop.coe_lt_top x)
  | cons s ss ih =>
    rw [ordered_cons] at h
    have hs := hgap s List.mem_cons_self
    have hu := Bound.lowerCut_flip (Bound.ne_none_of_upperCut_lt hs)
    have hl := Bound.upperCut_flip (Bound.ne_none_of_lt_lowerCut hs)
    rw [gapsAbove, covers_cons, covers_cons, ih h.2.1 h.2.2, Segment.At, Segment.At, ← WithTop.coe_le_coe,
      hu, hl, not_or, not_and_or, not_le, not_lt, WithTop.coe_lt_coe]
    constructor
    · rintro (⟨hle, hlt⟩ | ⟨hle, hnot⟩)
      · have hbefore : (x : WithTop (Cut V)) ≤ s.upper.upperCut := ((WithTop.coe_lt_coe.mpr hlt).trans h.1).le
        exact ⟨hle, Or.inl hlt, not_covers_of_lt h.2.1 hbefore⟩
      · exact ⟨(hs.trans h.1).le.trans hle, Or.inr hle, hnot⟩
    · rintro ⟨hle, hlt | hge, hnot⟩
      · exact Or.inl ⟨hle, hlt⟩
      · exact Or.inr ⟨hge, hnot⟩

theorem ordered_gapsAbove (hgap : ∀ t ∈ ss, u.upperCut < (t.lower.lowerCut : WithTop (Cut V)))
    (h : Ordered ss) : Ordered (gapsAbove u ss) := by
  induction ss generalizing u with
  | nil =>
    cases u with
    | none => exact ordered_nil
    | some e => exact ordered_cons.mpr ⟨WithTop.coe_lt_top _, by simp, ordered_nil⟩
  | cons s ss ih =>
    rw [ordered_cons] at h
    have hs := hgap s List.mem_cons_self
    have hu := Bound.lowerCut_flip (Bound.ne_none_of_upperCut_lt hs)
    have hl := Bound.upperCut_flip (Bound.ne_none_of_lt_lowerCut hs)
    rw [gapsAbove, ordered_cons]
    dsimp only
    rw [hu, hl]
    exact ⟨hs, fun g hg => h.1.trans_le (le_of_mem_gapsAbove h.2.1 h.2.2 hg), ih h.2.1 h.2.2⟩

end gaps

theorem canonical_complement {r : Ranges V} (h : r.Canonical) : r.complement.Canonical := by
  obtain ⟨segments⟩ := r
  cases segments with
  | nil => exact canonical_full
  | cons s ss =>
    have hs := ordered_cons.mp h
    have hgaps := ordered_gapsAbove hs.2.1 hs.2.2
    obtain ⟨l, u⟩ := s
    cases l with
    | none => exact hgaps
    | some e =>
      refine ordered_cons.mpr ⟨?_, fun g hg => ?_, hgaps⟩
      · rw [Bound.upperCut_flip (by simp)]
        exact WithTop.coe_lt_coe.mpr (WithBot.bot_lt_coe _)
      · rw [Bound.upperCut_flip (by simp)]
        exact hs.1.trans_le (le_of_mem_gapsAbove hs.2.1 hs.2.2 hg)

theorem at_complement {r : Ranges V} (h : r.Canonical) : r.complement.At x ↔ ¬ r.At x := by
  obtain ⟨segments⟩ := r
  cases segments with
  | nil => exact iff_of_true at_full covers_nil
  | cons s ss =>
    have hs := ordered_cons.mp h
    have hgaps := covers_gapsAbove (x := x) hs.2.1 hs.2.2
    obtain ⟨l, u⟩ := s
    cases l with
    | none =>
      change Covers (gapsAbove u ss) x ↔ ¬ Covers _ x
      rw [hgaps, covers_cons, not_or, Segment.At, not_and_or, not_lt]
      exact and_congr_left' (or_iff_right (not_not.mpr bot_le)).symm
    | some e =>
      change Covers (⟨none, Bound.flip (some e)⟩ :: gapsAbove u ss) x ↔ ¬ Covers _ x
      rw [covers_cons, hgaps, covers_cons, not_or, Segment.At, Segment.At, not_and_or, not_le, not_lt,
        Bound.upperCut_flip (by simp), WithTop.coe_lt_coe]
      constructor
      · rintro (⟨-, hlt⟩ | ⟨hle, hnot⟩)
        · have hbefore : (x : WithTop (Cut V)) ≤ u.upperCut := ((WithTop.coe_lt_coe.mpr hlt).trans hs.1).le
          exact ⟨Or.inl hlt, not_covers_of_lt (s := ⟨some e, u⟩) hs.2.1 hbefore⟩
        · exact ⟨Or.inr hle, hnot⟩
      · rintro ⟨hlt | hle, hnot⟩
        · exact Or.inl ⟨bot_le, hlt⟩
        · exact Or.inr ⟨hle, hnot⟩

/-! ## Intersection -/

theorem mem_meet {g : Segment V} (h : g ∈ meet s t) :
    g = ⟨Bound.maxLower s.lower t.lower, Bound.minUpper s.upper t.upper⟩ ∧
      Bound.isInhabited g.lower g.upper = true := by
  rw [meet] at h
  split_ifs at h with hin
  · rw [List.mem_singleton] at h
    subst h
    exact ⟨rfl, hin⟩
  · cases h

theorem covers_meet : Covers (meet s t) x ↔ s.At x ∧ t.At x := by
  have hboth : Segment.At ⟨Bound.maxLower s.lower t.lower, Bound.minUpper s.upper t.upper⟩ x ↔
      s.At x ∧ t.At x := by
    simp only [Segment.At, Bound.lowerCut_maxLower, Bound.upperCut_minUpper, max_le_iff, lt_min_iff]
    exact and_and_and_comm
  rw [← hboth, meet]
  split_ifs with hin
  · simp [Covers]
  · rw [Bound.isInhabited_iff] at hin
    refine iff_of_false covers_nil fun hat => hin ?_
    exact (WithTop.coe_le_coe.mpr hat.1).trans_lt hat.2

/-- An interval is apart from everything after one that does not end before it. -/
theorem not_at_of_le (hgap : ∀ u ∈ ts, t.upper.upperCut < (u.lower.lowerCut : WithTop (Cut V)))
    (hle : s.upper.upperCut ≤ t.upper.upperCut) : ¬ (s.At x ∧ Covers ts x) := by
  rintro ⟨hat, hcov⟩
  exact not_covers_of_lt hgap (hat.2.le.trans hle) hcov

theorem covers_sweepOne {next : List (Segment V) → List (Segment V)}
    (hnext : ∀ {ts}, Ordered ts → (Covers (next ts) x ↔ Covers ss x ∧ Covers ts x))
    (hs : Ordered (s :: ss)) (ht : Ordered ts) :
    Covers (sweepOne s next ts) x ↔ Covers (s :: ss) x ∧ Covers ts x := by
  induction ts with
  | nil => simp [sweepOne, covers_nil]
  | cons t ts ih =>
    have hgap := (ordered_cons.mp ht).2.1
    rw [sweepOne, covers_append, covers_meet]
    split_ifs with hends
    · -- The interval of the left ends first, so nothing further right meets it.
      have hapart := not_at_of_le (x := x) hgap ((Bound.endsBefore_iff _ _).mp hends).le
      rw [hnext ht, covers_cons, covers_cons]
      tauto
    · -- The interval of the right ends first, so nothing further left meets it.
      rw [Bound.endsBefore_iff, not_lt] at hends
      have hapart := not_at_of_le (x := x) (ordered_cons.mp hs).2.1 hends
      rw [ih (ordered_cons.mp ht).2.2, covers_cons, covers_cons]
      tauto

theorem covers_sweep (hs : Ordered ss) (ht : Ordered ts) :
    Covers (sweep ss ts) x ↔ Covers ss x ∧ Covers ts x := by
  induction ss generalizing ts with
  | nil => exact iff_of_false covers_nil fun h => covers_nil h.1
  | cons s ss ih => exact covers_sweepOne (ih (ordered_cons.mp hs).2.2) hs ht

/-- Each interval of a sweep is what an interval of the left and one of the right have in common. -/
theorem exists_of_mem_sweepOne {next : List (Segment V) → List (Segment V)} {g : Segment V}
    (hnext : ∀ {ts}, g ∈ next ts → ∃ s ∈ ss, ∃ t ∈ ts, g ∈ meet s t)
    (hg : g ∈ sweepOne s next ts) : ∃ u ∈ s :: ss, ∃ t ∈ ts, g ∈ meet u t := by
  induction ts with
  | nil => cases hg
  | cons t ts ih =>
    rcases List.mem_append.mp hg with hg | hg
    · exact ⟨s, List.mem_cons_self, t, List.mem_cons_self, hg⟩
    · split_ifs at hg
      · obtain ⟨u, hu, v, hv, hg⟩ := hnext hg
        exact ⟨u, List.mem_cons_of_mem s hu, v, hv, hg⟩
      · obtain ⟨u, hu, v, hv, hg⟩ := ih hg
        exact ⟨u, hu, v, List.mem_cons_of_mem t hv, hg⟩

theorem exists_of_mem_sweep {g : Segment V} (hg : g ∈ sweep ss ts) :
    ∃ s ∈ ss, ∃ t ∈ ts, g ∈ meet s t := by
  induction ss generalizing ts with
  | nil => cases hg
  | cons s ss ih => exact exists_of_mem_sweepOne ih hg

theorem ordered_meet_append {gs : List (Segment V)} (h : Ordered gs)
    (hgap : ∀ g ∈ gs, min s.upper.upperCut t.upper.upperCut < (g.lower.lowerCut : WithTop (Cut V))) :
    Ordered (meet s t ++ gs) := by
  rw [meet]
  split_ifs with hin
  · rw [← Bound.upperCut_minUpper] at hgap
    exact ordered_cons.mpr ⟨(Bound.isInhabited_iff _ _).mp hin, hgap, h⟩
  · exact h

theorem lower_le_of_mem_meet {g : Segment V} (h : g ∈ meet s t) :
    s.lower.lowerCut ≤ g.lower.lowerCut ∧ t.lower.lowerCut ≤ g.lower.lowerCut := by
  have hg : g.lower.lowerCut = max s.lower.lowerCut t.lower.lowerCut := by
    rw [(mem_meet h).1, Bound.lowerCut_maxLower]
  rw [hg]
  exact ⟨le_max_left _ _, le_max_right _ _⟩

theorem ordered_sweep (hs : Ordered ss) (ht : Ordered ts) : Ordered (sweep ss ts) := by
  induction ss generalizing ts with
  | nil => exact ordered_nil
  | cons s ss ihs =>
    rw [ordered_cons] at hs
    rw [sweep]
    induction ts with
    | nil => exact ordered_nil
    | cons t ts iht =>
      have hgap := (ordered_cons.mp ht).2.1
      rw [sweepOne]
      split_ifs with hends
      · refine ordered_meet_append (ihs hs.2.2 ht) fun g hg => ?_
        obtain ⟨u, hu, v, -, hg⟩ := exists_of_mem_sweep hg
        calc min s.upper.upperCut t.upper.upperCut ≤ s.upper.upperCut := min_le_left _ _
          _ < u.lower.lowerCut := hs.2.1 u hu
          _ ≤ g.lower.lowerCut := WithTop.coe_le_coe.mpr (lower_le_of_mem_meet hg).1
      · refine ordered_meet_append (iht (ordered_cons.mp ht).2.2) fun g hg => ?_
        obtain ⟨u, -, v, hv, hg⟩ := exists_of_mem_sweepOne exists_of_mem_sweep hg
        calc min s.upper.upperCut t.upper.upperCut ≤ t.upper.upperCut := min_le_right _ _
          _ < v.lower.lowerCut := hgap v hv
          _ ≤ g.lower.lowerCut := WithTop.coe_le_coe.mpr (lower_le_of_mem_meet hg).2

theorem canonical_intersection {r s : Ranges V} (hr : r.Canonical) (hs : s.Canonical) :
    (r.intersection s).Canonical :=
  ordered_sweep hr hs

theorem at_intersection {r s : Ranges V} (hr : r.Canonical) (hs : s.Canonical) :
    (r.intersection s).At x ↔ r.At x ∧ s.At x :=
  covers_sweep hr hs

/-! ## The laws -/

section operations

variable (r s : Ranges V) (v : V)

@[simp] theorem versionSet_empty : (VersionSet.empty : Ranges V) = empty := rfl

@[simp] theorem versionSet_full : (VersionSet.full : Ranges V) = full := rfl

@[simp] theorem versionSet_singleton : (VersionSet.singleton v : Ranges V) = singleton v := rfl

@[simp] theorem versionSet_complement : VersionSet.complement r = r.complement := rfl

@[simp] theorem versionSet_intersection : VersionSet.intersection r s = r.intersection s := rfl

@[simp] theorem versionSet_contains : VersionSet.contains r v = r.contains v := rfl

theorem versionSet_union :
    VersionSet.union r s = (r.complement.intersection s.complement).complement := rfl

end operations

theorem canonical_union {r s : Ranges V} (hr : r.Canonical) (hs : s.Canonical) :
    (VersionSet.union r s).Canonical :=
  canonical_complement (canonical_intersection (canonical_complement hr) (canonical_complement hs))

theorem at_union {r s : Ranges V} (hr : r.Canonical) (hs : s.Canonical) :
    (VersionSet.union r s).At x ↔ r.At x ∨ s.At x := by
  have hr' := canonical_complement hr
  have hs' := canonical_complement hs
  rw [versionSet_union, at_complement (canonical_intersection hr' hs'), at_intersection hr' hs',
    at_complement hr, at_complement hs, not_and_or, not_not, not_not]

instance : LawfulVersionSet (Ranges V) V where
  Proper := Canonical
  proper_empty := canonical_empty
  proper_full := canonical_full
  proper_singleton := canonical_singleton
  proper_complement := canonical_complement
  proper_intersection := canonical_intersection
  complement_complement hr := by
    have hr' := canonical_complement hr
    refine eq_of_at (canonical_complement hr') hr fun x => ?_
    rw [versionSet_complement, versionSet_complement, at_complement hr', at_complement hr, not_not]
  intersection_comm hr hs := by
    refine eq_of_at (canonical_intersection hr hs) (canonical_intersection hs hr) fun x => ?_
    rw [versionSet_intersection, versionSet_intersection, at_intersection hr hs, at_intersection hs hr,
      and_comm]
  intersection_assoc hr hs ht := by
    have hrs := canonical_intersection hr hs
    have hst := canonical_intersection hs ht
    refine eq_of_at (canonical_intersection hrs ht) (canonical_intersection hr hst) fun x => ?_
    simp only [versionSet_intersection]
    rw [at_intersection hrs ht, at_intersection hr hs, at_intersection hr hst, at_intersection hs ht,
      and_assoc]
  intersection_full hr := by
    refine eq_of_at (canonical_intersection hr canonical_full) hr fun x => ?_
    rw [versionSet_intersection, versionSet_full, at_intersection hr canonical_full]
    exact and_iff_left at_full
  intersection_complement hr := by
    have hr' := canonical_complement hr
    refine eq_of_at (canonical_intersection hr hr') canonical_empty fun x => ?_
    rw [versionSet_intersection, versionSet_complement, at_intersection hr hr', at_complement hr]
    exact iff_of_false and_not_self not_at_empty
  intersection_union hr hs ht := by
    have hst := canonical_union hs ht
    have hrs := canonical_intersection hr hs
    have hrt := canonical_intersection hr ht
    refine eq_of_at (canonical_intersection hr hst) (canonical_union hrs hrt) fun x => ?_
    simp only [versionSet_intersection]
    rw [at_intersection hr hst, at_union hs ht, at_union hrs hrt, at_intersection hr hs,
      at_intersection hr ht, and_or_left]
  contains_complement v hr := by
    rw [versionSet_complement, versionSet_contains, versionSet_contains, Bool.eq_iff_iff,
      contains_iff (canonical_complement hr), at_complement hr, Bool.not_eq_true', ← Bool.not_eq_true,
      contains_iff hr]
  contains_intersection v hr hs := by
    simp only [versionSet_intersection, versionSet_contains]
    rw [Bool.eq_iff_iff, Bool.and_eq_true, contains_iff (canonical_intersection hr hs),
      at_intersection hr hs, contains_iff hr, contains_iff hs]
  contains_singleton v w := by
    rw [versionSet_singleton, versionSet_contains, contains_iff (canonical_singleton v), at_singleton,
      Cut.ofVersion_inj]
    exact and_iff_left rfl
  singleton_intersection {r v} hr hv := by
    have hsingle := canonical_singleton v
    refine eq_of_at (canonical_intersection hsingle hr) hsingle fun x => ?_
    rw [versionSet_intersection, versionSet_singleton, at_intersection hsingle hr, at_singleton,
      and_iff_left_iff_imp]
    rintro rfl
    exact (contains_iff hr v).mp hv

end Ranges

end DependencyResolution
