import DependencyResolution.Proofs.Version.Constraint
import DependencyResolution.Proofs.Version.Grammar
import DependencyResolution.Version.Ranges.Text

/-!
# Sets of versions are printed as constraints

The text of a set that is not empty is a constraint but for the single bars with blanks around them, which
`closeBars` turns into separators of alternatives. Each interval is printed as the conditions that its bounds
set (`Segment.conditions`), so the constraint that is read back holds the same cuts as the set, and `parse`
gives the set again, whatever special forms the text uses. For this the bounds must be printed so that they
can be read, without signs and within the limit for numbers; that the set was read does not ensure the
latter.
-/

namespace DependencyResolution

open Text Constraint

/-! ## Conditions of intervals -/

def Endpoint.lowerCondition (e : Endpoint SemanticVersion) : Condition :=
  .compare (if e.inclusive then .atLeast else .above) e.version

def Endpoint.upperCondition (e : Endpoint SemanticVersion) : Condition :=
  .compare (if e.inclusive then .atMost else .below) e.version

def Segment.conditions (s : Segment SemanticVersion) : List Condition :=
  match s.lower, s.upper with
  | none, none => [.any]
  | some l, none => [l.lowerCondition]
  | none, some u => [u.upperCondition]
  | some l, some u => if l = u then [.compare .equal l.version] else [l.lowerCondition, u.upperCondition]

variable {s : Segment SemanticVersion} {r : Ranges SemanticVersion} {x : Cut SemanticVersion}

theorem Ranges.at_cons_nil {l u : Bound SemanticVersion} :
    (⟨[⟨l, u⟩]⟩ : Ranges SemanticVersion).At x ↔ l.lowerCut ≤ x ∧ (x : WithTop (Cut SemanticVersion)) < u.upperCut := by
  simp [At, Covers, Segment.At]

theorem Endpoint.at_lowerCondition (e : Endpoint SemanticVersion) :
    e.lowerCondition.ranges.At x ↔ Bound.lowerCut (some e) ≤ x := by
  obtain ⟨v, _ | _⟩ := e
  · exact Ranges.at_cons_nil.trans (and_iff_left (WithTop.coe_lt_top _))
  · exact Ranges.at_cons_nil.trans (and_iff_left (WithTop.coe_lt_top _))

theorem Endpoint.at_upperCondition (e : Endpoint SemanticVersion) :
    e.upperCondition.ranges.At x ↔ (x : WithTop (Cut SemanticVersion)) < Bound.upperCut (some e) := by
  obtain ⟨v, _ | _⟩ := e
  · exact Ranges.at_cons_nil.trans (and_iff_right bot_le)
  · exact Ranges.at_cons_nil.trans (and_iff_right bot_le)

theorem Segment.at_conditions (h : Bound.isInhabited s.lower s.upper = true) :
    (∀ c ∈ s.conditions, c.ranges.At x) ↔ s.At x := by
  obtain ⟨_ | l, _ | u⟩ := s
  · rw [conditions, List.forall_mem_singleton]
    exact Ranges.at_cons_nil
  · rw [conditions, List.forall_mem_singleton, Endpoint.at_upperCondition]
    exact (and_iff_right bot_le).symm
  · rw [conditions, List.forall_mem_singleton, Endpoint.at_lowerCondition]
    exact (and_iff_left (WithTop.coe_lt_top x)).symm
  · simp only [conditions]
    split
    · next heq =>
      -- what is left between equal bounds is a version that both include
      obtain ⟨v, i⟩ := l
      rw [Segment.isInhabited_iff] at h
      obtain hlt | ⟨-, hi, -⟩ := h _ rfl _ rfl
      · exact absurd hlt (by simp [← heq])
      · obtain rfl := heq
        obtain rfl := hi
        rw [List.forall_mem_singleton]
        exact Ranges.at_cons_nil
    · rw [List.forall_mem_cons, List.forall_mem_singleton, Endpoint.at_lowerCondition,
        Endpoint.at_upperCondition]
      rfl

def Ranges.alternatives (r : Ranges SemanticVersion) : List (List Condition) :=
  match Ranges.leftOut? r with
  | some v => [[.compare .different v]]
  | none => r.segments.map Segment.conditions

theorem Ranges.eq_complement_of_leftOut? {v : SemanticVersion} (h : leftOut? r = some v) :
    r = (singleton v).complement := by
  obtain ⟨segments⟩ := r
  rw [leftOut?] at h
  split at h
  · next upper lower hsegments =>
    obtain ⟨w, i⟩ := upper
    split at h
    · next hflat =>
      obtain ⟨rfl, hi⟩ := hflat
      obtain rfl := Option.some.inj h
      obtain rfl : i = false := hi
      obtain rfl : segments = _ := hsegments
      rfl
    · cases h
  · cases h

theorem anyOf_alternatives (hr : r.Canonical) : anyOf r.alternatives = r := by
  refine Ranges.eq_of_at (canonical_anyOf _) hr fun x => ?_
  rw [at_anyOf, Ranges.alternatives]
  split
  · next v hleft =>
    rw [Ranges.eq_complement_of_leftOut? hleft]
    simp [Condition.ranges]
  · simp only [List.mem_map, exists_exists_and_eq_and]
    exact exists_congr fun s => and_congr_right fun hs => Segment.at_conditions (hr.inhabited s hs)

/-! ## Texts of intervals -/

/-- The text is the condition's, without blanks around it. -/
structure Constraint.Condition.PrintedAs (c : Condition) (text : String) : Prop where
  written : c.Written text.toList
  isFirm : IsFirm text.toList

/-- The versions that are printed and read back. -/
def printableVersions : Set SemanticVersion := {v | v.IsNatural ∧ Shown.isWritable v = true}

theorem Constraint.Condition.printedAs_compare {op : Operator} {spelling : String}
    (h : spelling.toList ∈ op.texts) {v : SemanticVersion} (hv : v ∈ printableVersions) :
    (Condition.compare op v).PrintedAs (spelling ++ Shown.text v) := by
  have hread : SemanticVersion.parse (String.ofList (Shown.text v).toList) = .ok v := by
    rw [String.ofList_toList, SemanticVersion.parse_text_of_isNatural hv.1 hv.2]
  have htoken := SemanticVersion.isSolid_text hv.1
  have hwritten := Condition.Written.compare h isBlanks_nil htoken hread
  rw [List.append_nil, ← String.toList_append] at hwritten
  refine ⟨hwritten, IsSolid.isFirm ?_ ?_⟩
  · intro c hc
    rw [String.toList_append] at hc
    exact (List.mem_append.mp hc).elim (isSolid_of_mem_texts h c) (htoken c)
  · intro hnil
    rw [hnil] at hwritten
    exact not_written_nil _ hwritten

theorem Endpoint.printedAs_lowerText {e : Endpoint SemanticVersion} (he : e.version ∈ printableVersions) :
    e.lowerCondition.PrintedAs (Ranges.segmentText.lowerText e) := by
  obtain ⟨v, _ | _⟩ := e
  · have h : ">".toList ∈ Operator.above.texts := by decide
    exact Condition.printedAs_compare h he
  · have h : ">=".toList ∈ Operator.atLeast.texts := by decide
    exact Condition.printedAs_compare h he

theorem Endpoint.printedAs_upperText {e : Endpoint SemanticVersion} (he : e.version ∈ printableVersions) :
    e.upperCondition.PrintedAs (Ranges.segmentText.upperText e) := by
  obtain ⟨v, _ | _⟩ := e
  · have h : "<".toList ∈ Operator.below.texts := by decide
    exact Condition.printedAs_compare h he
  · have h : "<=".toList ∈ Operator.atMost.texts := by decide
    exact Condition.printedAs_compare h he

/-- The text is that of an alternative, without blanks around it. -/
structure AlternativePrintedAs (conditions : List Condition) (text : String) : Prop where
  written : WrittenAll conditions text.toList
  isFirm : IsFirm text.toList

variable {c d : Condition} {text text' : String}

theorem Constraint.Condition.PrintedAs.alone (h : c.PrintedAs text) : AlternativePrintedAs [c] text where
  written := by
    refine ⟨by simp, [text.toList], by simp, .cons ?_ .nil⟩
    rw [h.isFirm.trimBlanks_eq_self]
    exact h.written
  isFirm := h.isFirm

theorem Constraint.Condition.PrintedAs.pair (hc : c.PrintedAs text) (hd : d.PrintedAs text') :
    AlternativePrintedAs [c, d] (text ++ ", " ++ text') where
  written := by
    refine ⟨by simp, [text.toList, ' ' :: text'.toList], by simp [List.intercalate], .cons ?_ (.cons ?_ .nil)⟩
    · rw [hc.isFirm.trimBlanks_eq_self]
      exact hc.written
    · have hblank : IsBlanks [' '] := by decide
      have htrim := trimBlanks_append hblank isBlanks_nil text'.toList
      rw [List.append_nil, hd.isFirm.trimBlanks_eq_self] at htrim
      rw [← List.singleton_append, htrim]
      exact hd.written
  isFirm := by
    have h := hc.isFirm.append hd.isFirm ", ".toList
    rwa [← String.toList_append, ← String.toList_append] at h

theorem Segment.printedAs_segmentText (hs : s.Within printableVersions) :
    AlternativePrintedAs s.conditions (Ranges.segmentText s) := by
  obtain ⟨_ | l, _ | u⟩ := s
  · exact Condition.PrintedAs.alone ⟨.any, ⟨'*', rfl, by decide⟩, ⟨'*', rfl, by decide⟩⟩
  · exact (u.printedAs_upperText (hs.upper u rfl)).alone
  · exact (l.printedAs_lowerText (hs.lower l rfl)).alone
  · have hl := hs.lower l rfl
    simp only [conditions, Ranges.segmentText]
    split
    · have h : "==".toList ∈ Operator.equal.texts := by decide
      exact (Condition.printedAs_compare h hl).alone
    · exact (l.printedAs_lowerText hl).pair (u.printedAs_upperText (hs.upper u rfl))

/-! ## The text of a set -/

/-- The text with every single bar between blanks, from the left, replaced by the separator of
alternatives. -/
def closeBars : List Char → List Char
  | ' ' :: '|' :: ' ' :: rest => '|' :: '|' :: closeBars rest
  | c :: rest => c :: closeBars rest
  | [] => []

theorem closeBars_eq_self {cs : List Char} (h : '|' ∉ cs) : closeBars cs = cs := by
  induction cs with
  | nil => rfl
  | cons c cs ih =>
    rw [List.mem_cons, not_or] at h
    rw [closeBars, ih h.2]
    rintro rest rfl rfl
    exact h.2 List.mem_cons_self

theorem closeBars_append {cs : List Char} (h : '|' ∉ cs) (rest : List Char) :
    closeBars (cs ++ [' ', '|', ' '] ++ rest) = cs ++ ['|', '|'] ++ closeBars rest := by
  induction cs with
  | nil => rfl
  | cons c cs ih =>
    rw [List.mem_cons, not_or] at h
    rw [List.cons_append, List.cons_append, closeBars, ih h.2]
    · rfl
    · -- what follows a character is the next one or a blank, no bar
      rintro after rfl hafter
      cases cs with
      | nil => cases hafter
      | cons d cs =>
        obtain ⟨rfl, -⟩ := List.cons.inj hafter
        exact h.2 List.mem_cons_self

theorem closeBars_intercalate {pieces : List (List Char)} (h : ∀ piece ∈ pieces, '|' ∉ piece) :
    closeBars ([' ', '|', ' '].intercalate pieces) = ['|', '|'].intercalate pieces := by
  induction pieces with
  | nil => rfl
  | cons piece pieces ih =>
    rw [List.forall_mem_cons] at h
    cases pieces with
    | nil => simpa using closeBars_eq_self h.1
    | cons piece' pieces =>
      rw [List.intercalate_cons_cons, List.intercalate_cons_cons, closeBars_append h.1, ih h.2]

/-- Alternatives that are printed one after another with bars between them are a constraint. -/
theorem reads_closeBars {alternatives : List (List Condition)} {texts : List String} (hne : alternatives ≠ [])
    (h : List.Forall₂ AlternativePrintedAs alternatives texts) :
    Reads alternatives (String.ofList (closeBars (" | ".intercalate texts).toList)) := by
  have hpieces : ∀ piece ∈ texts.map String.toList,
      ∃ conditions, WrittenAll conditions piece ∧ IsFirm piece := by
    intro piece hpiece
    obtain ⟨text, htext, rfl⟩ := List.mem_map.mp hpiece
    obtain ⟨conditions, -, hprinted⟩ := exists_of_forall₂ h htext
    exact ⟨conditions, hprinted.written, hprinted.isFirm⟩
  have hbar : ∀ piece ∈ texts.map String.toList, '|' ∉ piece := by
    intro piece hpiece
    obtain ⟨_, hwritten, -⟩ := hpieces piece hpiece
    exact bar_not_mem_of_writtenAll hwritten
  have hfirm : ∀ piece ∈ texts.map String.toList, IsFirm piece := by
    intro piece hpiece
    obtain ⟨_, -, hfirm⟩ := hpieces piece hpiece
    exact hfirm
  have htexts : texts.map String.toList ≠ [] := by
    intro hnil
    rw [List.map_eq_nil_iff] at hnil
    rw [hnil, List.forall₂_nil_right_iff] at h
    exact hne h
  have hbars : " | ".toList = [' ', '|', ' '] := by decide
  rw [Reads, String.toList_ofList, String.toList_intercalate, hbars, closeBars_intercalate hbar,
    (isFirm_intercalate _ htexts hfirm).trimBlanks_eq_self]
  refine ⟨hne, texts.map String.toList, rfl, ?_⟩
  rw [List.forall₂_map_right_iff]
  refine h.imp fun conditions text hprinted => ?_
  rw [hprinted.isFirm.trimBlanks_eq_self]
  exact hprinted.written

theorem Ranges.alternatives_ne_nil (hne : r.segments ≠ []) : r.alternatives ≠ [] := by
  rw [alternatives]
  split
  · simp
  · simpa using hne

theorem Ranges.Within.mem_of_leftOut? {versions : Set SemanticVersion} {v : SemanticVersion}
    (hin : r.Within versions) (h : leftOut? r = some v) : v ∈ versions := by
  rw [eq_complement_of_leftOut? h] at hin
  exact (hin ⟨none, some ⟨v, false⟩⟩ List.mem_cons_self).upper _ rfl

theorem Ranges.exists_texts (hin : r.Within printableVersions) (hne : r.segments ≠ []) :
    ∃ texts, Ranges.text r = " | ".intercalate texts ∧ List.Forall₂ AlternativePrintedAs r.alternatives texts := by
  obtain ⟨_ | ⟨s, rest⟩⟩ := r
  · exact absurd rfl hne
  · cases hleft : leftOut? (⟨s :: rest⟩ : Ranges SemanticVersion) with
    | some v =>
      have h : "!=".toList ∈ Operator.different.texts := by decide
      refine ⟨["!=" ++ Shown.text v], ?_, ?_⟩
      · simp only [Ranges.text, hleft]
        rfl
      · simp only [alternatives, hleft]
        exact .cons (Condition.printedAs_compare h (hin.mem_of_leftOut? hleft)).alone .nil
    | none =>
      refine ⟨(s :: rest).map segmentText, ?_, ?_⟩
      · simp only [Ranges.text, hleft]
      · simp only [alternatives, hleft]
        rw [List.forall₂_map_right_iff, List.forall₂_map_left_iff, List.forall₂_same]
        exact fun s hs => Segment.printedAs_segmentText (hin s hs)

theorem Ranges.within_printableVersions (hin : r.Within SemanticVersion.naturals)
    (hwritable : Shown.isWritable r = true) : r.Within printableVersions := by
  intro s hs
  have h := List.all_eq_true.mp hwritable s hs
  rw [Bool.and_eq_true, Option.all_eq_true, Option.all_eq_true] at h
  exact ⟨fun l hl => ⟨(hin s hs).lower l hl, h.1 l hl⟩, fun u hu => ⟨(hin s hs).upper u hu, h.2 u hu⟩⟩

/-- A set that is not empty and has bounds without signs and within the limit is printed as a constraint, with
single bars for double ones, and reading it gives the set. -/
theorem Ranges.parse_text (hr : r.Canonical) (hne : r.segments ≠ []) (hin : r.Within SemanticVersion.naturals)
    (hwritable : Shown.isWritable r = true) : ∃ text, Shown.written r = .ok text ∧
      parse .semantic (String.ofList (closeBars text.toList)) = .ok r := by
  obtain ⟨texts, htext, hprinted⟩ := exists_texts (within_printableVersions hin hwritable) hne
  refine ⟨" | ".intercalate texts, htext ▸ if_pos hwritable, ?_⟩
  rw [parse_eq_ok_iff]
  exact ⟨r.alternatives, reads_closeBars (alternatives_ne_nil hne) hprinted, anyOf_alternatives hr⟩

/-- One version stands among half-lines and an interval. -/
theorem Ranges.parse_text_between : ∃ r : Ranges SemanticVersion,
    Shown.written r = .ok "<1.0.0 | ==1.2.0 | >=2.0.0, <3.0.0 | >4.0.0" ∧
      parse .semantic "<1.0.0||==1.2.0||>=2.0.0, <3.0.0||>4.0.0" = .ok r := by
  have hin : (⟨[⟨none, some ⟨⟨1, 0, 0⟩, false⟩⟩, ⟨some ⟨⟨1, 2, 0⟩, true⟩, some ⟨⟨1, 2, 0⟩, true⟩⟩,
      ⟨some ⟨⟨2, 0, 0⟩, true⟩, some ⟨⟨3, 0, 0⟩, false⟩⟩, ⟨some ⟨⟨4, 0, 0⟩, false⟩, none⟩]⟩ :
        Ranges SemanticVersion).Within SemanticVersion.naturals := by
    intro s hs
    simp only [List.mem_cons, List.not_mem_nil, or_false] at hs
    rcases hs with rfl | rfl | rfl | rfl
    all_goals
      constructor <;> simp [Bound.Within, SemanticVersion.naturals, SemanticVersion.IsNatural]
  obtain ⟨text, htext, hparse⟩ := parse_text ⟨by decide, by decide⟩ (by decide) hin (by decide +kernel)
  have hprinted : Shown.written (⟨[⟨none, some ⟨⟨1, 0, 0⟩, false⟩⟩,
      ⟨some ⟨⟨1, 2, 0⟩, true⟩, some ⟨⟨1, 2, 0⟩, true⟩⟩, ⟨some ⟨⟨2, 0, 0⟩, true⟩, some ⟨⟨3, 0, 0⟩, false⟩⟩,
      ⟨some ⟨⟨4, 0, 0⟩, false⟩, none⟩]⟩ : Ranges SemanticVersion) =
        .ok "<1.0.0 | ==1.2.0 | >=2.0.0, <3.0.0 | >4.0.0" := by decide +kernel
  obtain rfl := Except.ok.inj (htext.symm.trans hprinted)
  exact ⟨_, hprinted, hparse⟩

/-! ## Bounds that are not printed -/

theorem anyOf_singleton (c : Condition) : anyOf [[c]] = c.ranges :=
  Ranges.eq_of_at (canonical_anyOf _) (built_ranges c).canonical fun x => by simp [at_anyOf]

theorem Ranges.between_eq {v w : SemanticVersion} (h : v < w) :
    between v w = ⟨[⟨some ⟨v, true⟩, some ⟨w, false⟩⟩]⟩ := by
  simp [between, ofSegments, Bound.isInhabited, h, joinNext]

/-- The greatest number that can be written. -/
def greatestNumber : Nat := 10 ^ digitLimit - 1

theorem greatestNumber_add_one : greatestNumber + 1 = 10 ^ digitLimit :=
  Nat.sub_add_cancel (Nat.pow_pos (by decide))

theorem isShort_greatestNumber : isShort greatestNumber = true := by
  rw [SemanticVersion.isShort_iff, Int.natAbs_natCast, ← greatestNumber_add_one]
  exact Nat.lt_add_one greatestNumber

theorem isShort_greatestNumber_add_one : isShort (greatestNumber + 1) = false := by
  rw [Bool.eq_false_iff, Ne, SemanticVersion.isShort_iff, ← Int.natCast_succ, Int.natAbs_natCast, Nat.succ_eq_add_one,
    greatestNumber_add_one]
  exact Nat.lt_irrefl _

namespace SemanticVersion

theorem positive_nines {k : Nat} (hk : 0 < k) : Positive (10 ^ k - 1) (List.replicate k '9') := by
  induction k, hk using Nat.le_induction with
  | base => exact .first (by decide) (by decide) (by decide)
  | succ k _ ih =>
    have hvalue : 10 ^ (k + 1) - 1 = 10 * (10 ^ k - 1) + 9 := by
      have hpos : 0 < 10 ^ k := Nat.pow_pos (by decide)
      rw [Nat.pow_succ]
      omega
    rw [hvalue, List.replicate_succ']
    exact ih.next (by decide)

theorem written_nines : Written ⟨greatestNumber, 0, 0⟩ (List.replicate digitLimit '9') := by
  have h : Written ⟨greatestNumber, 0, 0⟩ (List.replicate digitLimit '9' ++ ([] ++ [])) :=
    ⟨.major (.positive (positive_nines (by decide))), .absent, .absent⟩
  rwa [List.append_nil, List.append_nil] at h

theorem parse_nines : parse (String.ofList (List.replicate digitLimit '9')) = .ok ⟨greatestNumber, 0, 0⟩ := by
  refine Denotes.parse_eq_ok ?_ (isWritable_iff.mpr ⟨isShort_greatestNumber, by decide +kernel, by decide +kernel⟩)
  rw [denotes_iff_written, String.toList_ofList, trimBlanks_eq_self written_nines.isSolid]
  exact written_nines

end SemanticVersion

theorem ranges_caret_greatestNumber : (Condition.compare .caret ⟨greatestNumber, 0, 0⟩).ranges =
    ⟨[⟨some ⟨⟨greatestNumber, 0, 0⟩, true⟩, some ⟨⟨greatestNumber + 1, 0, 0⟩, false⟩⟩]⟩ := by
  have hne : (greatestNumber : Int) ≠ 0 := by
    have hone : 1 < 10 ^ digitLimit := Nat.one_lt_pow (by decide) (by decide)
    have hsucc := greatestNumber_add_one
    omega
  rw [Condition.ranges, if_neg hne]
  exact Ranges.between_eq (Or.inl (Int.lt_succ _))

/-- The upper bound that `^` sets has one digit more than the version that was read. -/
theorem Ranges.caret_not_written : ∃ r : Ranges SemanticVersion,
    parse .semantic (String.ofList ('^' :: List.replicate digitLimit '9')) = .ok r ∧
      r.Canonical ∧ r.segments ≠ [] ∧ r.Within SemanticVersion.naturals ∧
      Shown.written r = .error .unwritable := by
  have hsolid := SemanticVersion.written_nines.isSolid
  have hcaret : ['^'] ∈ Operator.caret.texts := by decide
  have hwritten := Condition.Written.compare hcaret isBlanks_nil hsolid SemanticVersion.parse_nines
  rw [List.append_nil, List.singleton_append] at hwritten
  have hreads := reads_singleton hwritten (isSolid_cons.mpr ⟨by decide, hsolid⟩)
  refine ⟨_, parse_eq_ok_iff.mpr ⟨_, hreads, (anyOf_singleton _).trans ranges_caret_greatestNumber⟩, ?_,
    List.cons_ne_nil _ _, ?_, ?_⟩
  · rw [← ranges_caret_greatestNumber]
    exact (built_ranges _).canonical
  · intro s hs
    obtain rfl := List.mem_singleton.mp hs
    refine ⟨Bound.within_some.mpr ⟨Int.natCast_nonneg _, le_rfl, le_rfl⟩, Bound.within_some.mpr ⟨?_, le_rfl, le_rfl⟩⟩
    exact Int.add_nonneg (Int.natCast_nonneg _) Int.one_nonneg
  · refine if_neg fun hwritable => ?_
    have hbounds := Bool.and_eq_true_iff.mp (List.all_eq_true.mp hwritable _ List.mem_cons_self)
    have hversion := (Option.all_eq_true _ _).mp hbounds.2 _ rfl
    have hshort := (SemanticVersion.isWritable_iff.mp hversion).1
    rw [isShort_greatestNumber_add_one] at hshort
    cases hshort

end DependencyResolution
