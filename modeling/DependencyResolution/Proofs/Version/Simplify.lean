import DependencyResolution.Proofs.Version.Ranges
import Mathlib.Data.List.Dedup

/-!
# Simplified sets agree on the known versions

The runs of known versions that a set holds become intervals, each from after the known version before
it to before the known version after it. They are in canonical form, and hold a known version exactly
if the set does (`Ranges.contains_simplify`).
-/

namespace DependencyResolution

namespace Ranges

variable {V : Type u} [LinearOrder V] {r : Ranges V} {before : Bound V} {opened : Option (Bound V)}
  {known : List V} {x : Cut V} {v : V}

/-- All known versions that are left come after a bound. -/
def Precedes (before : Bound V) (known : List V) : Prop :=
  known.Pairwise (· < ·) ∧ ∀ v ∈ known, before.lowerCut ≤ Cut.ofVersion v false

theorem Precedes.next (h : Precedes before (v :: known)) : Precedes (some ⟨v, false⟩) known := by
  obtain ⟨hpair, -⟩ := h
  rw [List.pairwise_cons] at hpair
  exact ⟨hpair.2, fun w hw => (Cut.ofVersion_lt_iff.mpr (Or.inl (hpair.1 w hw))).le⟩

theorem lt_lowerCut_after (v : V) : Cut.ofVersion v false < Bound.lowerCut (some ⟨v, false⟩) :=
  Cut.ofVersion_lt_iff.mpr (Or.inr ⟨rfl, rfl, rfl⟩)

theorem Precedes.lt_next (h : Precedes before (v :: known)) :
    before.lowerCut < Bound.lowerCut (some ⟨v, false⟩) :=
  (h.2 v List.mem_cons_self).trans_lt (lt_lowerCut_after v)

/-- No interval starts before the current run, or before the last known version if no run is open. -/
theorem le_of_mem_runs (opened : Option (Bound V)) (h : Precedes before known)
    (ho : ∀ l ∈ opened, l.lowerCut < before.lowerCut) :
    ∀ s ∈ runs r before opened known, (opened.getD before).lowerCut ≤ s.lower.lowerCut := by
  fun_induction runs r before opened known with
  | case1 => simp
  | case2 before lower => simp
  | case3 before v rest hv ih =>
    exact ih h.next (by simpa using h.lt_next)
  | case4 before v rest hv ih =>
    intro s hs
    exact h.lt_next.le.trans (ih h.next (by simp) s hs)
  | case5 before lower v rest hv ih =>
    have hlt := ho lower rfl
    exact ih h.next (by simpa using hlt.trans h.lt_next)
  | case6 before lower v rest hv ih =>
    have hlt := ho lower rfl
    rw [List.forall_mem_cons]
    refine ⟨le_rfl, fun s hs => ?_⟩
    exact (hlt.trans h.lt_next).le.trans (ih h.next (by simp) s hs)

theorem ordered_runs (opened : Option (Bound V)) (h : Precedes before known)
    (ho : ∀ l ∈ opened, l.lowerCut < before.lowerCut) :
    Ordered (runs r before opened known) := by
  fun_induction runs r before opened known with
  | case1 => exact ordered_nil
  | case2 before lower => exact ordered_cons.mpr ⟨WithTop.coe_lt_top _, by simp, ordered_nil⟩
  | case3 before v rest hv ih => exact ih h.next (by simpa using h.lt_next)
  | case4 before v rest hv ih => exact ih h.next (by simp)
  | case5 before lower v rest hv ih => exact ih h.next (by simpa using (ho lower rfl).trans h.lt_next)
  | case6 before lower v rest hv ih =>
    refine ordered_cons.mpr ⟨?_, fun s hs => ?_, ih h.next (by simp)⟩
    · exact WithTop.coe_lt_coe.mpr ((ho lower rfl).trans_le (h.2 v List.mem_cons_self))
    · exact WithTop.coe_lt_coe.mpr
        ((lt_lowerCut_after v).trans_le (le_of_mem_runs none h.next (by simp) s hs))

/-- The current run goes on at least to the last known version. -/
theorem covers_runs_of_opened {lower : Bound V} (h : Precedes before known)
    (hx : lower.lowerCut ≤ x) (hlt : x < before.lowerCut) : Covers (runs r before (some lower) known) x := by
  induction known generalizing before with
  | nil => exact ⟨_, List.mem_cons_self, hx, WithTop.coe_lt_top _⟩
  | cons v rest ih =>
    unfold runs
    split_ifs with hv
    · exact ih h.next (hlt.trans h.lt_next)
    · exact ⟨_, List.mem_cons_self, hx, WithTop.coe_lt_coe.mpr (hlt.trans_le (h.2 v List.mem_cons_self))⟩

theorem covers_runs_iff (opened : Option (Bound V)) (h : Precedes before known)
    (ho : ∀ l ∈ opened, l.lowerCut < before.lowerCut) :
    ∀ v ∈ known, Covers (runs r before opened known) (.ofVersion v false) ↔ r.contains v = true := by
  fun_induction runs r before opened known with
  | case1 => simp
  | case2 before lower => simp
  | case3 before v rest hv ih =>
    refine List.forall_mem_cons.mpr ⟨iff_of_true ?_ hv, ih h.next (by simpa using h.lt_next)⟩
    exact covers_runs_of_opened h.next (h.2 v List.mem_cons_self) (lt_lowerCut_after v)
  | case4 before v rest hv ih =>
    refine List.forall_mem_cons.mpr ⟨iff_of_false ?_ hv, ih h.next (by simp)⟩
    rintro ⟨s, hs, hle, -⟩
    have hafter := le_of_mem_runs none h.next (by simp) s hs
    exact absurd ((lt_lowerCut_after v).trans_le (hafter.trans hle)) (lt_irrefl _)
  | case5 before lower v rest hv ih =>
    have hlt := (ho lower rfl).trans h.lt_next
    refine List.forall_mem_cons.mpr ⟨iff_of_true ?_ hv, ih h.next (by simpa using hlt)⟩
    exact covers_runs_of_opened h.next ((ho lower rfl).le.trans (h.2 v List.mem_cons_self))
      (lt_lowerCut_after v)
  | case6 before lower v rest hv ih =>
    refine List.forall_mem_cons.mpr ⟨iff_of_false ?_ hv, fun w hw => ?_⟩
    · rw [covers_cons]
      rintro (⟨-, hlt⟩ | ⟨s, hs, hle, -⟩)
      · exact absurd hlt (lt_irrefl _)
      · have hafter := le_of_mem_runs none h.next (by simp) s hs
        exact absurd ((lt_lowerCut_after v).trans_le (hafter.trans hle)) (lt_irrefl _)
    · rw [covers_cons, ← ih h.next (by simp) w hw]
      refine or_iff_right ?_
      rintro ⟨-, hlt⟩
      have hvw := (List.pairwise_cons.mp h.1).1 w hw
      exact absurd (WithTop.coe_lt_coe.mp hlt) (Cut.ofVersion_lt_iff.mpr (Or.inl hvw)).not_gt

theorem contains_simplify (r : Ranges V) (h : known.Pairwise (· < ·)) (hv : v ∈ known) :
    (r.simplify known).contains v = r.contains v := by
  have hstart : Precedes none known := ⟨h, fun w _ => bot_le⟩
  have hordered := ordered_runs (r := r) none hstart (by simp)
  have hiff := covers_runs_iff (r := r) none hstart (by simp) v hv
  unfold simplify
  split
  · rfl
  · rw [Bool.eq_iff_iff, ← hiff]
    exact segmentsContain_iff hordered v

theorem canonical_simplify (hr : r.Canonical) (h : known.Pairwise (· < ·)) : (r.simplify known).Canonical := by
  have hordered : Ordered (runs r none none known) := ordered_runs none ⟨h, fun w _ => bot_le⟩ (by simp)
  unfold simplify
  split
  · exact hr
  · exact hordered

theorem runs_cons_cons_self (v : V) (rest : List V) :
    runs r before opened (v :: v :: rest) = runs r before opened (v :: rest) := by
  cases opened with
  | none => by_cases hv : r.contains v = true <;> simp [runs, hv]
  | some lower => by_cases hv : r.contains v = true <;> simp [runs, hv]

theorem runs_cons_congr {rest rest' : List V}
    (h : ∀ before opened, runs r before opened rest = runs r before opened rest') (v : V) :
    runs r before opened (v :: rest) = runs r before opened (v :: rest') := by
  cases opened <;> simp [runs, h]

/-- In an ascending list, versions that are listed more than once count once. -/
theorem runs_dedup (r : Ranges V) (h : known.Pairwise (· ≤ ·)) :
    ∀ before opened, runs r before opened known.dedup = runs r before opened known := by
  induction known with
  | nil => exact fun _ _ => rfl
  | cons v rest ih =>
    intro before opened
    rw [List.pairwise_cons] at h
    by_cases hv : v ∈ rest
    · obtain ⟨w, rest, rfl⟩ := List.exists_cons_of_ne_nil (List.ne_nil_of_mem hv)
      -- Between two places of a version in an ascending list there is nothing but that version.
      have hwv : w = v := by
        refine le_antisymm ?_ (h.1 w List.mem_cons_self)
        rcases List.mem_cons.mp hv with rfl | hv
        · exact le_rfl
        · exact (List.pairwise_cons.mp h.2).1 v hv
      subst hwv
      rw [List.dedup_cons_of_mem hv, ih h.2, runs_cons_cons_self]
    · rw [List.dedup_cons_of_notMem hv]
      exact runs_cons_congr (ih h.2) v

theorem simplify_dedup (r : Ranges V) (h : known.Pairwise (· ≤ ·)) :
    r.simplify known.dedup = r.simplify known := by
  rw [simplify, simplify, runs_dedup r h]

theorem pairwise_lt_dedup (h : known.Pairwise (· ≤ ·)) : known.dedup.Pairwise (· < ·) :=
  (h.sublist (List.dedup_sublist known)).imp₂ (fun _ _ hle hne => lt_of_le_of_ne hle hne)
    (List.nodup_dedup known)

theorem simplify_of_disjoint (h : ∀ v ∈ known, r.contains v = false) : r.simplify known = r := by
  have hruns : ∀ before, runs r before none known = [] := by
    induction known with
    | nil => exact fun _ => rfl
    | cons v rest ih =>
      rw [List.forall_mem_cons] at h
      intro before
      rw [runs, if_neg (by simp [h.1])]
      exact ih h.2 _
  rw [simplify, hruns none]

end Ranges

end DependencyResolution
