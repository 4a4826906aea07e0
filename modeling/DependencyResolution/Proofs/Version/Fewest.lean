import DependencyResolution.Proofs.Version.Simplify

/-!
# Simplified sets have the fewest intervals

Every set that holds the same known versions needs an interval of its own for each run of them: it holds
the last version of a run and not the known version after it, so one of its intervals ends between the two
and is of no use from there on (`Ranges.segmentsContain_of_cons`). That bounds the number of runs by the
number of intervals of any set that agrees with them (`Ranges.length_runs_le`). The runs are read off the
known versions alone, so sets that agree on them are simplified to one and the same, which is in canonical
form, holds the same known versions, has the fewest intervals and stays as it is when it is simplified
again (`Ranges.simplify_exact_and_fewest`).
-/

namespace DependencyResolution

namespace Ranges

variable {V : Type u} [LinearOrder V] {r s : Ranges V} {before : Bound V} {opened : Option (Bound V)}
  {known : List V} {ss : List (Segment V)} {u v w : V}

def AgreesOn (known : List V) (r s : Ranges V) : Prop := ∀ v ∈ known, r.contains v = s.contains v

theorem AgreesOn.symm (h : r.AgreesOn known s) : s.AgreesOn known r := fun v hv => (h v hv).symm

theorem agreesOn_cons : AgreesOn (v :: known) r s ↔ r.contains v = s.contains v ∧ AgreesOn known r s :=
  List.forall_mem_cons

/-! ## An interval for each run -/

theorem ofVersion_le_of_le (h : v ≤ w) : Cut.ofVersion v false ≤ Cut.ofVersion w false :=
  WithBot.coe_le_coe.mpr (Prod.Lex.toLex_mono ⟨h, le_rfl⟩)

theorem excludesBelow_of_le {b : Bound V} (h : v ≤ w) (hv : b.excludesBelow v = false) :
    b.excludesBelow w = false := by
  rw [← Bool.not_eq_true, Bound.excludesBelow_iff, not_lt] at hv ⊢
  exact hv.trans (ofVersion_le_of_le h)

theorem admitsAbove_of_le {b : Bound V} (h : v ≤ w) (hw : b.admitsAbove w = true) :
    b.admitsAbove v = true := by
  rw [Bound.admitsAbove_iff] at hw ⊢
  exact (WithTop.coe_le_coe.mpr (ofVersion_le_of_le h)).trans_lt hw

/-- The first of the intervals that hold a version, but not a later one, is of no use after that one. -/
theorem segmentsContain_of_cons {s : Segment V} (hv : segmentsContain v (s :: ss) = true)
    (hu : segmentsContain u (s :: ss) = false) (hvu : v < u) (huw : u ≤ w) :
    segmentsContain w (s :: ss) = segmentsContain w ss := by
  have hlower : s.lower.excludesBelow v = false := by
    by_contra hexcl
    rw [segmentsContain, if_pos (Bool.eq_true_of_not_eq_false hexcl)] at hv
    cases hv
  have hupper : s.upper.admitsAbove w = false := by
    by_contra hadm
    have hadmu := admitsAbove_of_le huw (Bool.eq_true_of_not_eq_false hadm)
    rw [segmentsContain, excludesBelow_of_le hvu.le hlower, hadmu] at hu
    cases hu
  rw [segmentsContain, excludesBelow_of_le (hvu.le.trans huw) hlower, hupper]
  rfl

/-- There are at most as many runs as intervals in any set that agrees on the known versions. A run that
is open at the start counts if the set holds a version before all of them. -/
theorem length_runs_le (h : known.Pairwise (· < ·)) (hagree : ∀ v ∈ known, segmentsContain v ss = r.contains v)
    (hopen : opened.isSome → ∃ v, segmentsContain v ss = true ∧ ∀ w ∈ known, v < w) :
    (runs r before opened known).length ≤ ss.length := by
  fun_induction runs r before opened known generalizing ss with
  | case1 => exact Nat.zero_le _
  | case2 before lower =>
    obtain ⟨v, hv, -⟩ := hopen rfl
    cases ss with
    | nil => cases hv
    | cons s ss => exact Nat.succ_le_succ (Nat.zero_le _)
  | case3 before v rest hv ih =>
    rw [List.pairwise_cons] at h
    rw [List.forall_mem_cons] at hagree
    exact ih h.2 hagree.2 fun _ => ⟨v, hagree.1.trans hv, h.1⟩
  | case4 before v rest hv ih =>
    rw [List.forall_mem_cons] at hagree
    exact ih (List.pairwise_cons.mp h).2 hagree.2 (by simp)
  | case5 before lower v rest hv ih =>
    rw [List.pairwise_cons] at h
    rw [List.forall_mem_cons] at hagree
    exact ih h.2 hagree.2 fun _ => ⟨v, hagree.1.trans hv, h.1⟩
  | case6 before lower v rest hv ih =>
    obtain ⟨u, hu, hlt⟩ := hopen rfl
    rw [List.pairwise_cons] at h
    rw [List.forall_mem_cons] at hagree
    cases ss with
    | nil => cases hu
    | cons s ss =>
      -- The run ends here, and with it the first interval.
      have hout : segmentsContain v (s :: ss) = false := by rw [hagree.1, Bool.eq_false_of_not_eq_true hv]
      have hrest : ∀ w ∈ rest, segmentsContain w ss = r.contains w := by
        intro w hw
        rw [← hagree.2 w hw]
        exact (segmentsContain_of_cons hu hout (hlt v List.mem_cons_self) (h.1 w hw).le).symm
      exact Nat.succ_le_succ (ih h.2 hrest (by simp))

/-! ## Runs of the known versions alone -/

theorem runs_congr (h : AgreesOn known r s) : runs r before opened known = runs s before opened known := by
  induction known generalizing before opened with
  | nil => cases opened <;> rfl
  | cons v rest ih =>
    rw [agreesOn_cons] at h
    cases opened <;> simp only [runs, h.1, ih h.2]

theorem runs_ne_nil_of_opened (lower : Bound V) : runs r before (some lower) known ≠ [] := by
  induction known generalizing before with
  | nil => exact List.cons_ne_nil _ _
  | cons v rest ih =>
    rw [runs]
    split
    · exact ih
    · exact List.cons_ne_nil _ _

theorem runs_ne_nil (hv : v ∈ known) (hr : r.contains v = true) : runs r before none known ≠ [] := by
  induction known generalizing before with
  | nil => cases hv
  | cons w rest ih =>
    rw [runs]
    split
    · exact runs_ne_nil_of_opened before
    · next hw =>
      rcases List.mem_cons.mp hv with rfl | hv
      · exact absurd hr hw
      · exact ih hv

theorem simplify_eq_runs (hv : v ∈ known) (hr : r.contains v = true) :
    r.simplify known = ⟨runs r none none known⟩ := by
  rw [simplify]
  split
  · next hnil => exact absurd hnil (runs_ne_nil hv hr)
  · rfl

theorem simplify_congr (h : AgreesOn known r s) (hv : v ∈ known) (hr : r.contains v = true) :
    s.simplify known = r.simplify known := by
  rw [simplify_eq_runs hv hr, simplify_eq_runs hv ((h v hv).symm.trans hr), runs_congr h]

/-! ## Exact and with the fewest intervals -/

theorem agreesOn_simplify (r : Ranges V) (h : known.Pairwise (· ≤ ·)) : (r.simplify known).AgreesOn known r := by
  intro v hv
  rw [← simplify_dedup r h]
  exact contains_simplify r (pairwise_lt_dedup h) (List.mem_dedup.mpr hv)

theorem length_simplify_le (h : known.Pairwise (· ≤ ·)) (hs : AgreesOn known s r) (hv : v ∈ known)
    (hr : r.contains v = true) : (r.simplify known).segments.length ≤ s.segments.length := by
  rw [simplify_eq_runs hv hr, ← runs_dedup r h]
  exact length_runs_le (pairwise_lt_dedup h) (fun w hw => hs w (List.mem_dedup.mp hw)) (by simp)

theorem simplify_simplify (r : Ranges V) (h : known.Pairwise (· ≤ ·)) :
    (r.simplify known).simplify known = r.simplify known := by
  by_cases hheld : ∃ v ∈ known, r.contains v = true
  · obtain ⟨v, hv, hr⟩ := hheld
    exact simplify_congr (agreesOn_simplify r h).symm hv hr
  · simp only [not_exists, not_and, Bool.not_eq_true] at hheld
    rw [simplify_of_disjoint hheld, simplify_of_disjoint hheld]

/-- On ascending known versions, some of which may be listed more than once, a set is simplified to one in
canonical form that holds the same of them. If it holds one of them, no set that agrees with it there has
fewer intervals, and each such set is simplified to the same; if it holds none, it stays as it is. -/
theorem simplify_exact_and_fewest (hr : r.Canonical) (h : known.Pairwise (· ≤ ·)) :
    (∀ v ∈ known, (r.simplify known).contains v = r.contains v) ∧
    (r.simplify known).Canonical ∧
    ((∃ v ∈ known, r.contains v = true) → ∀ s : Ranges V, (∀ v ∈ known, s.contains v = r.contains v) →
      (r.simplify known).segments.length ≤ s.segments.length ∧ s.simplify known = r.simplify known) ∧
    (r.simplify known).simplify known = r.simplify known ∧
    ((∀ v ∈ known, r.contains v = false) → r.simplify known = r) := by
  refine ⟨agreesOn_simplify r h, ?_, ?_, simplify_simplify r h, simplify_of_disjoint⟩
  · rw [← simplify_dedup r h]
    exact canonical_simplify hr (pairwise_lt_dedup h)
  · rintro ⟨v, hv, hheld⟩ s hs
    exact ⟨length_simplify_le h hs hv hheld, simplify_congr (AgreesOn.symm hs) hv hheld⟩

/-- Three single versions, of which one is not known, on a list with a version that is known twice. -/
theorem simplify_exact_and_fewest_three :
    let r : Ranges Nat := ⟨[⟨some ⟨1, true⟩, some ⟨1, true⟩⟩, ⟨some ⟨3, true⟩, some ⟨3, true⟩⟩,
      ⟨some ⟨7, true⟩, some ⟨7, true⟩⟩]⟩
    r.simplify [1, 2, 2, 3, 5] = ⟨[⟨none, some ⟨2, false⟩⟩, ⟨some ⟨2, false⟩, some ⟨5, false⟩⟩]⟩ ∧
    ∀ s : Ranges Nat, (∀ v ∈ [1, 2, 2, 3, 5], s.contains v = r.contains v) → 2 ≤ s.segments.length := by
  intro r
  have hcanonical : r.Canonical := ⟨by decide, by decide⟩
  have hascending : [1, 2, 2, 3, 5].Pairwise (· ≤ ·) := by decide
  obtain ⟨-, -, hfewest, -⟩ := simplify_exact_and_fewest hcanonical hascending
  exact ⟨by decide, fun s hs => (hfewest ⟨3, by decide, by decide⟩ s hs).1⟩

end Ranges

end DependencyResolution
