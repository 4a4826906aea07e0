import DependencyResolution.Proofs.Solver.Knowledge
import DependencyResolution.Solver.Satisfier

/-!
# The assignment that excludes a term

The accumulated terms of a package say what the trail allowed of it after each derivation
(`Trail.holds_accumulated_iff`), so the binary search over them finds the first assignment of the
package after which a term is excluded (`Trail.exists_firstExcluding`).
-/

namespace DependencyResolution

variable {P V S : Type}

namespace Assignment

/-- Where an assignment stands and what it was derived from. -/
def satisfier : Assignment P V S → Satisfier
  | decision d => ⟨none, d.index, d.level⟩
  | derivation d => ⟨some d.cause, d.index, d.level⟩

@[simp] theorem index_satisfier (a : Assignment P V S) : a.satisfier.index = a.index := by
  cases a <;> rfl

@[simp] theorem level_satisfier (a : Assignment P V S) : a.satisfier.level = a.level := by
  cases a <;> rfl

end Assignment

/-! ## Binary search -/

namespace PackageAssignments

variable [DecidableEq S] [VersionSet S V] {ds : Array (Derivation P S)} {u : Term S}

/-- Where the accumulated terms only get narrower, what lies below the place that is found is not
disjoint from the term, and the rest is. -/
theorem firstDisjoint_spec {low high : Nat} (hsize : high ≤ ds.size)
    (hmono : ∀ (i j : Nat) (d e : Derivation P S), i ≤ j → ds[i]? = some d → ds[j]? = some e →
      d.accumulated.isDisjoint u = true → e.accumulated.isDisjoint u = true)
    (hbelow : ∀ (i : Nat) (d : Derivation P S), i < low → ds[i]? = some d →
      d.accumulated.isDisjoint u = false)
    (habove : ∀ (i : Nat) (d : Derivation P S), high ≤ i → ds[i]? = some d →
      d.accumulated.isDisjoint u = true) :
    (∀ (i : Nat) (d : Derivation P S), i < firstDisjoint ds u low high hsize → ds[i]? = some d →
        d.accumulated.isDisjoint u = false) ∧
      ∀ (i : Nat) (d : Derivation P S), firstDisjoint ds u low high hsize ≤ i → ds[i]? = some d →
        d.accumulated.isDisjoint u = true := by
  fun_induction firstDisjoint ds u low high hsize with
  | case1 low high hsize hlt middle hmiddle hdisj ih =>
    refine ih hbelow fun i e hi he => ?_
    exact hmono middle i _ e hi (Array.getElem?_eq_getElem hmiddle) he hdisj
  | case2 low high hsize hlt middle hmiddle hdisj ih =>
    refine ih (fun i e hi he => ?_) habove
    rw [← Bool.not_eq_true]
    exact fun hc => hdisj (hmono i middle e _ (by omega) he (Array.getElem?_eq_getElem hmiddle) hc)
  | case3 low high hsize hlt =>
    exact ⟨hbelow, fun i d hi hd => habove i d (by omega) hd⟩

end PackageAssignments

/-! ## The first assignment that excludes a term -/

variable [VersionSet S V] [LawfulVersionSet S V]

/-- The assignment is the first one of the package after which the term is excluded. -/
structure FirstExcluding (t : List (Assignment P V S)) (p : P) (u : Term S) (b : Assignment P V S) :
    Prop where
  mem : b ∈ t
  package : b.package = p
  excludes : Excludes (Allows (before (b.index + 1) t)) p u
  first : (∀ c ∈ t, c.package = p → b.index ≤ c.index) ∨ ¬ Excludes (Allows (before b.index t)) p u

namespace FirstExcluding

variable {t : List (Assignment P V S)} {p : P} {u : Term S} {b c : Assignment P V S}

theorem not_excludes (h : FirstExcluding t p u b) (hu : ∃ x : Value S V, u.Holds x) :
    ¬ Excludes (Allows (before b.index t)) p u := by
  rcases h.first with hfirst | hnot
  · intro hex
    obtain ⟨x, hx⟩ := hu
    refine hex x (fun a ha hap => ?_) hx
    rw [mem_before_iff] at ha
    exact absurd (hfirst a ha.1 hap) (by omega)
  · exact hnot

end FirstExcluding

namespace PartialSolution

variable [DecidableEq P] {s : PartialSolution P V S} {t : List (Assignment P V S)} {p : P}
  {a : PackageAssignments P V S} {u : Term S}

namespace Trail

omit [LawfulVersionSet S V] in
theorem index_lt_iff (h : Trail s t) (ha : s.packages.get? p = some a) {i j : Nat}
    {d e : Derivation P S} (hd : a.derivations.toList[i]? = some d)
    (he : a.derivations.toList[j]? = some e) : d.index < e.index ↔ i < j := by
  obtain ⟨hi, rfl⟩ := List.getElem?_eq_some_iff.mp hd
  obtain ⟨hj, rfl⟩ := List.getElem?_eq_some_iff.mp he
  have hpair := List.pairwise_iff_getElem.mp (h.pairwise_derivations ha)
  rcases Nat.lt_trichotomy i j with hij | rfl | hij
  · exact iff_of_true (hpair i j hi hj hij).1 hij
  · exact iff_of_false (lt_irrefl _) (lt_irrefl _)
  · exact iff_of_false (hpair j i hj hi hij).1.le.not_gt hij.le.not_gt

omit [LawfulVersionSet S V] in
theorem index_lt_decision (h : Trail s t) (ha : s.packages.get? p = some a) {d : Derivation P S}
    {e : Decision P V S} (hd : d ∈ a.derivations.toList) (he : a.decision = some e) :
    d.index < e.index := by
  have hpair : a.assignments.Pairwise Assignment.Precedes := by
    rw [(h.records ha).assignments]
    exact h.ordered.filter _
  rw [PackageAssignments.assignments, List.pairwise_append] at hpair
  exact (hpair.2.2 (.derivation d) (List.mem_map_of_mem hd) (.decision e) (by simp [he])).1

theorem allows_before_iff (h : Trail s t) (ha : s.packages.get? p = some a) {n k : Nat}
    (hk : ∀ (j : Nat) (e : Derivation P S), a.derivations.toList[j]? = some e → (e.index < n ↔ j < k))
    (hn : ∀ d ∈ a.decision, n ≤ d.index) (x : Value S V) :
    Allows (before n t) p x ↔ ∀ e ∈ a.derivations.toList.take k, e.term.Holds x := by
  constructor
  · intro hall e he
    obtain ⟨j, hj, rfl⟩ := List.mem_take_iff_getElem.mp he
    have hget : a.derivations.toList[j]? = some a.derivations.toList[j] :=
      List.getElem?_eq_getElem (by omega)
    obtain ⟨het, hep⟩ := (h.mem_derivation_iff ha).mp (List.mem_of_getElem? hget)
    have hlt := (hk j _ hget).mpr (by omega)
    exact hall _ (mem_before_iff.mpr ⟨het, hlt⟩) hep
  · intro hall b hb hbp
    rw [mem_before_iff] at hb
    cases b with
    | derivation e =>
      obtain ⟨j, hj⟩ := List.getElem?_of_mem ((h.mem_derivation_iff ha).mpr ⟨hb.1, hbp⟩)
      have hlt := (hk j e hj).mp hb.2
      obtain ⟨hj', rfl⟩ := List.getElem?_eq_some_iff.mp hj
      exact hall _ (List.mem_take_iff_getElem.mpr ⟨j, by omega, rfl⟩)
    | decision d =>
      have hle := hn d ((h.mem_decision_iff ha).mpr ⟨hb.1, hbp⟩)
      exact absurd hb.2 (not_lt.mpr hle)

theorem allows_before_derivation (h : Trail s t) (ha : s.packages.get? p = some a) {k : Nat}
    {d : Derivation P S} (hd : a.derivations.toList[k]? = some d) (x : Value S V) :
    Allows (before d.index t) p x ↔ ∀ e ∈ a.derivations.toList.take k, e.term.Holds x :=
  h.allows_before_iff ha (fun _ _ he => h.index_lt_iff ha he hd)
    (fun _ he => (h.index_lt_decision ha (List.mem_of_getElem? hd) he).le) x

theorem holds_accumulated_iff (h : Trail s t) (hp : ProperTrail t) (ha : s.packages.get? p = some a)
    {k : Nat} {d : Derivation P S} (hd : a.derivations.toList[k]? = some d) (x : Value S V) :
    d.accumulated.Holds x ↔ Allows (before (d.index + 1) t) p x := by
  have htake := (h.records ha).derived.take hd
  rw [htake.holds_iff fun e he => h.isProper_derivation hp ha e (List.mem_of_mem_take he)]
  refine (h.allows_before_iff ha (fun j e he => ?_)
    (fun e he => h.index_lt_decision ha (List.mem_of_getElem? hd) he) x).symm
  rw [Nat.lt_succ_iff, Nat.lt_succ_iff, ← not_lt, ← not_lt, h.index_lt_iff ha hd he]

theorem allows_before_succ (h : Trail s t) (hp : ProperTrail t) (ha : s.packages.get? p = some a)
    {k : Nat} {d e : Derivation P S} (he : a.derivations.toList[k]? = some e)
    (hd : a.derivations.toList[k + 1]? = some d) (x : Value S V) :
    Allows (before d.index t) p x ↔ Allows (before (e.index + 1) t) p x := by
  have htake := (h.records ha).derived.take he
  rw [← h.holds_accumulated_iff hp ha he,
    htake.holds_iff fun e he => h.isProper_derivation hp ha e (List.mem_of_mem_take he)]
  exact h.allows_before_derivation ha hd x

theorem allows_before_decision (h : Trail s t) (hp : ProperTrail t) (ha : s.packages.get? p = some a)
    {d : Derivation P S} {e : Decision P V S} (hd : a.derivations.toList.getLast? = some d)
    (hacc : d.accumulated = a.derived) (he : a.decision = some e) (x : Value S V) :
    Allows (before e.index t) p x ↔ Allows (before (d.index + 1) t) p x := by
  rw [List.getLast?_eq_getElem?] at hd
  rw [← h.holds_accumulated_iff hp ha hd, hacc,
    (h.records ha).derived.holds_iff (h.isProper_derivation hp ha)]
  rw [h.allows_before_iff ha (k := a.derivations.toList.length) (fun j c hj => ?_) (fun c hc => ?_) x]
  · rw [List.take_of_length_le le_rfl]
  · exact iff_of_true (h.index_lt_decision ha (List.mem_of_getElem? hj) he)
      (List.getElem?_eq_some_iff.mp hj).1
  · rw [he, Option.mem_some_iff] at hc
    exact hc ▸ le_rfl

variable [DecidableEq S]

theorem isDisjoint_accumulated_iff (h : Trail s t) (hp : ProperTrail t)
    (ha : s.packages.get? p = some a) (hu : u.IsProper) {k : Nat} {d : Derivation P S}
    (hd : a.derivations.toList[k]? = some d) :
    d.accumulated.isDisjoint u = true ↔ Excludes (Allows (before (d.index + 1) t)) p u := by
  have htake := (h.records ha).derived.take hd
  have hproper := htake.isProper fun e he => h.isProper_derivation hp ha e (List.mem_of_mem_take he)
  rw [Term.isDisjoint_iff hproper hu]
  exact forall_congr' fun x => by rw [h.holds_accumulated_iff hp ha hd]

theorem isDisjoint_accumulated_mono (h : Trail s t) (hp : ProperTrail t)
    (ha : s.packages.get? p = some a) (hu : u.IsProper) {i j : Nat} {d e : Derivation P S} (hij : i ≤ j)
    (hd : a.derivations.toList[i]? = some d) (he : a.derivations.toList[j]? = some e)
    (hdisj : d.accumulated.isDisjoint u = true) : e.accumulated.isDisjoint u = true := by
  rw [h.isDisjoint_accumulated_iff hp ha hu he]
  rw [h.isDisjoint_accumulated_iff hp ha hu hd] at hdisj
  refine hdisj.mono fun x hx => hx.mono fun b hb => ?_
  have hle : d.index ≤ e.index := by
    rw [← not_lt, h.index_lt_iff ha he hd]
    omega
  rw [mem_before_iff] at hb ⊢
  exact ⟨hb.1, by omega⟩

/-- The first derivation that leaves nothing of a term is the first assignment that excludes it. -/
theorem firstExcluding_derivation (h : Trail s t) (hp : ProperTrail t)
    (ha : s.packages.get? p = some a) (hu : u.IsProper) {k : Nat} {d : Derivation P S}
    (hd : a.derivations.toList[k]? = some d) (hdisj : d.accumulated.isDisjoint u = true)
    (hbelow : ∀ (i : Nat) (e : Derivation P S), i < k → a.derivations.toList[i]? = some e →
      e.accumulated.isDisjoint u = false) : FirstExcluding t p u (.derivation d) := by
  have hmem := List.mem_of_getElem? hd
  obtain ⟨hdt, hdp⟩ := (h.mem_derivation_iff ha).mp hmem
  refine ⟨hdt, hdp, (h.isDisjoint_accumulated_iff hp ha hu hd).mp hdisj, ?_⟩
  -- the first derivation has nothing before it; any other has the one at the place before
  cases k with
  | zero =>
    left
    intro c hc hcp
    cases c with
    | derivation e =>
      obtain ⟨j, hj⟩ := List.getElem?_of_mem ((h.mem_derivation_iff ha).mpr ⟨hc, hcp⟩)
      rw [← not_lt]
      exact fun hlt => absurd ((h.index_lt_iff ha hj hd).mp hlt) (by omega)
    | decision e => exact (h.index_lt_decision ha hmem ((h.mem_decision_iff ha).mpr ⟨hc, hcp⟩)).le
  | succ k =>
    right
    intro hex
    have hk : k < a.derivations.toList.length := by
      have hlt := (List.getElem?_eq_some_iff.mp hd).1
      omega
    have he := List.getElem?_eq_getElem hk
    have hfalse := hbelow k _ (Nat.lt_succ_self k) he
    rw [(h.isDisjoint_accumulated_iff hp ha hu he).mpr fun x hx =>
      hex x ((h.allows_before_succ hp ha he hd x).mpr hx)] at hfalse
    cases hfalse

theorem exists_decision_of_excludes (h : Trail s t) (hp : ProperTrail t)
    (ha : s.packages.get? p = some a) (hu : u.IsProper) (hex : Excludes (Allows t) p u)
    (hbelow : ∀ d ∈ a.derivations.toList, d.accumulated.isDisjoint u = false) :
    ∃ e, a.decision = some e ∧ FirstExcluding t p u (.decision e) := by
  obtain ⟨last, hlast, hacc⟩ := (h.records ha).derived.getLast
  have hfalse := hbelow last (List.mem_of_getLast? hlast)
  cases hdec : a.decision with
  | none =>
    -- without a decision the last derivation says all there is, and it leaves something
    rw [hacc, (Term.isDisjoint_iff (h.isProper_derived hp ha) hu).mpr fun x hx =>
      hex x ((h.holds_derived_iff hp ha hdec x).mp hx)] at hfalse
    cases hfalse
  | some e =>
    obtain ⟨het, hep⟩ := (h.mem_decision_iff ha).mp hdec
    have hlatest : ∀ b ∈ t, b.package = p → b.index ≤ e.index := by
      intro b hb hbp
      cases b with
      | derivation d =>
        exact (h.index_lt_decision ha ((h.mem_derivation_iff ha).mpr ⟨hb, hbp⟩) hdec).le
      | decision d =>
        have hd := (h.mem_decision_iff ha).mpr ⟨hb, hbp⟩
        rw [hdec, Option.some.injEq] at hd
        exact hd ▸ le_rfl
    refine ⟨e, rfl, het, hep, ?_, Or.inr fun hbefore => ?_⟩
    · refine hex.mono fun x hx b hb hbp => hx b (mem_before_iff.mpr ⟨hb, ?_⟩) hbp
      exact Nat.lt_succ_of_le (hlatest b hb hbp)
    · have hget := hlast
      rw [List.getLast?_eq_getElem?] at hget
      rw [(h.isDisjoint_accumulated_iff hp ha hu hget).mpr fun x hx =>
        hbefore x ((h.allows_before_decision hp ha hlast hacc hdec x).mpr hx)] at hfalse
      cases hfalse

/-- The binary search splits the derivations of a package: those before the place it finds leave something
of the term, and the others leave nothing. -/
theorem firstDisjoint_separates (h : Trail s t) (hp : ProperTrail t) (ha : s.packages.get? p = some a)
    (hu : u.IsProper) {r : Nat}
    (hr : PackageAssignments.firstDisjoint a.derivations u 0 a.derivations.size le_rfl = r) :
    (∀ (i : Nat) (d : Derivation P S), i < r → a.derivations.toList[i]? = some d →
        d.accumulated.isDisjoint u = false) ∧
      ∀ (i : Nat) (d : Derivation P S), r ≤ i → a.derivations.toList[i]? = some d →
        d.accumulated.isDisjoint u = true := by
  have hmono : ∀ (i j : Nat) (d e : Derivation P S), i ≤ j → a.derivations[i]? = some d →
      a.derivations[j]? = some e → d.accumulated.isDisjoint u = true →
      e.accumulated.isDisjoint u = true := by
    intro i j d e hij hd he
    rw [← Array.getElem?_toList] at hd he
    exact h.isDisjoint_accumulated_mono hp ha hu hij hd he
  have hspec := PackageAssignments.firstDisjoint_spec le_rfl hmono
    (fun i d (hi : i < 0) => absurd hi (by omega))
    (fun i d hi hd => absurd (Array.getElem?_eq_some_iff.mp hd).1 (by omega))
  rw [hr] at hspec
  simpa only [← Array.getElem?_toList] using hspec

/-- The search finds the first assignment of a package that excludes a term. -/
theorem exists_firstExcluding (h : Trail s t) (hp : ProperTrail t) (ha : s.packages.get? p = some a)
    (hu : u.IsProper) (hex : Excludes (Allows t) p u) :
    ∃ b, FirstExcluding t p u b ∧ a.satisfier (V := V) u = .ok b.satisfier := by
  generalize hr : PackageAssignments.firstDisjoint a.derivations u 0 a.derivations.size le_rfl = r
  obtain ⟨hbelow, habove⟩ := h.firstDisjoint_separates hp ha hu hr
  unfold PackageAssignments.satisfier
  rw [hr, ← Array.getElem?_toList]
  cases hd : a.derivations.toList[r]? with
  | some d => exact ⟨_, h.firstExcluding_derivation hp ha hu hd (habove r d le_rfl hd) hbelow, rfl⟩
  | none =>
    rw [List.getElem?_eq_none_iff] at hd
    obtain ⟨e, he, hfirst⟩ := h.exists_decision_of_excludes hp ha hu hex fun d hmem => by
      obtain ⟨i, hi⟩ := List.getElem?_of_mem hmem
      exact hbelow i d ((List.getElem?_eq_some_iff.mp hi).1.trans_le hd) hi
    rw [he]
    exact ⟨_, hfirst, rfl⟩

end Trail

end PartialSolution

end DependencyResolution
