import DependencyResolution.Proofs.Outcome
import DependencyResolution.Proofs.Solver.Backtrack
import DependencyResolution.Version.Ranges.Basic

/-!
# Going back undoes

A history is a list of the partial solutions that a sequence of calls went through. Going back to a
level restores the partial solution that the history had right before the decision that opened the next
level, whatever happened since and however often the history went back before (`History.backtrack_undoes`).

A partial solution is determined by its trail, apart from the counter (`Trail.eq_of_trail`), so it is
enough to follow trails: the one before a live decision is the current one cut at its level.
-/

namespace DependencyResolution

namespace PartialSolution

variable {P V S : Type} [DecidableEq P] [VersionSet S V]

/-! ## The trail is the view -/

namespace Trail

variable {s s' : PartialSolution P V S} {t : List (Assignment P V S)}

theorem perm_assignments (h : Trail s t) : s.assignments.Perm t := by
  refine (List.mergeSort_perm _ _).trans ((List.perm_ext_iff_of_nodup ?_ h.nodup).mpr fun b => ?_)
  · refine List.nodup_flatMap.mpr ⟨fun e he => ?_, ?_⟩
    · rw [(h.records (s.packages.get?_eq_some_iff.mpr he)).assignments]
      exact h.nodup.filter _
    · refine (List.pairwise_map.mp s.packages.nodup).imp_of_mem fun {e e'} he he' hne b hb hb' => ?_
      have hb := (h.mem_assignments_iff (s.packages.get?_eq_some_iff.mpr he)).mp hb
      have hb' := (h.mem_assignments_iff (s.packages.get?_eq_some_iff.mpr he')).mp hb'
      exact hne (hb.2.symm.trans hb'.2)
  · rw [List.mem_flatMap]
    constructor
    · rintro ⟨e, he, hb⟩
      exact ((h.mem_assignments_iff (s.packages.get?_eq_some_iff.mpr he)).mp hb).1
    · intro hb
      cases hp : s.packages.get? b.package with
      | none => exact absurd rfl (h.absent_iff.mp hp b hb)
      | some a => exact ⟨_, s.packages.get?_eq_some_iff.mp hp, (h.mem_assignments_iff hp).mpr ⟨hb, rfl⟩⟩

theorem assignments_eq (h : Trail s t) : s.assignments = t := by
  have hsorted : s.assignments.Pairwise fun a b => a.index ≤ b.index := by
    refine (List.pairwise_mergeSort ?_ ?_ _).imp fun hle => by simpa using hle
    · intro a b c hab hbc
      simp only [decide_eq_true_eq] at hab hbc ⊢
      omega
    · intro a b
      simp only [Bool.or_eq_true, decide_eq_true_eq]
      omega
  refine h.perm_assignments.eq_of_pairwise (fun a b ha hb hab hba => ?_) hsorted
    (h.ordered.imp fun hp => hp.1.le)
  exact h.eq_of_index_eq (h.perm_assignments.subset ha) hb (le_antisymm hab hba)

/-! ## One trail, one partial solution -/

theorem exists_of_append {b : Assignment P V S} (h : Trail s (t ++ [b])) :
    ∃ s₀ s₁, Trail s₀ t ∧ s = { s₁ with nextIndex := s.nextIndex } ∧
      ((∃ p u c, s₀.derive p u c = .ok s₁ ∧
          b = .derivation ⟨p, u, c, s₀.level, s₀.nextIndex, s₀.narrowed p u⟩) ∨
        ∃ p v, s₀.decide p v = .ok s₁ ∧ b = .decision ⟨p, v, .exact v, s₀.level + 1, s₀.nextIndex⟩) := by
  generalize ht : t ++ [b] = t' at h
  induction h with
  | empty => simp at ht
  | skip h n hn ih =>
    obtain ⟨s₀, s₁, h₀, hs, hlast⟩ := ih ht
    exact ⟨s₀, s₁, h₀, by rw [hs], hlast⟩
  | derive h hs =>
    obtain ⟨rfl, hb⟩ := List.append_inj' ht rfl
    cases hb
    exact ⟨_, _, h, rfl, Or.inl ⟨_, _, _, hs, rfl⟩⟩
  | decide h hs =>
    obtain ⟨rfl, hb⟩ := List.append_inj' ht rfl
    cases hb
    exact ⟨_, _, h, rfl, Or.inr ⟨_, _, hs, rfl⟩⟩

theorem eq_of_nil (h : Trail s []) : s = { PartialSolution.empty with nextIndex := s.nextIndex } := by
  generalize ht : ([] : List (Assignment P V S)) = t at h
  induction h with
  | empty => rfl
  | skip _ n hn ih => rw [ih ht]
  | derive => simp at ht
  | decide => simp at ht

/-- The trail determines everything but the counter. -/
theorem eq_of_trail (h : Trail s t) (h' : Trail s' t) : s' = { s with nextIndex := s'.nextIndex } := by
  induction h generalizing s' with
  | empty => exact h'.eq_of_nil
  | skip h n hn ih => exact ih h'
  | @derive s _ _ p u c h hs ih =>
    obtain ⟨s₀, s₁, h₀, hs', ⟨p', u', c', hd, hb⟩ | ⟨p', v', hd, hb⟩⟩ := h'.exists_of_append
    · simp only [Assignment.derivation.injEq, Derivation.mk.injEq] at hb
      obtain ⟨rfl, rfl, rfl, -, hindex, -⟩ := hb
      -- the assignment carries the counter with which it was made
      have hsame : s₀ = s := by rw [ih h₀, ← hindex]
      rw [hsame, hs] at hd
      cases hd
      exact hs'
    · cases hb
  | @decide s _ _ p v h hs ih =>
    obtain ⟨s₀, s₁, h₀, hs', ⟨p', u', c', hd, hb⟩ | ⟨p', v', hd, hb⟩⟩ := h'.exists_of_append
    · cases hb
    · simp only [Assignment.decision.injEq, Decision.mk.injEq] at hb
      obtain ⟨rfl, rfl, -, -, hindex⟩ := hb
      have hsame : s₀ = s := by rw [ih h₀, ← hindex]
      rw [hsame, hs] at hd
      cases hd
      exact hs'

theorem backtrack_self (h : Trail s t) : s.backtrack s.level = .ok s := by
  obtain ⟨s', hback, h', -, hindex⟩ := h.backtrack le_rfl
  rw [h.upTo_eq_self le_rfl] at h'
  rw [hback, h.eq_of_trail h', hindex]

/-- Whatever the order in which the packages above a level are visited, what is left is the same. -/
theorem foldlM_rollbackPackage_of_mem_iff (h : Trail s t) {l : Nat} (hback : s.backtrack l = .ok s')
    {order : List P} (horder : ∀ p, p ∈ order ↔ p ∈ s.touchedAbove l) :
    order.foldlM (rollbackPackage l) s.packages = .ok s'.packages := by
  have hvisit : ∀ ps : List P, (∀ p, p ∈ ps ↔ p ∈ s.touchedAbove l) →
      ∃ packages, ps.foldlM (rollbackPackage l) s.packages = .ok packages ∧
        packages.entries = rolledBack l s.packages := fun ps hps =>
    foldlM_rollbackPackage ps s.packages (fun p a hp hsmall => h.isSome_rollback hp hsmall)
      fun p a hp hmem => h.settled hp fun b hb hpack => by
        by_contra hc
        exact hmem ((hps p).mpr (hpack ▸ h.mem_touchedAbove hb (not_le.mp hc)))
  obtain ⟨packages, hok, hentries⟩ := hvisit order horder
  obtain ⟨packages', hok', hentries'⟩ := hvisit (s.touchedAbove l) fun p => Iff.rfl
  unfold PartialSolution.backtrack at hback
  split_ifs at hback
  dsimp only at hback
  rw [Int.toNat_natCast, hok'] at hback
  cases hback
  rw [hok, OrderedMap.eq_of_entries (hentries.trans hentries'.symm)]

end Trail

/-! ## Histories -/

variable [DecidableEq S]

/-- A call that succeeds. -/
inductive Changes : PartialSolution P V S → PartialSolution P V S → Prop
  | derive {s s' : PartialSolution P V S} {p : P} {u : Term S} {c : Nat} (hs : s.derive p u c = .ok s') :
      Changes s s'
  | decide {s s' : PartialSolution P V S} {p : P} {v : V} (hs : s.decide p v = .ok s') : Changes s s'
  | decideUnless {M : Type} {s s' : PartialSolution P V S} {store : Store P V S M} {p : P} {v : V}
      {ids : List Nat} {refused : Option Nat} (hs : s.decideUnless store p v ids = .ok (s', refused)) :
      Changes s s'
  | backtrack {s s' : PartialSolution P V S} {target : Int} (hs : s.backtrack target = .ok s') :
      Changes s s'

/-- The partial solutions that a sequence of calls went through, the current one first. -/
inductive History : List (PartialSolution P V S) → Prop
  | start : History [.empty]
  | step {s s' : PartialSolution P V S} {past : List (PartialSolution P V S)} (h : History (s :: past))
      (hs : Changes s s') : History (s' :: s :: past)

/-- At some place of a history the decision was made, from this partial solution. -/
def MadeFrom (history : List (PartialSolution P V S)) (d : Decision P V S) (s₀ : PartialSolution P V S) :
    Prop :=
  ∃ s₁ older, (s₁ :: s₀ :: older) <:+ history ∧ s₀.decide d.package d.version = .ok s₁ ∧
    d = ⟨d.package, d.version, .exact d.version, s₀.level + 1, s₀.nextIndex⟩

variable {s s' s₀ : PartialSolution P V S} {past : List (PartialSolution P V S)}
  {t : List (Assignment P V S)} {d : Decision P V S}

omit [VersionSet S V] [DecidableEq S] in
theorem exists_level_of_backtrack {target : Int} (hs : s.backtrack target = .ok s') :
    ∃ l : Nat, target = l ∧ l ≤ s.level := by
  unfold PartialSolution.backtrack at hs
  split_ifs at hs with hbounds
  exact ⟨target.toNat, by omega, by omega⟩

theorem Changes.cases (h : Changes s s') :
    (∃ p u c, s.derive p u c = .ok s') ∨ (∃ p v, s.decide p v = .ok s') ∨ s' = s ∨
      ∃ l : Nat, l ≤ s.level ∧ s.backtrack l = .ok s' := by
  cases h with
  | derive hs => exact Or.inl ⟨_, _, _, hs⟩
  | decide hs => exact Or.inr (Or.inl ⟨_, _, hs⟩)
  | backtrack hs =>
    obtain ⟨l, rfl, hl⟩ := exists_level_of_backtrack hs
    exact Or.inr (Or.inr (Or.inr ⟨l, hl, hs⟩))
  | @decideUnless M _ _ store p v ids refused hs =>
    unfold PartialSolution.decideUnless at hs
    split_ifs at hs
    obtain ⟨found, -, hs⟩ := bind_eq_ok_iff.mp hs
    cases found with
    | some id =>
      cases hs
      exact Or.inr (Or.inr (Or.inl rfl))
    | none =>
      obtain ⟨s₁, hdecide, hs⟩ := bind_eq_ok_iff.mp hs
      cases hs
      exact Or.inr (Or.inl ⟨p, v, hdecide⟩)

/-! ### What a history tells about the trail -/

omit [DecidableEq S] in
theorem MadeFrom.level_eq {history : List (PartialSolution P V S)} (h : MadeFrom history d s₀) :
    d.level = s₀.level + 1 := by
  obtain ⟨s₁, older, -, -, hd⟩ := h
  rw [hd]

omit [DecidableEq S] in
theorem MadeFrom.mem {history : List (PartialSolution P V S)} (h : MadeFrom history d s₀) :
    s₀ ∈ history ∧ ∃ s₁ ∈ history, s₁.nextIndex = d.index + 1 := by
  obtain ⟨s₁, older, hsuffix, hdecide, hd⟩ := h
  refine ⟨hsuffix.subset (by simp), s₁, hsuffix.subset (by simp), ?_⟩
  obtain ⟨a, -, -, -, -, rfl⟩ := decide_eq_ok_iff.mp hdecide
  rw [hd]

omit [DecidableEq S] in
theorem MadeFrom.of_decide {p : P} {v : V} (hs : s.decide p v = .ok s') (past : List (PartialSolution P V S)) :
    MadeFrom (s' :: s :: past) ⟨p, v, .exact v, s.level + 1, s.nextIndex⟩ s :=
  ⟨s', past, List.suffix_refl _, hs, rfl⟩

omit [DecidableEq S] in
theorem MadeFrom.cons (h : MadeFrom past d s₀) (s : PartialSolution P V S) : MadeFrom (s :: past) d s₀ := by
  obtain ⟨s₁, older, hsuffix, hdecide, hd⟩ := h
  exact ⟨s₁, older, hsuffix.trans (List.suffix_cons s past), hdecide, hd⟩

omit [DecidableEq S] in
/-- The last call made the decision, or it was made before. -/
theorem MadeFrom.last_or_old (h : MadeFrom (s' :: s :: past) d s₀) :
    (s₀ = s ∧ s.decide d.package d.version = .ok s' ∧ d.index = s.nextIndex) ∨ MadeFrom (s :: past) d s₀ := by
  obtain ⟨s₁, older, hsuffix, hdecide, hd⟩ := h
  rcases List.suffix_cons_iff.mp hsuffix with hall | hsuffix
  · cases hall
    exact Or.inl ⟨rfl, hdecide, by rw [hd]⟩
  · exact Or.inr ⟨s₁, older, hsuffix, hdecide, hd⟩

/-- The trail of the current partial solution, and what the history tells about it: every live decision
was made, and where it was made the trail was the current one cut at that level. -/
structure Recalls (s : PartialSolution P V S) (past : List (PartialSolution P V S))
    (t : List (Assignment P V S)) : Prop where
  trail : Trail s t
  counter : ∀ x ∈ s :: past, x.nextIndex ≤ s.nextIndex
  made : ∀ d, .decision d ∈ t → ∃ s₀, MadeFrom (s :: past) d s₀
  cut : ∀ d s₀, .decision d ∈ t → MadeFrom (s :: past) d s₀ → Trail s₀ (upTo s₀.level t)

omit [DecidableEq S] in
/-- A call that opens no level leaves the lower levels of the decisions that stay as they were. -/
theorem Recalls.step {t' : List (Assignment P V S)} (h : Recalls s past t) (h' : Trail s' t')
    (hlevel : s'.level ≠ s.level + 1) (hindex : s.nextIndex ≤ s'.nextIndex)
    (hold : ∀ d, .decision d ∈ t' → .decision d ∈ t ∧ ∀ l < d.level, upTo l t' = upTo l t) :
    Recalls s' (s :: past) t' where
  trail := h'
  counter := List.forall_mem_cons.mpr ⟨le_rfl, fun x hx => (h.counter x hx).trans hindex⟩
  made d hd := by
    obtain ⟨s₀, hs₀⟩ := h.made d (hold d hd).1
    exact ⟨s₀, hs₀.cons s'⟩
  cut d s₀ hd hs₀ := by
    rcases hs₀.last_or_old with ⟨-, hdecide, -⟩ | hs₀
    · exact absurd (level_of_decide hdecide) hlevel
    · rw [(hold d hd).2 _ (by rw [hs₀.level_eq]; exact Nat.lt_succ_self _)]
      exact h.cut d s₀ (hold d hd).1 hs₀

omit [DecidableEq S] in
theorem Recalls.derive {p : P} {u : Term S} {c : Nat} (h : Recalls s past t) (hs : s.derive p u c = .ok s') :
    ∃ t', Recalls s' (s :: past) t' := by
  refine ⟨_, h.step (h.trail.derive hs) (by rw [level_of_derive hs]; omega) ?_ fun d hd => ?_⟩
  · obtain ⟨-, _, _, -, rfl⟩ := derive_eq_ok_iff.mp hs
    exact Nat.le_succ _
  · have hd : .decision d ∈ t := by simpa using hd
    exact ⟨hd, fun l hl => upTo_append_of_lt (hl.trans_le (h.trail.level_le _ hd))⟩

omit [DecidableEq S] in
theorem Recalls.decide {p : P} {v : V} (h : Recalls s past t) (hs : s.decide p v = .ok s') :
    ∃ t', Recalls s' (s :: past) t' := by
  obtain ⟨a, -, -, -, -, hs'⟩ := decide_eq_ok_iff.mp hs
  have hindex : s.nextIndex < s'.nextIndex := by rw [hs']; exact Nat.lt_succ_self _
  refine ⟨_, h.trail.decide hs,
    List.forall_mem_cons.mpr ⟨le_rfl, fun x hx => (h.counter x hx).trans hindex.le⟩, fun d hd => ?_, ?_⟩
  · rcases List.mem_append.mp hd with hd | hd
    · obtain ⟨s₀, hs₀⟩ := h.made d hd
      exact ⟨s₀, hs₀.cons s'⟩
    · simp only [List.mem_singleton, Assignment.decision.injEq] at hd
      exact ⟨s, hd ▸ .of_decide hs past⟩
  · intro d s₀ hd hs₀
    rcases hs₀.last_or_old with ⟨rfl, -, -⟩ | hs₀
    · rw [upTo_append_of_lt (Nat.lt_succ_self _), h.trail.upTo_eq_self le_rfl]
      exact h.trail
    · -- the new decision has an index that no earlier decision has
      have hd : .decision d ∈ t := by
        refine (List.mem_append.mp hd).resolve_right fun hnew => ?_
        simp only [List.mem_singleton, Assignment.decision.injEq] at hnew
        obtain ⟨s₁, hs₁, hnext⟩ := hs₀.mem.2
        have hle := h.counter s₁ hs₁
        rw [hnext, hnew] at hle
        exact absurd hle (by simp)
      have hle := h.trail.level_le _ hd
      rw [Assignment.level, hs₀.level_eq] at hle
      have hlt : s₀.level < s.level + 1 := by omega
      rw [upTo_append_of_lt hlt]
      exact h.cut d s₀ hd hs₀

omit [DecidableEq S] in
theorem Recalls.backtrack {l : Nat} (h : Recalls s past t) (hl : l ≤ s.level) (hs : s.backtrack l = .ok s') :
    ∃ t', Recalls s' (s :: past) t' := by
  obtain ⟨s₁, hback, h', hlevel, hindex⟩ := h.trail.backtrack hl
  rw [hs] at hback
  cases hback
  refine ⟨_, h.step h' (by omega) hindex.ge fun d hd => ?_⟩
  obtain ⟨hd, hdl⟩ := mem_upTo_iff.mp hd
  exact ⟨hd, fun k hk => upTo_upTo (hk.le.trans hdl)⟩

theorem History.exists_recalls (h : History (s :: past)) : ∃ t, Recalls s past t := by
  generalize hhistory : s :: past = history at h
  induction h generalizing s past with
  | start =>
    cases hhistory
    exact ⟨[], .empty, by simp, by simp, by simp⟩
  | @step s _ older h hs ih =>
    cases hhistory
    obtain ⟨t, hrecalls⟩ := ih rfl
    rcases hs.cases with ⟨p, u, c, hs⟩ | ⟨p, v, hs⟩ | rfl | ⟨l, hl, hs⟩
    · exact hrecalls.derive hs
    · exact hrecalls.decide hs
    · exact ⟨t, hrecalls.step hrecalls.trail (by omega) le_rfl fun d hd => ⟨hd, fun l hl => rfl⟩⟩
    · exact hrecalls.backtrack hl hs

/-- Going back to a level succeeds and gives what the history had before the live decision that opened
the next level, with the counter of today. The live assignments are those up to the level, and the
order in which the packages are visited makes no difference. -/
theorem History.backtrack_undoes (h : History (s :: past)) {l : Nat} (hl : l ≤ s.level) :
    ∃ s', s.backtrack l = .ok s' ∧ (l = s.level → s' = s) ∧
      (l < s.level → ∃ d s₀, .decision d ∈ s.assignments ∧ d.level = l + 1 ∧ MadeFrom (s :: past) d s₀) ∧
      (∀ d s₀, .decision d ∈ s.assignments → d.level = l + 1 → MadeFrom (s :: past) d s₀ →
        s₀.nextIndex ≤ s.nextIndex ∧ s' = { s₀ with nextIndex := s.nextIndex }) ∧
      s'.assignments = s.assignments.filter (fun a => a.level ≤ l) ∧
      ∀ order : List P, (∀ p, p ∈ order ↔ p ∈ s.touchedAbove l) →
        order.foldlM (rollbackPackage l) s.packages = .ok s'.packages := by
  obtain ⟨t, hrecalls⟩ := h.exists_recalls
  have htrail := hrecalls.trail
  obtain ⟨s', hback, h', hlevel, hindex⟩ := htrail.backtrack hl
  rw [htrail.assignments_eq]
  refine ⟨s', hback, ?_, fun hlt => ?_, fun d s₀ hd hdl hs₀ => ?_, h'.assignments_eq,
    fun order horder => htrail.foldlM_rollbackPackage_of_mem_iff hback horder⟩
  · rintro rfl
    rw [htrail.backtrack_self] at hback
    cases hback
    rfl
  · obtain ⟨d, hd, hdl⟩ := htrail.exists_decision (Nat.succ_pos l) hlt
    obtain ⟨s₀, hs₀⟩ := hrecalls.made d hd
    exact ⟨d, s₀, hd, hdl, hs₀⟩
  · have hl₀ : s₀.level = l := by
      have := hs₀.level_eq
      omega
    have h₀ := hrecalls.cut d s₀ hd hs₀
    rw [hl₀] at h₀
    refine ⟨hrecalls.counter s₀ hs₀.mem.1, ?_⟩
    rw [← hindex]
    exact h₀.eq_of_trail h'

/-- Two packages are required, the second decided, given up by going back, narrowed again below and
above the level: going back once more forgets what came above. -/
theorem History.backtrack_twice :
    ∃ (s s₀ : PartialSolution Nat Nat (Ranges Nat)) (past : List (PartialSolution Nat Nat (Ranges Nat)))
      (d : Decision Nat Nat (Ranges Nat)),
      History (s :: past) ∧ s.level = 2 ∧ d.level = 2 ∧ MadeFrom (s :: past) d s₀ ∧ d.index = 6 ∧
        s.backtrack (1 : Nat) = .ok { s₀ with nextIndex := 8 } := by
  have h₀ : History [(.empty : PartialSolution Nat Nat (Ranges Nat))] := .start
  have h₁ := h₀.step (.derive (p := 0) (u := .positive .full) (c := 0) rfl)
  have h₂ := h₁.step (.decide (p := 0) (v := 1) rfl)
  have h₃ := h₂.step (.derive (p := 1) (u := .positive .full) (c := 1) rfl)
  have h₄ := h₃.step (.decide (p := 1) (v := 3) rfl)
  have h₅ := h₄.step (.derive (p := 2) (u := .positive .full) (c := 2) rfl)
  obtain ⟨s₆, hback₆, -, -, hsame₆, -⟩ := h₅.backtrack_undoes (l := 1) (by decide)
  obtain rfl := (hsame₆ ⟨1, 3, .exact 3, 2, 3⟩ _ (List.mem_mergeSort.mpr (by decide)) rfl
    (.cons (.of_decide (p := 1) (v := 3) rfl _) _)).2
  have h₆ := h₅.step (.backtrack hback₆)
  have h₇ := h₆.step (.derive (p := 1) (u := .positive (.below 3)) (c := 3) rfl)
  have h₈ := h₇.step (.decide (p := 1) (v := 2) rfl)
  have h₉ := h₈.step (.derive (p := 2) (u := .positive (.atLeast 1)) (c := 4) rfl)
  obtain ⟨s', hback, -, -, hsame, -⟩ := h₉.backtrack_undoes (l := 1) (by decide)
  obtain rfl := (hsame ⟨1, 2, .exact 2, 2, 6⟩ _ (List.mem_mergeSort.mpr (by decide)) rfl
    (.cons (.of_decide (p := 1) (v := 2) rfl _) _)).2
  exact ⟨_, _, _, _, h₉, rfl, rfl, .cons (.of_decide (p := 1) (v := 2) rfl _) _, rfl, hback⟩

end PartialSolution

end DependencyResolution
