import DependencyResolution.Proofs.OrderedMap
import DependencyResolution.Solver.PartialSolution
import Mathlib.Data.List.Pairwise
import Mathlib.Order.Nat

/-!
# Trails

A partial solution is kept by package. Its trail is the list of the live assignments in the order in
which they were made, and `Trail s t` says that `t` is the trail of `s`: that deriving and deciding the
assignments of `t` in turn, without ever going back, gives `s`. The counter of the assignments may have
moved on in between.

Indices rise along a trail, levels never fall, and a decision opens its level (`Trail.ordered`). The
assignments of a package are those of the trail that concern it (`Trail.records`), and the packages
touched at a level include those assigned at it (`Trail.touched`).
-/

namespace DependencyResolution

namespace Assignment

variable {P V S : Type}

def package : Assignment P V S → P
  | decision d => d.package
  | derivation d => d.package

def term : Assignment P V S → Term S
  | decision d => d.term
  | derivation d => d.term

def isDecision : Assignment P V S → Bool
  | decision _ => true
  | derivation _ => false

/-- The first of two assignments of a trail: it has the lower index, no higher level, and a lower one
than a decision, which opens its level. -/
def Precedes (a b : Assignment P V S) : Prop :=
  a.index < b.index ∧ a.level ≤ b.level ∧ (b.isDecision = true → a.level < b.level)

end Assignment

section prefixes

variable {P V S : Type} {t : List (Assignment P V S)} {a : Assignment P V S}

abbrev upTo (l : Nat) (t : List (Assignment P V S)) : List (Assignment P V S) :=
  t.filter fun a => a.level ≤ l

abbrev before (n : Nat) (t : List (Assignment P V S)) : List (Assignment P V S) :=
  t.filter fun a => a.index < n

theorem mem_upTo_iff {l : Nat} : a ∈ upTo l t ↔ a ∈ t ∧ a.level ≤ l := by
  rw [List.mem_filter, decide_eq_true_eq]

theorem mem_before_iff {n : Nat} : a ∈ before n t ↔ a ∈ t ∧ a.index < n := by
  rw [List.mem_filter, decide_eq_true_eq]

theorem upTo_upTo {l l' : Nat} (h : l ≤ l') : upTo l (upTo l' t) = upTo l t := by
  unfold upTo
  rw [List.filter_filter]
  refine List.filter_congr fun b _ => ?_
  simp only [Bool.and_eq_decide, decide_eq_true_eq, decide_eq_decide, and_iff_left_iff_imp]
  exact fun hb => hb.trans h

theorem upTo_append_of_lt {l : Nat} (h : l < a.level) : upTo l (t ++ [a]) = upTo l t := by
  simp [List.filter_append, h]

theorem before_append_of_le {n : Nat} (h : n ≤ a.index) : before n (t ++ [a]) = before n t := by
  simp [List.filter_append, h]

end prefixes

namespace PackageAssignments

variable {P V S : Type} [VersionSet S V]

/-- The accumulated terms of some derivations are the intersections of the terms so far; the last of
these is given. -/
inductive Accumulates : List (Derivation P S) → Term S → Prop
  | first {d : Derivation P S} (h : d.accumulated = d.term) : Accumulates [d] d.accumulated
  | next {ds : List (Derivation P S)} {t : Term S} {d : Derivation P S} (hds : Accumulates ds t)
      (h : d.accumulated = t.intersection d.term) : Accumulates (ds ++ [d]) d.accumulated

/-- The assignments of a package are those of a list, and what is kept beside them agrees. -/
structure Records (a : PackageAssignments P V S) (t : List (Assignment P V S)) : Prop where
  assignments : a.assignments = t
  derived : Accumulates a.derivations.toList a.derived
  smallestLevel : ∀ d ∈ a.derivations.toList.head?, d.level = a.smallestLevel
  highestLevel : a.highestLevel =
    (a.decision.map (·.level)).getD ((a.derivations.back?.map (·.level)).getD 0)
  decided : ∀ d ∈ a.decision, ∃ v, a.derived.isPositive = true ∧ a.derived.contains v = true ∧
    d.version = v ∧ d.term = .exact v

theorem Accumulates.ne_nil {ds : List (Derivation P S)} {t : Term S} (h : Accumulates ds t) :
    ds ≠ [] := by
  cases h <;> simp

theorem Accumulates.getLast {ds : List (Derivation P S)} {t : Term S} (h : Accumulates ds t) :
    ∃ d, ds.getLast? = some d ∧ d.accumulated = t := by
  cases h with
  | first h => exact ⟨_, rfl, rfl⟩
  | next hds h => exact ⟨_, by simp, rfl⟩

theorem records_derive_none (p : P) (u : Term S) (c level index : Nat) :
    (derive none p u c level index : PackageAssignments P V S).Records
      [.derivation ⟨p, u, c, level, index, u⟩] where
  assignments := by simp [derive, assignments]
  derived := .first (d := ⟨p, u, c, level, index, u⟩) rfl
  smallestLevel := by simp [derive]
  highestLevel := by simp [derive]
  decided := by simp [derive]

theorem Records.derive {a : PackageAssignments P V S} {t : List (Assignment P V S)} (h : a.Records t)
    (hnone : a.decision = none) (p : P) (u : Term S) (c level index : Nat) :
    (PackageAssignments.derive (some a) p u c level index).Records
      (t ++ [.derivation ⟨p, u, c, level, index, a.derived.intersection u⟩]) where
  assignments := by
    rw [← h.assignments]
    simp [PackageAssignments.derive, PackageAssignments.assignments, hnone]
  derived := by
    simp only [PackageAssignments.derive, Array.toList_push]
    exact .next (d := ⟨p, u, c, level, index, a.derived.intersection u⟩) h.derived rfl
  smallestLevel := by
    have hne := h.derived.ne_nil
    have hsmall := h.smallestLevel
    simp only [PackageAssignments.derive, Array.toList_push]
    cases hl : a.derivations.toList with
    | nil => exact absurd hl hne
    | cons d ds =>
      rw [hl] at hsmall
      simpa using hsmall
  highestLevel := by simp [PackageAssignments.derive, hnone]
  decided := by simp [PackageAssignments.derive, hnone]

theorem Records.decide {a : PackageAssignments P V S} {t : List (Assignment P V S)} (h : a.Records t)
    (hnone : a.decision = none) {v : V} (hpos : a.derived.isPositive = true)
    (hin : a.derived.contains v = true) (p : P) (level index : Nat) :
    ({ a with decision := some ⟨p, v, .exact v, level, index⟩, highestLevel := level } :
      PackageAssignments P V S).Records (t ++ [.decision ⟨p, v, .exact v, level, index⟩]) where
  assignments := by
    rw [← h.assignments]
    simp [PackageAssignments.assignments, hnone]
  derived := h.derived
  smallestLevel := h.smallestLevel
  highestLevel := rfl
  decided := by
    rintro d hd
    cases hd
    exact ⟨v, hpos, hin, rfl, rfl⟩

end PackageAssignments

namespace PartialSolution

variable {P V S : Type} [DecidableEq P] [VersionSet S V]

def narrowed (s : PartialSolution P V S) (p : P) (t : Term S) : Term S :=
  match s.packages.get? p with
  | none => t
  | some a => a.derived.intersection t

inductive Trail : PartialSolution P V S → List (Assignment P V S) → Prop
  | empty : Trail .empty []
  | skip {s : PartialSolution P V S} {t : List (Assignment P V S)} (h : Trail s t) (n : Nat)
      (hn : s.nextIndex ≤ n) : Trail { s with nextIndex := n } t
  | derive {s s' : PartialSolution P V S} {t : List (Assignment P V S)} {p : P} {u : Term S} {c : Nat}
      (h : Trail s t) (hs : s.derive p u c = .ok s') :
      Trail s' (t ++ [.derivation ⟨p, u, c, s.level, s.nextIndex, s.narrowed p u⟩])
  | decide {s s' : PartialSolution P V S} {t : List (Assignment P V S)} {p : P} {v : V}
      (h : Trail s t) (hs : s.decide p v = .ok s') :
      Trail s' (t ++ [.decision ⟨p, v, .exact v, s.level + 1, s.nextIndex⟩])

/-! ## What the operations do -/

variable {s s' : PartialSolution P V S} {t : List (Assignment P V S)} {p q : P} {u : Term S} {c : Nat}
  {v : V}

omit [VersionSet S V] in
theorem isDecided_eq_false_iff :
    s.isDecided p = false ↔ ∀ a, s.packages.get? p = some a → a.decision = none := by
  unfold isDecided
  split
  · next a h => simp [h]
  · next h => simp [h]

theorem derive_eq_ok_iff :
    s.derive p u c = .ok s' ↔ s.isDecided p = false ∧ ∃ current below, s.touched = current :: below ∧
      s' = { s with
        nextIndex := s.nextIndex + 1
        packages := s.packages.insert p
          (PackageAssignments.derive (s.packages.get? p) p u c s.level s.nextIndex)
        touched := current.insert p :: below } := by
  cases h : s.isDecided p with
  | true => simp [derive, h]
  | false =>
    cases htouched : s.touched with
    | nil => simp [derive, touch, h, htouched, bind, Except.bind]
    | cons current below =>
      rw [derive, if_neg (by simp [h]), touch, htouched]
      constructor
      · rintro ⟨⟩
        exact ⟨rfl, current, below, rfl, rfl⟩
      · rintro ⟨-, _, _, ⟨⟩, rfl⟩
        rfl

theorem decide_eq_ok_iff :
    s.decide p v = .ok s' ↔ ∃ a, s.packages.get? p = some a ∧ a.decision = none ∧
      a.derived.isPositive = true ∧ a.derived.contains v = true ∧
      s' = {
        nextIndex := s.nextIndex + 1
        level := s.level + 1
        packages := s.packages.insert p
          { a with decision := some ⟨p, v, .exact v, s.level + 1, s.nextIndex⟩, highestLevel := s.level + 1 }
        touched := [p] :: s.touched } := by
  unfold decide
  cases h : s.packages.get? p with
  | none => simp
  | some a =>
    simp only [Bool.or_eq_true, Option.isSome_iff_ne_none, Bool.not_eq_true', Option.some.injEq,
      exists_eq_left']
    split_ifs with hpending hinside
    · simp only [false_iff, not_and]
      intro hd hp
      rcases hpending with h' | h'
      · exact absurd hd h'
      · rw [h'] at hp
        exact absurd hp (by simp)
    · simp only [false_iff, not_and]
      intro _ _ hc
      rw [hc] at hinside
      exact absurd hinside (by simp)
    · push Not at hpending
      rw [Bool.not_eq_false] at hinside
      simp [hpending.1, hpending.2, hinside, eq_comm]

theorem level_of_derive (hs : s.derive p u c = .ok s') : s'.level = s.level := by
  obtain ⟨-, _, _, -, rfl⟩ := derive_eq_ok_iff.mp hs
  rfl

theorem level_of_decide (hs : s.decide p v = .ok s') : s'.level = s.level + 1 := by
  obtain ⟨a, -, -, -, -, rfl⟩ := decide_eq_ok_iff.mp hs
  rfl

/-! ## Order -/

namespace Trail

theorem index_lt (h : Trail s t) : ∀ a ∈ t, a.index < s.nextIndex := by
  induction h with
  | empty => simp
  | skip _ n hn ih => exact fun a ha => lt_of_lt_of_le (ih a ha) hn
  | derive _ hs ih =>
    obtain ⟨-, _, _, -, rfl⟩ := derive_eq_ok_iff.mp hs
    intro a ha
    rcases List.mem_append.mp ha with ha | ha
    · exact Nat.lt_succ_of_lt (ih a ha)
    · rw [List.mem_singleton] at ha
      subst ha
      exact Nat.lt_succ_self _
  | decide _ hs ih =>
    obtain ⟨a', -, -, -, -, rfl⟩ := decide_eq_ok_iff.mp hs
    intro a ha
    rcases List.mem_append.mp ha with ha | ha
    · exact Nat.lt_succ_of_lt (ih a ha)
    · rw [List.mem_singleton] at ha
      subst ha
      exact Nat.lt_succ_self _

theorem level_le (h : Trail s t) : ∀ a ∈ t, a.level ≤ s.level := by
  induction h with
  | empty => simp
  | skip _ n hn ih => exact ih
  | derive _ hs ih =>
    obtain ⟨-, _, _, -, rfl⟩ := derive_eq_ok_iff.mp hs
    intro a ha
    rcases List.mem_append.mp ha with ha | ha
    · exact ih a ha
    · rw [List.mem_singleton] at ha
      subst ha
      exact le_rfl
  | decide _ hs ih =>
    obtain ⟨a', -, -, -, -, rfl⟩ := decide_eq_ok_iff.mp hs
    intro a ha
    rcases List.mem_append.mp ha with ha | ha
    · exact Nat.le_succ_of_le (ih a ha)
    · rw [List.mem_singleton] at ha
      subst ha
      exact le_rfl

theorem level_le_length (h : Trail s t) : s.level ≤ t.length := by
  induction h with
  | empty => exact le_rfl
  | skip _ n hn ih => exact ih
  | derive _ hs ih =>
    obtain ⟨-, _, _, -, rfl⟩ := derive_eq_ok_iff.mp hs
    rw [List.length_append]
    exact Nat.le_add_right_of_le ih
  | decide _ hs ih =>
    obtain ⟨a', -, -, -, -, rfl⟩ := decide_eq_ok_iff.mp hs
    rw [List.length_append]
    exact Nat.succ_le_succ ih

/-- Indices rise, levels never fall, and a decision is the first assignment of its level. -/
theorem ordered (h : Trail s t) : t.Pairwise Assignment.Precedes := by
  induction h with
  | empty => exact List.Pairwise.nil
  | skip _ n hn ih => exact ih
  | derive h hs ih =>
    refine List.pairwise_append.mpr ⟨ih, List.pairwise_singleton _ _, fun a ha b hb => ?_⟩
    rw [List.mem_singleton] at hb
    subst hb
    exact ⟨h.index_lt a ha, h.level_le a ha, by simp [Assignment.isDecision]⟩
  | decide h hs ih =>
    refine List.pairwise_append.mpr ⟨ih, List.pairwise_singleton _ _, fun a ha b hb => ?_⟩
    rw [List.mem_singleton] at hb
    subst hb
    exact ⟨h.index_lt a ha, Nat.le_succ_of_le (h.level_le a ha),
      fun _ => Nat.lt_succ_of_le (h.level_le a ha)⟩

theorem precedes_or_precedes (h : Trail s t) {a b : Assignment P V S} (ha : a ∈ t) (hb : b ∈ t)
    (hne : a ≠ b) : a.Precedes b ∨ b.Precedes a := by
  have hpair : t.Pairwise fun a b => a.Precedes b ∨ b.Precedes a := h.ordered.imp fun h' => Or.inl h'
  have hsymm : Std.Symm fun a b : Assignment P V S => a.Precedes b ∨ b.Precedes a :=
    ⟨fun _ _ => Or.symm⟩
  exact hpair.forall ha hb hne

theorem eq_of_index_eq (h : Trail s t) {a b : Assignment P V S} (ha : a ∈ t) (hb : b ∈ t)
    (heq : a.index = b.index) : a = b := by
  by_contra hne
  rcases h.precedes_or_precedes ha hb hne with h' | h'
  · exact absurd h'.1 (by omega)
  · exact absurd h'.1 (by omega)

theorem level_le_of_index_le (h : Trail s t) {a b : Assignment P V S} (ha : a ∈ t) (hb : b ∈ t)
    (hle : a.index ≤ b.index) : a.level ≤ b.level := by
  by_cases hne : a = b
  · rw [hne]
  · rcases h.precedes_or_precedes ha hb hne with h' | h'
    · exact h'.2.1
    · exact absurd h'.1 (by omega)

theorem level_lt_of_index_lt (h : Trail s t) {a b : Assignment P V S} (ha : a ∈ t) (hb : b ∈ t)
    (hlt : a.index < b.index) (hd : b.isDecision = true) : a.level < b.level := by
  have hne : a ≠ b := fun he => absurd hlt (by rw [he]; exact lt_irrefl _)
  rcases h.precedes_or_precedes ha hb hne with h' | h'
  · exact h'.2.2 hd
  · exact absurd h'.1 (by omega)

theorem index_lt_of_level_lt (h : Trail s t) {a b : Assignment P V S} (ha : a ∈ t) (hb : b ∈ t)
    (hlt : a.level < b.level) : a.index < b.index := by
  by_contra hc
  have := h.level_le_of_index_le hb ha (not_lt.mp hc)
  omega

theorem nodup (h : Trail s t) : t.Nodup :=
  h.ordered.imp fun {a b} h' he => absurd h'.1 (by rw [he]; exact lt_irrefl _)

theorem level_pos (h : Trail s t) {d : Decision P V S} (hd : .decision d ∈ t) : 0 < d.level := by
  induction h with
  | empty => cases hd
  | skip _ n hn ih => exact ih hd
  | derive _ hs ih =>
    rcases List.mem_append.mp hd with hd | hd
    · exact ih hd
    · simp at hd
  | decide _ hs ih =>
    rcases List.mem_append.mp hd with hd | hd
    · exact ih hd
    · rw [List.mem_singleton, Assignment.decision.injEq] at hd
      subst hd
      exact Nat.succ_pos _

/-- Every level above the lowest was opened by a decision. -/
theorem exists_decision (h : Trail s t) {l : Nat} (hpos : 0 < l) (hl : l ≤ s.level) :
    ∃ d, .decision d ∈ t ∧ d.level = l := by
  induction h with
  | empty =>
    change l ≤ 0 at hl
    omega
  | skip _ n hn ih => exact ih hl
  | derive _ hs ih =>
    obtain ⟨-, _, _, -, rfl⟩ := derive_eq_ok_iff.mp hs
    obtain ⟨d, hd, hdl⟩ := ih hl
    exact ⟨d, List.mem_append_left _ hd, hdl⟩
  | @decide s _ _ _ _ _ hs ih =>
    obtain ⟨a', -, -, -, -, rfl⟩ := decide_eq_ok_iff.mp hs
    change l ≤ s.level + 1 at hl
    by_cases hls : l ≤ s.level
    · obtain ⟨d, hd, hdl⟩ := ih hls
      exact ⟨d, List.mem_append_left _ hd, hdl⟩
    · exact ⟨_, List.mem_append_right _ (List.mem_singleton_self _), by dsimp only; omega⟩

/-! ## Prefixes -/

theorem upTo_eq_self (h : Trail s t) {l : Nat} (hl : s.level ≤ l) : upTo l t = t :=
  List.filter_eq_self.mpr fun a ha => by simpa using (h.level_le a ha).trans hl

theorem before_eq_self (h : Trail s t) : before s.nextIndex t = t :=
  List.filter_eq_self.mpr fun a ha => by simpa using h.index_lt a ha

theorem before_upTo (h : Trail s t) {a : Assignment P V S} (ha : a ∈ t) {l : Nat} (hl : a.level ≤ l) :
    before a.index (upTo l t) = before a.index t := by
  unfold before upTo
  rw [List.filter_filter]
  refine List.filter_congr fun b hb => ?_
  have hle := fun hi => h.level_le_of_index_le hb ha hi
  simp only [Bool.and_eq_decide, decide_eq_true_eq, decide_eq_decide, and_iff_left_iff_imp]
  intro hlt
  exact (hle hlt.le).trans hl

theorem mem_before_of_level_lt (h : Trail s t) {a b : Assignment P V S} (ha : a ∈ t) (hb : b ∈ t)
    (hlt : b.level < a.level) : b ∈ before a.index t :=
  mem_before_iff.mpr ⟨hb, h.index_lt_of_level_lt hb ha hlt⟩

/-! ## The assignments of a package -/

omit [VersionSet S V] in
theorem filter_package_append {b : Assignment P V S} (hb : b.package = p) :
    (t ++ [b]).filter (fun c => c.package = p) = t.filter (fun c => c.package = p) ++ [b] := by
  simp [List.filter_append, hb]

theorem elim_records_append {a? : Option (PackageAssignments P V S)} {b : Assignment P V S}
    (hb : b.package ≠ p)
    (h : a?.elim (∀ a ∈ t, a.package ≠ p) fun a => a.Records (t.filter fun c => c.package = p)) :
    a?.elim (∀ a ∈ t ++ [b], a.package ≠ p)
      fun a => a.Records ((t ++ [b]).filter fun c => c.package = p) := by
  cases a? with
  | none =>
    intro a ha
    rcases List.mem_append.mp ha with ha | ha
    · exact h a ha
    · rw [List.mem_singleton] at ha
      exact ha ▸ hb
  | some a =>
    have hfilter : (t ++ [b]).filter (fun c => c.package = p) = t.filter fun c => c.package = p := by
      simp [List.filter_append, hb]
    rw [Option.elim_some, hfilter]
    exact h

theorem records_or_absent (h : Trail s t) (p : P) :
    (s.packages.get? p).elim (∀ a ∈ t, a.package ≠ p)
      (fun a => a.Records (t.filter fun b => b.package = p)) := by
  induction h with
  | empty => simp [PartialSolution.empty]
  | skip _ n hn ih => exact ih
  | @derive s s' t q u c _ hs ih =>
    obtain ⟨hd, _, _, -, rfl⟩ := derive_eq_ok_iff.mp hs
    rw [isDecided_eq_false_iff] at hd
    dsimp only
    rw [OrderedMap.get?_insert]
    by_cases hq : q = p
    · subst hq
      have hself : (Assignment.derivation ⟨q, u, c, s.level, s.nextIndex, s.narrowed q u⟩ :
          Assignment P V S).package = q := rfl
      rw [if_pos rfl, Option.elim_some, filter_package_append hself]
      cases hget : s.packages.get? q with
      | none =>
        rw [hget] at ih
        have hnil : t.filter (fun b => b.package = q) = [] := by
          simpa [List.filter_eq_nil_iff] using ih
        rw [hnil, List.nil_append, narrowed, hget]
        exact PackageAssignments.records_derive_none q u c s.level s.nextIndex
      | some a =>
        rw [hget] at ih
        change a.Records _ at ih
        rw [narrowed, hget]
        exact ih.derive (hd a hget) q u c s.level s.nextIndex
    · rw [if_neg hq]
      exact elim_records_append hq ih
  | @decide s s' t q v _ hs ih =>
    obtain ⟨a, hget, hnone, hpos, hin, rfl⟩ := decide_eq_ok_iff.mp hs
    dsimp only
    rw [OrderedMap.get?_insert]
    by_cases hq : q = p
    · subst hq
      rw [hget] at ih
      change a.Records _ at ih
      have hself : (Assignment.decision ⟨q, v, .exact v, s.level + 1, s.nextIndex⟩ :
          Assignment P V S).package = q := rfl
      rw [if_pos rfl, Option.elim_some, filter_package_append hself]
      exact ih.decide hnone hpos hin q (s.level + 1) s.nextIndex
    · rw [if_neg hq]
      exact elim_records_append hq ih

theorem records (h : Trail s t) {a : PackageAssignments P V S} (hp : s.packages.get? p = some a) :
    a.Records (t.filter fun b => b.package = p) := by
  have hrec := h.records_or_absent p
  rwa [hp] at hrec

theorem absent_iff (h : Trail s t) : s.packages.get? p = none ↔ ∀ a ∈ t, a.package ≠ p := by
  have hrec := h.records_or_absent p
  cases hp : s.packages.get? p with
  | none =>
    rw [hp] at hrec
    exact ⟨fun _ => hrec, fun _ => rfl⟩
  | some a =>
    rw [hp] at hrec
    change a.Records _ at hrec
    simp only [reduceCtorEq, false_iff]
    intro habsent
    have hnil : t.filter (fun b => b.package = p) = [] := by
      simpa [List.filter_eq_nil_iff] using habsent
    have hempty := hrec.assignments.trans hnil
    rw [PackageAssignments.assignments, List.append_eq_nil_iff, List.map_eq_nil_iff] at hempty
    exact hrec.derived.ne_nil hempty.1

theorem mem_assignments_iff (h : Trail s t) {a : PackageAssignments P V S}
    (hp : s.packages.get? p = some a) {b : Assignment P V S} :
    b ∈ a.assignments ↔ b ∈ t ∧ b.package = p := by
  rw [(h.records hp).assignments, List.mem_filter, decide_eq_true_eq]

/-! ## Touched packages -/

theorem length_touched (h : Trail s t) : s.touched.length = s.level + 1 := by
  induction h with
  | empty => rfl
  | skip _ n hn ih => exact ih
  | derive _ hs ih =>
    obtain ⟨-, current, below, htouched, rfl⟩ := derive_eq_ok_iff.mp hs
    rwa [htouched] at ih
  | decide _ hs ih =>
    obtain ⟨a', -, -, -, -, rfl⟩ := decide_eq_ok_iff.mp hs
    simpa using ih

theorem exists_derive (h : Trail s t) (hp : s.isDecided p = false) (u : Term S) (c : Nat) :
    ∃ s', s.derive p u c = .ok s' := by
  obtain ⟨current, below, htouched⟩ : ∃ current below, s.touched = current :: below :=
    List.exists_cons_of_length_eq_add_one h.length_touched
  exact ⟨_, derive_eq_ok_iff.mpr ⟨hp, current, below, htouched, rfl⟩⟩

theorem mem_touched (h : Trail s t) :
    ∀ a ∈ t, ∃ l, s.touched[s.level - a.level]? = some l ∧ a.package ∈ l := by
  induction h with
  | empty => simp
  | skip _ n hn ih => exact ih
  | @derive s _ t _ _ _ h hs ih =>
    obtain ⟨-, current, below, htouched, rfl⟩ := derive_eq_ok_iff.mp hs
    rw [htouched] at ih
    intro a ha
    dsimp only
    rcases List.mem_append.mp ha with ha | ha
    · obtain ⟨l', hl', hmem⟩ := ih a ha
      cases hk : s.level - a.level with
      | zero =>
        rw [hk] at hl'
        cases hl'
        exact ⟨_, rfl, List.mem_insert_of_mem hmem⟩
      | succ k =>
        rw [hk] at hl'
        exact ⟨l', hl', hmem⟩
    · rw [List.mem_singleton] at ha
      subst ha
      rw [Assignment.level, Nat.sub_self]
      exact ⟨_, rfl, List.mem_insert_self⟩
  | @decide s _ t _ _ h hs ih =>
    obtain ⟨a', -, -, -, -, rfl⟩ := decide_eq_ok_iff.mp hs
    intro a ha
    dsimp only
    rcases List.mem_append.mp ha with ha | ha
    · obtain ⟨l, hl, hmem⟩ := ih a ha
      have hle := h.level_le a ha
      refine ⟨l, ?_, hmem⟩
      rw [show s.level + 1 - a.level = (s.level - a.level) + 1 by omega]
      exact hl
    · rw [List.mem_singleton] at ha
      subst ha
      rw [Assignment.level, Nat.sub_self]
      exact ⟨_, rfl, List.mem_singleton_self _⟩

end Trail

end PartialSolution

end DependencyResolution
