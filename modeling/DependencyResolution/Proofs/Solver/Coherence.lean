import DependencyResolution.Proofs.Solver.Justification

/-!
# What a partial solution keeps agrees

A partial solution keeps the assignments by package, and beside them much that could be computed from
them: accumulated and derived terms, the lowest and the highest level of a package, the packages touched
at a level, the order in which the packages came, and counters. Whatever calls are made of a fresh one,
in whatever order and whether they succeed or not, all this agrees (`edits_coherent`).

A partial solution that has a trail is coherent, and calls that succeed lead from one with a trail to
one with a trail; a call that fails leaves things as they were.
-/

namespace DependencyResolution

variable {P V S M : Type}

/-! ## Calls -/

namespace PartialSolution

/-- A call that changes a partial solution. -/
inductive Edit (P V S M : Type) where
  | derive (package : P) (term : Term S) (cause : Nat)
  | decide (package : P) (version : V)
  | decideUnless (store : Store P V S M) (package : P) (version : V) (ids : List Nat)
  | backtrack (target : Int)

namespace Edit

variable [DecidableEq P] [DecidableEq S] [VersionSet S V]

def attempt (s : PartialSolution P V S) :
    Edit P V S M → Except (Violation P V S) (PartialSolution P V S)
  | derive p u cause => s.derive p u cause
  | decide p v => s.decide p v
  | decideUnless store p v ids => (s.decideUnless store p v ids).map Prod.fst
  | backtrack target => s.backtrack target

/-- The partial solution after the call, which is the one before if the call fails. -/
def apply (s : PartialSolution P V S) (e : Edit P V S M) : PartialSolution P V S :=
  match e.attempt s with
  | .ok s' => s'
  | .error _ => s

end Edit

end PartialSolution

/-- The violation would show only when part of what is kept has changed. -/
def Violation.isHalfway : Violation P V S → Bool
  | lostDerivations _ => true
  | missingLevel _ => true
  | _ => false

/-! ## Coherence -/

namespace PartialSolution

variable [DecidableEq P]

def firstAssignment (s : PartialSolution P V S) (p : P) : Option (Assignment P V S) :=
  s.assignments.find? fun a => a.package = p

/-- Both packages have live assignments, and those of the first one begin earlier. -/
def EntersBefore (s : PartialSolution P V S) (p q : P) : Prop :=
  ∃ a b, s.firstAssignment p = some a ∧ s.firstAssignment q = some b ∧ a.index < b.index

end PartialSolution

/-- What is kept of a package agrees with its assignments: every accumulated term is the intersection of the
terms derived so far, the last one is what is derived, and a decision comes after all derivations, for a
version that they leave. -/
structure PackageAssignments.Coherent [DecidableEq P] [VersionSet S V] (a : PackageAssignments P V S) (p : P) :
    Prop where
  accumulated : ∀ (k : Nat) (d : Derivation P S), a.derivations.toList[k]? = some d →
    knownFrom ((a.derivations.toList.take (k + 1)).map Assignment.derivation : List (Assignment P V S)) p =
      some d.accumulated
  derived : ∃ d, a.derivations.toList.getLast? = some d ∧ d.accumulated = a.derived
  smallestLevel : ∀ d ∈ a.derivations.toList.head?, d.level = a.smallestLevel
  highestLevel : ∀ b ∈ a.assignments.getLast?, b.level = a.highestLevel
  decided : ∀ d ∈ a.decision, (∀ e ∈ a.derivations.toList, e.index < d.index) ∧
    a.derived.isPositive = true ∧ a.derived.contains d.version = true ∧ d.term = .exact d.version

/-- What is kept in a partial solution agrees with the live assignments. -/
structure PartialSolution.Coherent [DecidableEq P] [VersionSet S V] (s : PartialSolution P V S) : Prop where
  /-- Numbers rise along the assignments, and levels never fall. -/
  ordered : s.assignments.Pairwise fun a b => a.index < b.index ∧ a.level ≤ b.level
  counted : ∀ a ∈ s.assignments, a.index < s.nextIndex ∧ a.level ≤ s.level
  /-- A level above the lowest has one live decision, and it comes before all else at the level. -/
  opened : ∀ l, 1 ≤ l → l ≤ s.level → ∃ d, .decision d ∈ s.assignments ∧ d.level = l ∧
    (∀ e, .decision e ∈ s.assignments → e.level = l → e = d) ∧
    ∀ a ∈ s.assignments, a.level = l → d.index ≤ a.index
  packages : ∀ p a, s.packages.get? p = some a → a.Coherent p
  /-- The term that is reported of an undecided package is the last accumulated one. -/
  reported : ∀ p a, s.packages.get? p = some a → a.decision = none →
    s.term? p = a.derivations.toList.getLast?.map (·.accumulated)
  assigned : ∀ p, p ∈ s.packages.keys ↔ ∃ a ∈ s.assignments, a.package = p
  /-- The packages are listed in the order of their first live assignments. -/
  listed : s.packages.keys.Pairwise s.EntersBefore
  levels : s.touched.length = s.level + 1
  /-- The packages assigned at a level are among those touched at it, which are kept last level first. -/
  touched : ∀ a ∈ s.assignments, ∃ ps, s.touched[s.level - a.level]? = some ps ∧ a.package ∈ ps

variable [DecidableEq P] [VersionSet S V]

/-! ## Trails are coherent -/

theorem PackageAssignments.Accumulates.knownFrom_eq {ds : List (Derivation P S)} {u : Term S}
    (h : Accumulates ds u) {p : P} (hp : ∀ d ∈ ds, d.package = p) :
    knownFrom (ds.map Assignment.derivation : List (Assignment P V S)) p = some u := by
  have hall : ∀ ds : List (Derivation P S), (∀ d ∈ ds, d.package = p) →
      (ds.map Assignment.derivation : List (Assignment P V S)).filter (fun a => a.package = p) =
        ds.map Assignment.derivation := by
    intro ds hds
    refine List.filter_eq_self.mpr fun a ha => ?_
    obtain ⟨d, hd, rfl⟩ := List.mem_map.mp ha
    exact decide_eq_true (hds d hd)
  unfold knownFrom
  rw [hall ds hp]
  clear hall hp
  induction h with
  | first h => simp [Assignment.term, h]
  | @next ds t d hds h ih =>
    rw [List.map_append]
    cases hmap : (ds.map Assignment.derivation : List (Assignment P V S)) with
    | nil => exact absurd (List.map_eq_nil_iff.mp hmap) hds.ne_nil
    | cons a rest =>
      rw [hmap] at ih
      simp only [List.cons_append, List.map_cons, List.map_nil, List.foldl_append, List.foldl_cons,
        List.foldl_nil, Option.some.injEq] at ih ⊢
      rw [ih, h]
      rfl

namespace PartialSolution

variable {s s' : PartialSolution P V S} {t : List (Assignment P V S)} {p q : P}

namespace Trail

theorem index_le_of_find? (h : Trail s t) {a b : Assignment P V S}
    (ha : t.find? (fun c => c.package = p) = some a) (hb : b ∈ t) (hp : b.package = p) :
    a.index ≤ b.index := by
  obtain ⟨-, earlier, later, rfl, hearlier⟩ := List.find?_eq_some_iff_append.mp ha
  have hordered := h.ordered
  rw [List.pairwise_append, List.pairwise_cons] at hordered
  rcases List.mem_append.mp hb with hb | hb
  · have hnot := hearlier b hb
    simp [hp] at hnot
  · rcases List.mem_cons.mp hb with rfl | hb
    · exact le_rfl
    · exact (hordered.2.1.1 b hb).1.le

/-- Some assignment of the one package comes before any of the other. -/
def BeginsBefore (t : List (Assignment P V S)) (p q : P) : Prop :=
  ∀ b ∈ t, b.package = q → ∃ a ∈ t, a.package = p ∧ a.index < b.index

theorem mem_keys_iff (h : Trail s t) : p ∈ s.packages.keys ↔ ∃ a ∈ t, a.package = p := by
  rw [← not_iff_not, ← OrderedMap.get?_eq_none_iff, h.absent_iff]
  push Not
  rfl

theorem pairwise_keys_insert (h : Trail s t) (hkeys : s.packages.keys.Pairwise (BeginsBefore t))
    {b : Assignment P V S} (hb : b.index = s.nextIndex) (a : PackageAssignments P V S) :
    (s.packages.insert b.package a).keys.Pairwise (BeginsBefore (t ++ [b])) := by
  have hlast : ∀ p ∈ s.packages.keys, ∃ c ∈ t ++ [b], c.package = p ∧ c.index < b.index := by
    intro p hp
    obtain ⟨c, hc, hcp⟩ := h.mem_keys_iff.mp hp
    exact ⟨c, List.mem_append_left _ hc, hcp, hb ▸ h.index_lt c hc⟩
  have hold : s.packages.keys.Pairwise (BeginsBefore (t ++ [b])) := by
    refine hkeys.imp_of_mem fun {p q} hp _ hpq c hc hcq => ?_
    rcases List.mem_append.mp hc with hc | hc
    · obtain ⟨d, hd, hdp, hlt⟩ := hpq c hc hcq
      exact ⟨d, List.mem_append_left _ hd, hdp, hlt⟩
    · rw [List.mem_singleton.mp hc]
      exact hlast p hp
  rw [OrderedMap.keys_insert]
  split_ifs with hmem
  · exact hold
  · refine List.pairwise_append.mpr ⟨hold, List.pairwise_singleton _ _, fun p hp q hq c hc hcq => ?_⟩
    rw [List.mem_singleton] at hq
    subst hq
    rcases List.mem_append.mp hc with hc | hc
    · exact absurd (h.mem_keys_iff.mpr ⟨c, hc, hcq⟩) hmem
    · rw [List.mem_singleton.mp hc]
      exact hlast p hp

theorem pairwise_keys (h : Trail s t) : s.packages.keys.Pairwise (BeginsBefore t) := by
  induction h with
  | empty => exact List.Pairwise.nil
  | skip _ n hn ih => exact ih
  | derive h hs ih =>
    obtain ⟨-, _, _, -, rfl⟩ := derive_eq_ok_iff.mp hs
    exact h.pairwise_keys_insert ih (b := .derivation _) rfl _
  | decide h hs ih =>
    obtain ⟨a, -, -, -, -, rfl⟩ := decide_eq_ok_iff.mp hs
    exact h.pairwise_keys_insert ih (b := .decision _) rfl _

theorem exists_firstAssignment (h : Trail s t) (hp : p ∈ s.packages.keys) :
    ∃ a, s.firstAssignment p = some a ∧ a ∈ t ∧ a.package = p := by
  obtain ⟨b, hb, hbp⟩ := h.mem_keys_iff.mp hp
  have hsome : (s.assignments.find? fun c => c.package = p).isSome := by
    rw [List.find?_isSome, h.assignments_eq]
    exact ⟨b, hb, decide_eq_true hbp⟩
  obtain ⟨a, ha⟩ := Option.isSome_iff_exists.mp hsome
  refine ⟨a, ha, h.assignments_eq ▸ List.mem_of_find?_eq_some ha, ?_⟩
  simpa using List.find?_some ha

theorem pairwise_entersBefore (h : Trail s t) : s.packages.keys.Pairwise s.EntersBefore := by
  refine h.pairwise_keys.imp_of_mem fun {p q} hp hq hpq => ?_
  obtain ⟨a, ha, -, -⟩ := h.exists_firstAssignment hp
  obtain ⟨b, hb, hbt, hbq⟩ := h.exists_firstAssignment hq
  obtain ⟨c, hc, hcp, hlt⟩ := hpq b hbt hbq
  have hfind := ha
  rw [firstAssignment, h.assignments_eq] at hfind
  exact ⟨a, b, ha, hb, (h.index_le_of_find? hfind hc hcp).trans_lt hlt⟩

/-- The live decision that opened a level is the only one of the level and precedes all else there. -/
theorem exists_opening (h : Trail s t) {l : Nat} (hpos : 1 ≤ l) (hl : l ≤ s.level) :
    ∃ d, .decision d ∈ t ∧ d.level = l ∧ (∀ e, .decision e ∈ t → e.level = l → e = d) ∧
      ∀ a ∈ t, a.level = l → d.index ≤ a.index := by
  obtain ⟨d, hd, hdl⟩ := h.exists_decision hpos hl
  have hfirst : ∀ a ∈ t, a.level = l → d.index ≤ a.index := by
    intro a ha hal
    by_contra hlt
    have hbelow : a.level < d.level := h.level_lt_of_index_lt ha hd (not_le.mp hlt) rfl
    omega
  refine ⟨d, hd, hdl, fun e he hel => ?_, hfirst⟩
  have hle := hfirst _ he hel
  have hge : e.index ≤ d.index := by
    by_contra hlt
    have hbelow : d.level < e.level := h.level_lt_of_index_lt hd he (not_le.mp hlt) rfl
    omega
  exact Assignment.decision.inj (h.eq_of_index_eq he hd (le_antisymm hge hle))

theorem coherent_packages (h : Trail s t) {a : PackageAssignments P V S} (ha : s.packages.get? p = some a) :
    a.Coherent p where
  accumulated k d hd := by
    refine ((h.records ha).derived.take hd).knownFrom_eq fun e he => ?_
    exact ((h.mem_derivation_iff ha).mp (List.mem_of_mem_take he)).2
  derived := (h.records ha).derived.getLast
  smallestLevel := (h.records ha).smallestLevel
  highestLevel := by
    have hhighest := (h.records ha).highestLevel
    obtain ⟨last, hlast, -⟩ := (h.records ha).derived.getLast
    have hback : a.derivations.back? = some last := by rw [← Array.getLast?_toList, hlast]
    intro b hb
    rw [hhighest]
    cases hdec : a.decision with
    | some d =>
      have hbd : b = .decision d := by simpa [PackageAssignments.assignments, hdec, eq_comm] using hb
      rw [hbd]
      rfl
    | none =>
      have hbd : b = .derivation last := by
        simpa [PackageAssignments.assignments, hdec, hback, eq_comm] using hb
      rw [hbd, hback]
      rfl
  decided := by
    intro d hd
    obtain ⟨v, hpos, hin, rfl, hterm⟩ := (h.records ha).decided d hd
    exact ⟨fun e he => h.index_lt_decision ha he hd, hpos, hin, hterm⟩

theorem coherent (h : Trail s t) : s.Coherent where
  ordered := by
    rw [h.assignments_eq]
    exact h.ordered.imp fun hab => ⟨hab.1, hab.2.1⟩
  counted := by
    rw [h.assignments_eq]
    exact fun a ha => ⟨h.index_lt a ha, h.level_le a ha⟩
  opened := by
    rw [h.assignments_eq]
    exact fun l hpos hl => h.exists_opening hpos hl
  packages _ _ ha := h.coherent_packages ha
  reported := by
    intro p a ha hnone
    obtain ⟨d, hd, hacc⟩ := (h.records ha).derived.getLast
    rw [term?, ha, hd, Option.map_some, Option.map_some, PackageAssignments.term, hnone, hacc]
  assigned := by
    rw [h.assignments_eq]
    exact fun p => h.mem_keys_iff
  listed := h.pairwise_entersBefore
  levels := h.length_touched
  touched := by
    rw [h.assignments_eq]
    exact h.mem_touched

end Trail

/-! ## Calls keep it so -/

variable [DecidableEq S]

theorem Changes.exists_trail (h : Changes s s') (ht : Trail s t) : ∃ t', Trail s' t' := by
  rcases h.cases with ⟨p, u, c, hs⟩ | ⟨p, v, hs⟩ | rfl | ⟨l, hl, hs⟩
  · exact ⟨_, ht.derive hs⟩
  · exact ⟨_, ht.decide hs⟩
  · exact ⟨t, ht⟩
  · obtain ⟨s₁, hok, h₁, -⟩ := ht.backtrack hl
    obtain rfl := Except.ok.inj (hs.symm.trans hok)
    exact ⟨_, h₁⟩

namespace Edit

variable {e : Edit P V S M}

theorem changes (h : e.attempt s = .ok s') : Changes s s' := by
  cases e with
  | derive => exact .derive h
  | decide => exact .decide h
  | decideUnless store p v ids =>
    obtain ⟨⟨s₁, refused⟩, hok, rfl⟩ := map_eq_ok_iff.mp h
    exact .decideUnless hok
  | backtrack => exact .backtrack h

theorem exists_trail_apply (ht : Trail s t) (e : Edit P V S M) : ∃ t', Trail (e.apply s) t' := by
  unfold apply
  cases h : e.attempt s with
  | ok s' => exact (changes h).exists_trail ht
  | error v => exact ⟨t, ht⟩

theorem exists_trail_foldl (edits : List (Edit P V S M)) (ht : Trail s t) :
    ∃ t', Trail (edits.foldl apply s) t' := by
  induction edits generalizing s t with
  | nil => exact ⟨t, ht⟩
  | cons e rest ih =>
    obtain ⟨t₁, h₁⟩ := exists_trail_apply ht e
    exact ih h₁

omit [DecidableEq S] in
theorem isHalfway_of_decide {v : V} {w : Violation P V S} (h : s.decide p v = .error w) :
    w.isHalfway = false := by
  unfold PartialSolution.decide at h
  cases hp : s.packages.get? p with
  | none =>
    rw [hp] at h
    cases h
    rfl
  | some a =>
    rw [hp] at h
    dsimp only at h
    split_ifs at h <;> cases h <;> rfl

theorem isHalfway_of_firstConflict {store : Store P V S M} {v : V} {ids : List Nat}
    {w : Violation P V S} (h : s.firstConflict store p v ids = .error w) : w.isHalfway = false := by
  induction ids with
  | nil => cases h
  | cons id rest ih =>
    rw [firstConflict, Store.get] at h
    cases hid : store.get? id with
    | none =>
      rw [hid] at h
      cases h
      rfl
    | some i =>
      rw [hid] at h
      simp only [bind, Except.bind] at h
      split_ifs at h
      exact ih h

/-- No call fails half-way: the level of a derivation is there, and going back fails only before anything
is undone. -/
theorem isHalfway_of_attempt (ht : Trail s t) {w : Violation P V S} (h : e.attempt s = .error w) :
    w.isHalfway = false := by
  cases e with
  | derive p u cause =>
    cases hp : s.isDecided p with
    | true =>
      simp only [attempt, PartialSolution.derive, if_pos hp] at h
      cases h
      rfl
    | false =>
      obtain ⟨s', hok⟩ := ht.exists_derive hp u cause
      cases hok.symm.trans h
  | decide p v => exact isHalfway_of_decide h
  | decideUnless store p v ids =>
    simp only [attempt, PartialSolution.decideUnless] at h
    split_ifs at h
    · cases hfirst : s.firstConflict store p v ids with
      | error w' =>
        rw [hfirst] at h
        exact Except.error.inj h ▸ isHalfway_of_firstConflict hfirst
      | ok refused =>
        rw [hfirst] at h
        cases refused with
        | some id => cases h
        | none =>
          cases hdecide : s.decide p v with
          | error w' =>
            rw [hdecide] at h
            exact Except.error.inj h ▸ isHalfway_of_decide hdecide
          | ok s' =>
            rw [hdecide] at h
            cases h
    · cases h
      rfl
  | backtrack target =>
    by_cases hrange : target < 0 ∨ s.level < target
    · simp only [attempt, PartialSolution.backtrack, if_pos hrange] at h
      cases h
      rfl
    · obtain ⟨l, rfl⟩ := Int.eq_ofNat_of_zero_le (not_lt.mp fun hneg => hrange (Or.inl hneg))
      obtain ⟨s₁, hok, -⟩ := ht.backtrack (l := l) (by omega)
      cases hok.symm.trans h

end Edit

/-- Whatever calls are made of a fresh partial solution, what it keeps agrees. A call that fails changes nothing:
the failures that would come half-way, of going back and of a derivation at a level that is not there, do not
arise. -/
theorem edits_coherent (edits : List (Edit P V S M)) :
    (edits.foldl Edit.apply (.empty : PartialSolution P V S)).Coherent ∧
      ∀ (e : Edit P V S M) v, e.attempt (edits.foldl Edit.apply .empty) = .error v →
        e.apply (edits.foldl Edit.apply .empty) = edits.foldl Edit.apply .empty ∧
          (∀ p, v ≠ .lostDerivations p) ∧ ∀ l, v ≠ .missingLevel l := by
  obtain ⟨t, ht⟩ := Edit.exists_trail_foldl edits Trail.empty
  refine ⟨ht.coherent, fun e v h => ?_⟩
  have hv := Edit.isHalfway_of_attempt ht h
  refine ⟨by rw [Edit.apply, h], ?_, ?_⟩
  · rintro p rfl
    cases hv
  · rintro l rfl
    cases hv

end PartialSolution

end DependencyResolution
