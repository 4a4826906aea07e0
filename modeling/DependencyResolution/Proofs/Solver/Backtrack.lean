import DependencyResolution.Proofs.Solver.Trail
import Mathlib.Data.List.TakeWhile

/-!
# Going back

Going back to a level undoes exactly what was assigned above it: the trail loses the assignments of
higher levels, and the partial solution is the one that this trail had (`Trail.backtrack`).

The argument goes along the trail. Rolling back every package is the same before and after an
assignment above the level (`rolledBack_derive`, `rolledBack_decide`), and changes nothing where no
assignment is above it. What remains is that visiting the touched packages alone rolls back every one
(`foldlM_rollbackPackage`).
-/

namespace DependencyResolution

open PackageAssignments

namespace PackageAssignments

variable {P V S : Type}

theorem popWhile_push_of_pos {α : Type} {p : α → Bool} {xs : Array α} {x : α} (h : p x = true) :
    (xs.push x).popWhile p = xs.popWhile p := by
  rw [← Array.append_singleton, Array.popWhile_append_of_pos]
  simpa using h

theorem popWhile_eq_self {α : Type} {p : α → Bool} {xs : Array α} (h : ∀ x ∈ xs.back?, p x = false) :
    xs.popWhile p = xs := by
  unfold Array.popWhile
  split_ifs with hpos hp
  · have hback : xs.back? = some xs[xs.size - 1] := by
      rw [Array.back?_eq_getElem?, Array.getElem?_eq_getElem]
    rw [h _ hback] at hp
    exact absurd hp (by simp)
  · rfl
  · rfl

theorem back?_popWhile {α : Type} (p : α → Bool) (xs : Array α) :
    ∀ x ∈ (xs.popWhile p).back?, p x = false := by
  fun_induction Array.popWhile p xs with
  | case1 xs hpos hp ih => exact ih
  | case2 xs hpos hp =>
    intro x hx
    rw [Array.back?_eq_getElem?, Array.getElem?_eq_getElem (by omega)] at hx
    cases hx
    simpa using hp
  | case3 xs hpos =>
    intro x hx
    have hnil : xs = #[] := by simpa using hpos
    subst hnil
    cases hx

theorem rollback_rollback {l : Nat} {a a' : PackageAssignments P V S} (h : a.rollback l = some a') :
    a'.rollback l = some a' := by
  unfold rollback at h
  obtain ⟨last, hlast, rfl⟩ := Option.map_eq_some_iff.mp h
  have hpop : (a.derivations.popWhile fun d => l < d.level).popWhile (fun d => l < d.level) =
      a.derivations.popWhile fun d => l < d.level :=
    popWhile_eq_self (back?_popWhile _ _)
  have hdecision : (a.decision.filter fun d => d.level ≤ l).filter (fun d => d.level ≤ l) =
      a.decision.filter fun d => d.level ≤ l := by
    cases a.decision with
    | none => rfl
    | some d => by_cases hd : d.level ≤ l <;> simp [Option.filter, hd]
  simp only [rollback, hpop, hdecision, hlast, Option.map_some]

theorem smallestLevel_rollback {l : Nat} {a a' : PackageAssignments P V S}
    (h : a.rollback l = some a') : a'.smallestLevel = a.smallestLevel := by
  unfold rollback at h
  obtain ⟨last, -, rfl⟩ := Option.map_eq_some_iff.mp h
  rfl

theorem rollback_derive [VersionSet S V] {l : Nat} {a : PackageAssignments P V S} (p : P) (t : Term S)
    (cause index : Nat) {level : Nat} (hl : l < level) :
    (PackageAssignments.derive (some a) p t cause level index).rollback l = a.rollback l := by
  simp only [PackageAssignments.derive, rollback]
  rw [popWhile_push_of_pos (by simpa using hl)]

theorem rollback_decide {l : Nat} {a : PackageAssignments P V S} (d : Decision P V S)
    (hnone : a.decision = none) (hl : l < d.level) (highest : Nat) :
    PackageAssignments.rollback l { a with decision := some d, highestLevel := highest } = a.rollback l := by
  have hnot : ¬ d.level ≤ l := by omega
  simp [rollback, hnone, Option.filter, hnot]

end PackageAssignments

namespace PartialSolution

variable {P V S : Type} [DecidableEq P]

/-! ## Rolling back every package -/

def rollbackEntry (l : Nat) (e : P × PackageAssignments P V S) :
    Option (P × PackageAssignments P V S) :=
  if l < e.2.smallestLevel then none else (e.2.rollback l).map (e.1, ·)

def rolledBack (l : Nat) (packages : OrderedMap P (PackageAssignments P V S)) :
    List (P × PackageAssignments P V S) :=
  packages.entries.filterMap (rollbackEntry l)

theorem filterMap_write_of_eq {l : Nat} {p : P} {a b : PackageAssignments P V S}
    {entries : List (P × PackageAssignments P V S)} (hp : OrderedMap.lookup p entries = some b)
    (h : rollbackEntry l (p, a) = rollbackEntry l (p, b)) :
    (OrderedMap.write p a entries).filterMap (rollbackEntry l) = entries.filterMap (rollbackEntry l) := by
  induction entries with
  | nil => cases hp
  | cons e rest ih =>
    obtain ⟨k, c⟩ := e
    rw [OrderedMap.lookup] at hp
    by_cases hk : k = p
    · subst hk
      rw [if_pos rfl] at hp
      cases hp
      rw [OrderedMap.write, if_pos rfl, List.filterMap_cons, List.filterMap_cons, h]
    · rw [if_neg hk] at hp
      rw [OrderedMap.write, if_neg hk, List.filterMap_cons, List.filterMap_cons, ih hp]

theorem rolledBack_insert_of_eq {l : Nat} {p : P} {a b : PackageAssignments P V S}
    {packages : OrderedMap P (PackageAssignments P V S)} (hp : packages.get? p = some b)
    (h : rollbackEntry l (p, a) = rollbackEntry l (p, b)) :
    rolledBack l (packages.insert p a) = rolledBack l packages :=
  filterMap_write_of_eq hp h

theorem rolledBack_insert_of_none {l : Nat} {p : P} {a : PackageAssignments P V S}
    {packages : OrderedMap P (PackageAssignments P V S)} (hp : packages.get? p = none)
    (h : rollbackEntry l (p, a) = none) :
    rolledBack l (packages.insert p a) = rolledBack l packages := by
  have hnot : p ∉ packages.entries.map Prod.fst := (OrderedMap.get?_eq_none_iff packages).mp hp
  have hentries : (packages.insert p a).entries = packages.entries ++ [(p, a)] :=
    OrderedMap.write_of_not_mem a hnot
  rw [rolledBack, rolledBack, hentries, List.filterMap_append]
  simp [h]

theorem rolledBack_erase {l : Nat} {p : P} {a : PackageAssignments P V S}
    {packages : OrderedMap P (PackageAssignments P V S)} (hp : packages.get? p = some a)
    (h : rollbackEntry l (p, a) = none) :
    rolledBack l (packages.erase p) = rolledBack l packages := by
  have hentry := packages.get?_eq_some_iff.mp hp
  have hall : ∀ e ∈ packages.entries, e.1 = p → rollbackEntry l e = none := by
    rintro ⟨k, b⟩ he hk
    have hb := packages.get?_eq_some_iff.mpr he
    dsimp only at hk
    subst hk
    rw [hp] at hb
    cases hb
    exact h
  rw [rolledBack, rolledBack, OrderedMap.erase, OrderedMap.filter, List.filterMap_filter]
  refine List.filterMap_congr fun e he => ?_
  by_cases hk : e.1 = p
  · simp [hk, hall e he hk]
  · simp [hk]

/-- Going back makes no difference to a package. -/
def Settled (l : Nat) (e : P × PackageAssignments P V S) : Prop := rollbackEntry l e = some e

omit [DecidableEq P] in
theorem rolledBack_eq_entries {l : Nat} {packages : OrderedMap P (PackageAssignments P V S)}
    (h : ∀ e ∈ packages.entries, Settled l e) : rolledBack l packages = packages.entries := by
  rw [rolledBack, List.filterMap_congr h]
  simp

theorem rollbackPackage_spec {l : Nat} {p : P} (packages : OrderedMap P (PackageAssignments P V S))
    (h : ∀ a, packages.get? p = some a → a.smallestLevel ≤ l → (a.rollback l).isSome) :
    ∃ packages', rollbackPackage l packages p = .ok packages' ∧
      rolledBack l packages' = rolledBack l packages ∧
      (∀ a, packages'.get? p = some a → Settled l (p, a)) ∧
      ∀ q, q ≠ p → packages'.get? q = packages.get? q := by
  unfold rollbackPackage
  cases hp : packages.get? p with
  | none => exact ⟨packages, rfl, rfl, by simp [hp], fun _ _ => rfl⟩
  | some a =>
    dsimp only
    by_cases hsmall : l < a.smallestLevel
    · rw [if_pos hsmall]
      have hnone : rollbackEntry l (p, a) = none := if_pos hsmall
      refine ⟨packages.erase p, rfl, rolledBack_erase hp hnone, ?_, fun q hq => ?_⟩
      · intro b hb
        rw [OrderedMap.get?_erase, if_pos rfl] at hb
        cases hb
      · rw [OrderedMap.get?_erase, if_neg (Ne.symm hq)]
    · rw [if_neg hsmall]
      obtain ⟨a', ha'⟩ := Option.isSome_iff_exists.mp (h a hp (not_lt.mp hsmall))
      rw [ha']
      have hback := rollback_rollback ha'
      have hsmall' : ¬ l < a'.smallestLevel := by rwa [smallestLevel_rollback ha']
      have hsettled : Settled l (p, a') := by
        simp [Settled, rollbackEntry, hsmall', hback]
      have hsame : rollbackEntry l (p, a') = rollbackEntry l (p, a) := by
        rw [hsettled]
        simp [rollbackEntry, hsmall, ha']
      refine ⟨packages.insert p a', rfl, rolledBack_insert_of_eq hp hsame, ?_, fun q hq => ?_⟩
      · intro b hb
        rw [OrderedMap.get?_insert, if_pos rfl] at hb
        cases hb
        exact hsettled
      · rw [OrderedMap.get?_insert, if_neg (Ne.symm hq)]

theorem foldlM_rollbackPackage {l : Nat} (touched : List P)
    (packages : OrderedMap P (PackageAssignments P V S))
    (hsome : ∀ p a, packages.get? p = some a → a.smallestLevel ≤ l → (a.rollback l).isSome)
    (hothers : ∀ p a, packages.get? p = some a → p ∉ touched → Settled l (p, a)) :
    ∃ packages', touched.foldlM (rollbackPackage l) packages = .ok packages' ∧
      packages'.entries = rolledBack l packages := by
  -- a package that has been rolled back is settled, so the hypotheses pass on to the rest of the list
  induction touched generalizing packages with
  | nil =>
    refine ⟨packages, rfl, (rolledBack_eq_entries fun e he => ?_).symm⟩
    exact hothers e.1 e.2 (packages.get?_eq_some_iff.mpr he) (by simp)
  | cons p rest ih =>
    obtain ⟨first, hfirst, hsame, hsettled, hrest⟩ := rollbackPackage_spec packages (hsome p)
    have hsome' : ∀ q a, first.get? q = some a → a.smallestLevel ≤ l → (a.rollback l).isSome := by
      intro q a ha hsmall
      by_cases hq : q = p
      · subst hq
        have hset := hsettled a ha
        unfold Settled rollbackEntry at hset
        rw [if_neg (by dsimp only; omega)] at hset
        obtain ⟨b, hb, -⟩ := Option.map_eq_some_iff.mp hset
        exact Option.isSome_iff_exists.mpr ⟨b, hb⟩
      · exact hsome q a (hrest q hq ▸ ha) hsmall
    have hothers' : ∀ q a, first.get? q = some a → q ∉ rest → Settled l (q, a) := by
      intro q a ha hmem
      by_cases hq : q = p
      · exact hq ▸ hsettled a (hq ▸ ha)
      · exact hothers q a (hrest q hq ▸ ha) (by simp [hq, hmem])
    obtain ⟨packages', hok, hentries⟩ := ih first hsome' hothers'
    refine ⟨packages', ?_, hentries.trans hsame⟩
    rw [List.foldlM_cons, hfirst]
    exact hok

/-! ## Along the trail -/

variable [VersionSet S V] {s s' : PartialSolution P V S} {t : List (Assignment P V S)}

theorem rolledBack_derive {p : P} {u : Term S} {c l : Nat} (hs : s.derive p u c = .ok s')
    (hl : l < s.level) : rolledBack l s'.packages = rolledBack l s.packages := by
  obtain ⟨-, _, _, -, rfl⟩ := derive_eq_ok_iff.mp hs
  dsimp only
  cases hget : s.packages.get? p with
  | none => exact rolledBack_insert_of_none hget (if_pos hl)
  | some a =>
    refine rolledBack_insert_of_eq hget ?_
    unfold rollbackEntry
    rw [rollback_derive p u c s.nextIndex hl]
    rfl

theorem rolledBack_decide {p : P} {v : V} {l : Nat} (hs : s.decide p v = .ok s') (hl : l ≤ s.level) :
    rolledBack l s'.packages = rolledBack l s.packages := by
  obtain ⟨a, hget, hnone, -, -, rfl⟩ := decide_eq_ok_iff.mp hs
  refine rolledBack_insert_of_eq hget ?_
  unfold rollbackEntry
  rw [rollback_decide _ hnone (Nat.lt_succ_of_le hl)]

namespace Trail

theorem pairwise_derivations (h : Trail s t) {p : P} {a : PackageAssignments P V S}
    (hp : s.packages.get? p = some a) :
    a.derivations.toList.Pairwise fun d e => d.index < e.index ∧ d.level ≤ e.level := by
  have hpair : a.assignments.Pairwise Assignment.Precedes := by
    rw [(h.records hp).assignments]
    exact h.ordered.filter _
  rw [PackageAssignments.assignments, List.pairwise_append, List.pairwise_map] at hpair
  exact hpair.1.imp fun {d e} h' => ⟨h'.1, h'.2.1⟩

theorem mem_derivation_iff (h : Trail s t) {p : P} {a : PackageAssignments P V S}
    (hp : s.packages.get? p = some a) {d : Derivation P S} :
    d ∈ a.derivations.toList ↔ .derivation d ∈ t ∧ d.package = p := by
  have hiff := h.mem_assignments_iff hp (b := .derivation d)
  rw [PackageAssignments.assignments] at hiff
  simpa [Assignment.package] using hiff

/-- A package that was first assigned at a level or below it has a derivation to go back to. -/
theorem isSome_rollback (h : Trail s t) {p : P} {a : PackageAssignments P V S} {l : Nat}
    (hp : s.packages.get? p = some a) (hl : a.smallestLevel ≤ l) : (a.rollback l).isSome := by
  have hrec := h.records hp
  have hne := hrec.derived.ne_nil
  obtain ⟨d, ds, hds⟩ := List.exists_cons_of_ne_nil hne
  have hd : d.level ≤ l := by
    have hsmall := hrec.smallestLevel d (by rw [hds]; rfl)
    omega
  have hpop : (a.derivations.popWhile fun d => l < d.level) ≠ #[] := by
    intro hnil
    have harr : a.derivations = (d :: ds).toArray := by rw [← hds]
    rw [harr, List.popWhile_toArray] at hnil
    have hdrop : ((d :: ds).reverse.dropWhile fun d => l < d.level) = [] := by
      simpa using congrArg Array.toList hnil
    rw [List.dropWhile_eq_nil_iff] at hdrop
    have hlt := hdrop d (by simp)
    rw [decide_eq_true_eq] at hlt
    omega
  rw [rollback, Option.isSome_map, Array.back?_isSome]
  exact hpop

theorem settled (h : Trail s t) {p : P} {a : PackageAssignments P V S} {l : Nat}
    (hp : s.packages.get? p = some a) (hl : ∀ b ∈ t, b.package = p → b.level ≤ l) :
    Settled l (p, a) := by
  have hrec := h.records hp
  have hhighest := hrec.highestLevel
  obtain ⟨d, ds, hds⟩ := List.exists_cons_of_ne_nil hrec.derived.ne_nil
  have hderiv : ∀ d ∈ a.derivations.toList, d.level ≤ l := fun d hd =>
    hl _ ((h.mem_derivation_iff hp).mp hd).1 ((h.mem_derivation_iff hp).mp hd).2
  have hdecision : a.decision.filter (fun d => d.level ≤ l) = a.decision := by
    cases hdec : a.decision with
    | none => rfl
    | some d =>
      have hmem : Assignment.decision d ∈ a.assignments := by
        simp [PackageAssignments.assignments, hdec]
      obtain ⟨ht, hpack⟩ := (h.mem_assignments_iff hp).mp hmem
      have hle := hl _ ht hpack
      simp only [Assignment.level] at hle
      simp [Option.filter, hle]
  have hpop : (a.derivations.popWhile fun d => l < d.level) = a.derivations := by
    refine popWhile_eq_self fun d hd => ?_
    have hle := hderiv d (by simpa using Array.mem_of_back? hd)
    simpa using hle
  obtain ⟨last, hlast, hacc⟩ := hrec.derived.getLast
  have hback : a.derivations.back? = some last := by
    rw [← hlast, Array.getLast?_toList]
  have hsmall : ¬ l < a.smallestLevel := by
    have hle := hderiv d (by rw [hds]; simp)
    have heq := hrec.smallestLevel d (by rw [hds]; rfl)
    omega
  have hroll : a.rollback l = some a := by
    simp only [rollback, hpop, hdecision, hback, Option.map_some, Option.some.injEq]
    rw [hback] at hhighest
    obtain ⟨_, _, _, _, _⟩ := a
    simp only [Option.map_some, Option.getD_some] at hhighest hacc ⊢
    rw [← hhighest, hacc]
  simp [Settled, rollbackEntry, hsmall, hroll]

theorem rolledBack_eq_entries (h : Trail s t) :
    rolledBack s.level s.packages = s.packages.entries := by
  refine PartialSolution.rolledBack_eq_entries fun e he => ?_
  exact h.settled (s.packages.get?_eq_some_iff.mpr he) fun b hb _ => h.level_le b hb

/-- The trail up to a level has a partial solution of its own, and it is what rolling back leaves. -/
theorem exists_rolledBack (h : Trail s t) {l : Nat} (hl : l ≤ s.level) :
    ∃ s₀, Trail s₀ (upTo l t) ∧ s₀.level = l ∧ s₀.nextIndex ≤ s.nextIndex ∧
      rolledBack l s.packages = s₀.packages.entries ∧ s.touched.drop (s.level - l) = s₀.touched := by
  have htop : ∀ {s : PartialSolution P V S} {t : List (Assignment P V S)}, Trail s t → l = s.level →
      ∃ s₀, Trail s₀ (upTo l t) ∧ s₀.level = l ∧ s₀.nextIndex ≤ s.nextIndex ∧
        rolledBack l s.packages = s₀.packages.entries ∧ s.touched.drop (s.level - l) = s₀.touched := by
    rintro s t h rfl
    refine ⟨s, ?_, rfl, le_rfl, h.rolledBack_eq_entries, by rw [Nat.sub_self, List.drop_zero]⟩
    rwa [h.upTo_eq_self le_rfl]
  -- over the trail; an assignment above the level changes neither side
  induction h with
  | empty =>
    exact htop .empty (Nat.le_zero.mp hl)
  | skip h n hn ih =>
    obtain ⟨s₀, h₀, hlevel, hindex, hpackages, htouched⟩ := ih hl
    exact ⟨s₀, h₀, hlevel, le_trans hindex hn, hpackages, htouched⟩
  | @derive s s' t p u c h hs ih =>
    obtain ⟨-, current, below, hcurrent, hs'⟩ := derive_eq_ok_iff.mp hs
    have hlevel' : s'.level = s.level := by rw [hs']
    rw [hlevel'] at hl
    by_cases heq : l = s.level
    · exact htop (h.derive hs) (heq.trans hlevel'.symm)
    · have hlt : l < s.level := lt_of_le_of_ne hl heq
      obtain ⟨s₀, h₀, hlevel, hindex, hpackages, htouched⟩ := ih hl
      refine ⟨s₀, ?_, hlevel, by rw [hs']; exact Nat.le_succ_of_le hindex,
        (rolledBack_derive hs hlt).trans hpackages, ?_⟩
      · rw [upTo_append_of_lt hlt]
        exact h₀
      · rw [← htouched, hs', hcurrent]
        obtain ⟨k, hk⟩ : ∃ k, s.level - l = k + 1 := ⟨s.level - l - 1, by omega⟩
        dsimp only
        rw [hk]
        rfl
  | @decide s s' t p v h hs ih =>
    obtain ⟨a, -, -, -, -, hs'⟩ := decide_eq_ok_iff.mp hs
    have hlevel' : s'.level = s.level + 1 := by rw [hs']
    rw [hlevel'] at hl
    by_cases heq : l = s.level + 1
    · exact htop (h.decide hs) (heq.trans hlevel'.symm)
    · have hle : l ≤ s.level := by omega
      obtain ⟨s₀, h₀, hlevel, hindex, hpackages, htouched⟩ := ih hle
      refine ⟨s₀, ?_, hlevel, by rw [hs']; exact Nat.le_succ_of_le hindex,
        (rolledBack_decide hs hle).trans hpackages, ?_⟩
      · rw [upTo_append_of_lt (Nat.lt_succ_of_le hle)]
        exact h₀
      · rw [← htouched, hs']
        dsimp only
        rw [show s.level + 1 - l = (s.level - l) + 1 by omega]
        rfl

theorem mem_touchedAbove (h : Trail s t) {l : Nat} {a : Assignment P V S} (ha : a ∈ t)
    (hl : l < a.level) : a.package ∈ s.touchedAbove l := by
  have hinsert : ∀ (ps : List P) (p : P), p ∈ ps.foldr List.insert [] ↔ p ∈ ps := by
    intro ps p
    induction ps with
    | nil => simp
    | cons q rest ih => simp [List.mem_insert_iff, ih]
  obtain ⟨ps, hps, hmem⟩ := h.mem_touched a ha
  have hle := h.level_le a ha
  rw [touchedAbove, hinsert, List.mem_flatten]
  refine ⟨ps, List.mem_of_getElem? (i := s.level - a.level) ?_, hmem⟩
  rw [List.getElem?_take_of_lt (by omega)]
  exact hps

/-- Going back to a level of the trail cuts the trail at the level. -/
theorem backtrack (h : Trail s t) {l : Nat} (hl : l ≤ s.level) :
    ∃ s', s.backtrack l = .ok s' ∧ Trail s' (upTo l t) ∧ s'.level = l ∧
      s'.nextIndex = s.nextIndex := by
  obtain ⟨s₀, h₀, hlevel, hindex, hpackages, htouched⟩ := h.exists_rolledBack hl
  obtain ⟨packages, hok, hentries⟩ := foldlM_rollbackPackage (s.touchedAbove l) s.packages
    (fun p a hp hsmall => h.isSome_rollback hp hsmall)
    (fun p a hp hmem => h.settled hp fun b hb hpack => by
      by_contra hc
      exact hmem (hpack ▸ h.mem_touchedAbove hb (not_le.mp hc)))
  refine ⟨{ s₀ with nextIndex := s.nextIndex }, ?_, h₀.skip _ hindex, hlevel, rfl⟩
  have hsame : packages = s₀.packages := OrderedMap.eq_of_entries (hentries.trans hpackages)
  have hbounds : ¬ ((l : Int) < 0 ∨ (s.level : Int) < (l : Int)) := by omega
  unfold PartialSolution.backtrack
  rw [if_neg hbounds]
  dsimp only
  rw [Int.toNat_natCast, hok, hsame, htouched, ← hlevel]
  rfl

end Trail

end PartialSolution

end DependencyResolution
