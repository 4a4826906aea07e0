import DependencyResolution.Proofs.Explanation.Sharing
import DependencyResolution.Proofs.Explanation.Stack
import DependencyResolution.Version.Ranges.Basic
import Mathlib.Data.List.NodupEquivFin
import Mathlib.Data.Set.Function

/-!
# Explanations reproduce derivations

The explanation of a stored incompatibility has one node for everything that this one rests on, with the causes
of the node in their order, and numbers on the derived nodes that two edges lead to (`Store.Reproduces`). A
cause that an incompatibility has twice has two edges.

It can be built in two passes with a stack. The first counts the edges that lead to each incompatibility
(`Tally.exists_finished`), the second makes the nodes (`Store.exists_build_finished`). Both end, and what they
build reproduces the derivation as well (`Explanation.ofStore_reproduces`).
-/

namespace DependencyResolution

variable {P V S M : Type}

/-! ## Edges -/

section edges

variable {f : Nat → List Nat} {n : Nat}

theorem one_lt_count_iff {l : List Nat} :
    1 < l.count n ↔ ∃ i j : Nat, i ≠ j ∧ l[i]? = some n ∧ l[j]? = some n := by
  rw [← Nat.succ_le_iff, ← List.duplicate_iff_two_le_count, List.duplicate_iff_exists_distinct_get]
  constructor
  · rintro ⟨i, j, hlt, hi, hj⟩
    exact ⟨i, j, (Fin.val_fin_lt.mpr hlt).ne, by simp [hi], by simp [hj]⟩
  · rintro ⟨i, j, hne, hi, hj⟩
    obtain ⟨hil, hi⟩ := List.getElem?_eq_some_iff.mp hi
    obtain ⟨hjl, hj⟩ := List.getElem?_eq_some_iff.mp hj
    rcases Nat.lt_or_gt_of_ne hne with hlt | hlt
    · exact ⟨⟨i, hil⟩, ⟨j, hjl⟩, hlt, hi.symm, hj.symm⟩
    · exact ⟨⟨j, hjl⟩, ⟨i, hil⟩, hlt, hj.symm, hi.symm⟩

theorem one_lt_count_flatMap_iff {l : List Nat} (hl : l.Nodup) :
    1 < (l.flatMap f).count n ↔ ∃ a b : Nat × Nat, a ≠ b ∧ (a.1 ∈ l ∧ (f a.1)[a.2]? = some n) ∧
      b.1 ∈ l ∧ (f b.1)[b.2]? = some n := by
  induction l with
  | nil => simp
  | cons m l ih =>
    rw [List.nodup_cons] at hl
    rw [List.flatMap_cons, List.count_append]
    have hpos : ∀ {b j : Nat}, b ∈ l → (f b)[j]? = some n → 0 < (l.flatMap f).count n := fun hb hj =>
      List.count_pos_iff.mpr (List.mem_flatMap.mpr ⟨_, hb, List.mem_of_getElem? hj⟩)
    have hpos' : ∀ {i : Nat}, (f m)[i]? = some n → 0 < (f m).count n := fun hi =>
      List.count_pos_iff.mpr (List.mem_of_getElem? hi)
    constructor
    · intro h
      obtain h | h | ⟨h, h'⟩ : 1 < (f m).count n ∨ 1 < (l.flatMap f).count n ∨
          0 < (f m).count n ∧ 0 < (l.flatMap f).count n := by omega
      · obtain ⟨i, j, hne, hi, hj⟩ := one_lt_count_iff.mp h
        exact ⟨(m, i), (m, j), by simpa using hne, ⟨List.mem_cons_self, hi⟩, List.mem_cons_self, hj⟩
      · obtain ⟨a, b, hne, ⟨ha, hi⟩, hb, hj⟩ := (ih hl.2).mp h
        exact ⟨a, b, hne, ⟨List.mem_cons_of_mem _ ha, hi⟩, List.mem_cons_of_mem _ hb, hj⟩
      · obtain ⟨i, hi⟩ := List.mem_iff_getElem?.mp (List.count_pos_iff.mp h)
        obtain ⟨b, hb, hnb⟩ := List.mem_flatMap.mp (List.count_pos_iff.mp h')
        obtain ⟨j, hj⟩ := List.mem_iff_getElem?.mp hnb
        refine ⟨(m, i), (b, j), ?_, ⟨List.mem_cons_self, hi⟩, List.mem_cons_of_mem _ hb, hj⟩
        rintro heq
        cases heq
        exact hl.1 hb
    · rintro ⟨⟨a, i⟩, ⟨b, j⟩, hne, ⟨ha, hi⟩, hb, hj⟩
      rcases List.mem_cons.mp ha with rfl | hal
      · rcases List.mem_cons.mp hb with rfl | hbl
        · have htwice := one_lt_count_iff.mpr ⟨i, j, by rintro rfl; exact hne rfl, hi, hj⟩
          omega
        · have := hpos hbl hj
          have := hpos' hi
          omega
      · rcases List.mem_cons.mp hb with rfl | hbl
        · have := hpos hal hi
          have := hpos' hj
          omega
        · have htwice := (ih hl.2).mpr ⟨(a, i), (b, j), hne, ⟨hal, hi⟩, hbl, hj⟩
          omega

end edges

namespace Store

variable {s : Store P V S M} {id n : Nat}

/-- An edge to the incompatibility `n`: the number of one that `id` rests on, and the place of `n` among its
causes. -/
def IsEdge (s : Store P V S M) (id n : Nat) (edge : Nat × Nat) : Prop :=
  s.RestsOn id edge.1 ∧ (s.causesOf edge.1)[edge.2]? = some n

def CitedTwice (s : Store P V S M) (id n : Nat) : Prop :=
  ∃ a b, a ≠ b ∧ s.IsEdge id n a ∧ s.IsEdge id n b

/-- What stands for an incompatibility in some nodes. -/
inductive Shows (s : Store P V S M) (id : Nat) (nodes : Array (Node P V S M)) (place : Nat → Nat) (n : Nat) :
    Prop
  | fact {terms : OrderedMap P (Term S)} {f : Fact P V S M} (hi : s.get? n = some ⟨terms, .fact f⟩)
      (hn : nodes[place n]? = some (.fact f))
  | derived {terms : OrderedMap P (Term S)} {first second : Nat} {shared : Option Nat}
      (hi : s.get? n = some ⟨terms, .derived first second⟩)
      (hshared : s.CitedTwice id n ∧ shared = some n ∨ ¬ s.CitedTwice id n ∧ shared = none)
      (hn : nodes[place n]? = some (.derived terms shared (place first) (place second)))

/-- An explanation reproduces the derivation of an incompatibility: `place` gives the place of the node for
everything that this one rests on. -/
structure Reproduces (s : Store P V S M) (id : Nat) (e : Explanation P V S M) (place : Nat → Nat) : Prop where
  root : e.root = place id
  places : Set.BijOn place {n | s.RestsOn id n} {k | e.RestsOn e.root k}
  rests : ∀ k, e.RestsOn e.root k ↔ k < e.nodes.size
  shows : ∀ n, s.RestsOn id n → s.Shows id e.nodes place n

theorem citedTwice_iff {l : List Nat} (hl : l.Nodup) (hmem : ∀ m, m ∈ l ↔ s.RestsOn id m) :
    s.CitedTwice id n ↔ 1 < (l.flatMap s.causesOf).count n := by
  rw [one_lt_count_flatMap_iff hl]
  simp only [CitedTwice, IsEdge, hmem]

theorem causesOf_of_fact {terms : OrderedMap P (Term S)} {f : Fact P V S M}
    (h : s.get? n = some ⟨terms, .fact f⟩) : s.causesOf n = [] := by
  rw [causesOf, h]

theorem causesOf_of_derived {terms : OrderedMap P (Term S)} {first second : Nat}
    (h : s.get? n = some ⟨terms, .derived first second⟩) : s.causesOf n = [first, second] := by
  rw [causesOf, h]

theorem forall_causesOf_lt_iff :
    (∀ n, ∀ c ∈ s.causesOf n, c < n) ↔ ∀ n < s.size, ∀ c ∈ s.causesOf n, c < n := by
  refine ⟨fun h n _ => h n, fun h n c hc => ?_⟩
  by_cases hn : n < s.size
  · exact h n hn c hc
  · have hnone : s.get? n = none := Array.getElem?_eq_none (not_lt.mp hn)
    rw [causesOf, hnone] at hc
    cases hc

section reproduces

variable {e : Explanation P V S M} {place : Nat → Nat}

theorem Shows.causesAt (h : s.Shows id e.nodes place n) : e.causesAt (place n) = (s.causesOf n).map place := by
  cases h with
  | fact hi hn =>
    rw [Explanation.causesAt, hn, causesOf_of_fact hi]
    rfl
  | derived hi hshared hn =>
    rw [Explanation.causesAt, hn, causesOf_of_derived hi]
    rfl

/-- It is enough that there are as many nodes, which show what they should. -/
theorem Reproduces.of_bijOn (hroot : e.root = place id)
    (hplace : Set.BijOn place {n | s.RestsOn id n} {k | k < e.nodes.size})
    (hshows : ∀ n, s.RestsOn id n → s.Shows id e.nodes place n) : s.Reproduces id e place := by
  have hrests : ∀ k, e.RestsOn e.root k ↔ k < e.nodes.size := by
    intro k
    constructor
    · intro hk
      suffices hplaced : ∃ n, s.RestsOn id n ∧ place n = k by
        obtain ⟨n, hn, rfl⟩ := hplaced
        exact hplace.mapsTo hn
      induction hk with
      | refl => exact ⟨id, .refl, hroot.symm⟩
      | tail _ hc ih =>
        obtain ⟨n, hn, rfl⟩ := ih
        rw [(hshows n hn).causesAt, List.mem_map] at hc
        obtain ⟨c, hc, rfl⟩ := hc
        exact ⟨c, hn.tail hc, rfl⟩
    · intro hk
      obtain ⟨n, hn, rfl⟩ := hplace.surjOn hk
      rw [Set.mem_ofPred_eq] at hn
      induction hn with
      | refl => exact hroot ▸ .refl
      | @tail m c hm hc ih =>
        refine (ih (hplace.mapsTo hm)).tail ?_
        rw [(hshows m hm).causesAt]
        exact List.mem_map_of_mem hc
  refine ⟨hroot, ?_, hrests, hshows⟩
  simpa only [hrests] using hplace

end reproduces

end Store

/-! ## Counting edges -/

/-- The count of the edges that lead to each incompatibility, in progress. -/
structure Tally where
  /-- The numbers to visit, the next one first. -/
  stack : List Nat
  visited : List Nat
  /-- How often what has been visited has each number as a cause. -/
  references : OrderedMap Nat Nat

namespace Tally

variable {s : Store P V S M} {t t' : Tally} {id k c : Nat} {rest : List Nat}

def start (id : Nat) : Tally := ⟨[id], [], .empty⟩

def timesReferred (references : OrderedMap Nat Nat) (id : Nat) : Nat := (references.get? id).getD 0

def count (references : OrderedMap Nat Nat) (id : Nat) : OrderedMap Nat Nat :=
  references.insert id (timesReferred references id + 1)

def step (s : Store P V S M) (t : Tally) : Tally :=
  match t.stack with
  | [] => t
  | id :: rest =>
    if id ∈ t.visited then { t with stack := rest }
    else ⟨(s.causesOf id).reverse ++ rest, id :: t.visited, (s.causesOf id).foldl count t.references⟩

/-- Whether a number is that of a derived incompatibility that was referred to more than once. -/
def marks (s : Store P V S M) (t : Tally) (id : Nat) : Bool :=
  match s.get? id with
  | some ⟨_, .derived ..⟩ => 1 < timesReferred t.references id
  | _ => false

theorem timesReferred_count (references : OrderedMap Nat Nat) (a c : Nat) :
    timesReferred (count references a) c = timesReferred references c + [a].count c := by
  rw [timesReferred, count, OrderedMap.get?_insert, List.count_singleton]
  by_cases h : a = c
  · subst h
    simp
  · rw [if_neg h, if_neg (by simpa using h), Nat.add_zero, timesReferred]

theorem timesReferred_foldl_count (l : List Nat) (references : OrderedMap Nat Nat) (c : Nat) :
    timesReferred (l.foldl count references) c = timesReferred references c + l.count c := by
  induction l generalizing references with
  | nil => rfl
  | cons a l ih =>
    rw [List.foldl_cons, ih, timesReferred_count, Nat.add_assoc, ← List.count_append, List.singleton_append]

/-- Each number is visited once, and the edges from what has been visited are counted. -/
structure Counts (s : Store P V S M) (t : Tally) : Prop where
  nodup : t.visited.Nodup
  counts : ∀ c, timesReferred t.references c = (t.visited.flatMap s.causesOf).count c

/-- What working off numbers from the stack achieves; the causes of what has been visited meanwhile have been
visited too. -/
structure Visits (s : Store P V S M) (ks : List Nat) (t t' : Tally) : Prop
    extends WorksOff s.causesOf ks (· ∈ t.visited) (· ∈ t'.visited) where
  causes : ∀ k ∈ t'.visited, k ∈ t.visited ∨ ∀ c ∈ s.causesOf k, c ∈ t'.visited

theorem Visits.cons {ks : List Nat} {t'' : Tally} (h : Visits s [k] t t') (h' : Visits s ks t' t'') :
    Visits s (k :: ks) t t'' where
  toWorksOff := h.toWorksOff.cons h'.toWorksOff
  causes a ha := by
    rcases h'.causes a ha with ha | hcauses
    · exact (h.causes a ha).imp_right fun hcauses c hc => h'.mono c (hcauses c hc)
    · exact Or.inr hcauses

theorem Counts.step (h : Counts s t) : Counts s (step s t) := by
  unfold Tally.step
  split
  · exact h
  · split_ifs with hk
    · exact ⟨h.nodup, h.counts⟩
    · refine ⟨List.nodup_cons.mpr ⟨hk, h.nodup⟩, fun c => ?_⟩
      rw [timesReferred_foldl_count, h.counts, List.flatMap_cons, List.count_append, Nat.add_comm]

theorem exists_iterate_step (hlt : ∀ n, ∀ c ∈ s.causesOf n, c < n) (k : Nat) (t : Tally) (rest : List Nat)
    (ht : Counts s t) (hstack : t.stack = k :: rest) :
    ∃ n, Counts s ((step s)^[n] t) ∧ ((step s)^[n] t).stack = rest ∧ Visits s [k] t ((step s)^[n] t) := by
  -- causes have smaller numbers
  induction k using Nat.strong_induction_on generalizing t rest with
  | _ k ih =>
    by_cases hk : k ∈ t.visited
    · have hstep : step s t = { t with stack := rest } := by simp only [step, hstack, if_pos hk]
      refine ⟨1, ht.step, by rw [Function.iterate_one, hstep], ?_⟩
      rw [Function.iterate_one, hstep]
      exact ⟨.of_done hk, fun _ h => Or.inl h⟩
    have hstep : step s t =
        ⟨(s.causesOf k).reverse ++ rest, k :: t.visited, (s.causesOf k).foldl count t.references⟩ := by
      simp only [step, hstack, if_neg hk]
    obtain ⟨n, hn, hnstack, hnvisits⟩ := exists_iterate_of_forall_mem (step s) stack (Counts s) (Visits s)
      (fun _ => ⟨.nil _, fun _ h => Or.inl h⟩) (fun _ _ _ _ _ => Visits.cons)
      (fun c hc t rest ht => ih c (hlt k c (List.mem_reverse.mp hc)) t rest ht) ht.step (congrArg stack hstep)
    rw [← Function.iterate_succ_apply] at hn hnstack hnvisits
    obtain ⟨hworks, hcauses⟩ := hnvisits
    simp only [hstep, List.mem_cons] at hworks hcauses
    refine ⟨n + 1, hn, hnstack, hworks.before_needs fun a ha => List.mem_reverse.mp ha, fun a ha => ?_⟩
    rcases hcauses a ha with (rfl | ha) | hcauses
    · exact Or.inr fun c hc => hworks.all c (List.mem_reverse.mpr hc)
    · exact Or.inl ha
    · exact Or.inr hcauses

/-- Counting ends, and has visited what the first number rests on. -/
theorem exists_finished (hlt : ∀ n, ∀ c ∈ s.causesOf n, c < n) (id : Nat) :
    ∃ n t, (step s)^[n] (start id) = t ∧ t.stack = [] ∧ Counts s t ∧ ∀ m, m ∈ t.visited ↔ s.RestsOn id m := by
  obtain ⟨n, hcounts, hstack, hvisits⟩ := exists_iterate_step hlt id (start id) [] ⟨.nil, fun _ => rfl⟩ rfl
  refine ⟨n, _, rfl, hstack, hcounts, fun m => hvisits.iff_reaches (fun _ => List.not_mem_nil) fun k hk => ?_⟩
  exact (hvisits.causes k hk).resolve_left List.not_mem_nil

/-- What is marked in the end is what is derived and what two edges lead to. -/
theorem marks_iff {terms : OrderedMap P (Term S)} {first second : Nat} (h : Counts s t)
    (hvisited : ∀ m, m ∈ t.visited ↔ s.RestsOn id m) (hk : s.get? k = some ⟨terms, .derived first second⟩) :
    t.marks s k = true ↔ s.CitedTwice id k := by
  rw [Store.citedTwice_iff h.nodup hvisited, ← h.counts]
  simp only [marks, hk, decide_eq_true_eq]

end Tally

/-! ## Making the nodes -/

namespace Store

section build

variable {s : Store P V S M} {id n : Nat} {marked : Nat → Bool} {nodes nodes' : Array (Node P V S M)}
  {settled : OrderedMap Nat Nat}

/-- Making the node of one incompatibility after those of its causes, with its number if it is marked. -/
def buildTask (s : Store P V S M) (marked : Nat → Bool) : Pass.Task P V S M where
  needs := s.causesOf
  settle nodes image n :=
    match s.get? n with
    | some ⟨_, .fact f⟩ => Pass.push nodes (.fact f)
    | some ⟨terms, .derived first second⟩ =>
      Pass.push nodes (.derived terms (if marked n then some n else none) (image first) (image second))
    | none => (nodes, n)

theorem local_shows : Pass.Local (s.buildTask marked) (s.Shows id) := by
  intro nodes nodes' image image' n hextends himage h
  rw [List.forall_mem_cons] at himage
  obtain ⟨hn, hneeds⟩ := himage
  cases h with
  | fact hi hf => exact .fact hi (by rw [hn]; exact hextends _ _ hf)
  | derived hi hshared hd =>
    have hcauses := hneeds
    simp only [buildTask, causesOf_of_derived hi] at hcauses
    rw [List.forall_mem_cons, List.forall_mem_singleton] at hcauses
    refine .derived hi hshared ?_
    rw [hn, hcauses.1, hcauses.2]
    exact hextends _ _ hd

/-- What is settled is shown by its node, and there are no other nodes. -/
structure BuildsSettled (s : Store P V S M) (id : Nat) (nodes : Array (Node P V S M))
    (settled : OrderedMap Nat Nat) : Prop where
  shows : ∀ n, settled.contains n = true → s.Shows id nodes (Pass.imageIn settled) n
  places : Set.BijOn (Pass.imageIn settled) {n | settled.contains n = true} {k | k < nodes.size}

theorem bijOn_insert (h : Set.BijOn (Pass.imageIn settled) {n | settled.contains n = true} {k | k < nodes.size})
    (hn : settled.contains n = false) (node : Node P V S M) :
    Set.BijOn (Pass.imageIn (settled.insert n nodes.size)) {m | (settled.insert n nodes.size).contains m = true}
      {k | k < (nodes.push node).size} := by
  have hself : Pass.imageIn (settled.insert n nodes.size) n = nodes.size := Pass.imageIn_insert_self
  have hsame : Set.EqOn (Pass.imageIn settled) (Pass.imageIn (settled.insert n nodes.size))
      {n | settled.contains n = true} := by
    intro m hm
    refine (Pass.imageIn_insert_of_ne ?_).symm
    rintro rfl
    exact absurd hm (by simp [hn])
  have hnumbers : {m | (settled.insert n nodes.size).contains m = true} =
      insert n {m | settled.contains m = true} := Set.ext fun m => Pass.contains_insert
  have hplaces : {k | k < (nodes.push node).size} =
      insert (Pass.imageIn (settled.insert n nodes.size) n) {k | k < nodes.size} := by
    rw [hself]
    refine Set.ext fun k => ?_
    rw [Set.mem_insert_iff, Set.mem_ofPred_eq, Set.mem_ofPred_eq, Array.size_push]
    omega
  rw [hnumbers, hplaces]
  refine (h.congr hsame).insert ?_
  rw [hself]
  exact fun hlt => absurd hlt (lt_irrefl nodes.size)

theorem keptBy_buildTask (hmarked : ∀ n terms first second, s.get? n = some ⟨terms, .derived first second⟩ →
      (marked n = true ↔ s.CitedTwice id n)) :
    Pass.KeptBy (s.buildTask marked) s.size (s.BuildsSettled id) := by
  rintro nodes settled n hn ⟨hshows, hplaces⟩ hclosed hready
  suffices hspec : ∃ node, (s.buildTask marked).settle nodes (Pass.imageIn settled) n = Pass.push nodes node ∧
      s.Shows id (nodes.push node) (Pass.imageIn (settled.insert n nodes.size)) n by
    obtain ⟨node, hsettle, hnew⟩ := hspec
    rw [hsettle]
    exact ⟨local_shows.insert hshows hclosed hready (Pass.extends_push nodes node) hnew,
      bijOn_insert hplaces hready.1 node⟩
  obtain ⟨⟨terms, cause⟩, hi⟩ : ∃ i, s.get? n = some i := ⟨_, Array.getElem?_eq_getElem hn⟩
  cases cause with
  | fact f =>
    refine ⟨.fact f, by simp only [buildTask, hi], .fact hi ?_⟩
    rw [Pass.imageIn_insert_self]
    exact Array.getElem?_push_size
  | derived first second =>
    have himage : ∀ c ∈ s.causesOf n,
        Pass.imageIn (settled.insert n nodes.size) c = Pass.imageIn settled c :=
      fun c hc => hready.imageIn_insert hc
    rw [causesOf_of_derived hi, List.forall_mem_cons, List.forall_mem_singleton] at himage
    have hshared : s.CitedTwice id n ∧ (if marked n then some n else none) = some n ∨
        ¬ s.CitedTwice id n ∧ (if marked n then some n else none) = none := by
      have hiff := hmarked n terms first second hi
      split_ifs with hm
      · exact Or.inl ⟨hiff.mp hm, rfl⟩
      · exact Or.inr ⟨mt hiff.mpr hm, rfl⟩
    have hsettle : (s.buildTask marked).settle nodes (Pass.imageIn settled) n =
        Pass.push nodes (.derived terms (if marked n then some n else none) (Pass.imageIn settled first)
          (Pass.imageIn settled second)) := by
      simp only [buildTask, hi]
    refine ⟨_, hsettle, .derived hi hshared ?_⟩
    rw [Pass.imageIn_insert_self, himage.1, himage.2]
    exact Array.getElem?_push_size

/-- Making the nodes with a stack ends, and reproduces the derivation. -/
theorem exists_build_finished (hlt : ∀ n, ∀ c ∈ s.causesOf n, c < n) (hid : id < s.size)
    (hmarked : ∀ n terms first second, s.get? n = some ⟨terms, .derived first second⟩ →
      (marked n = true ↔ s.CitedTwice id n)) :
    ∃ n p, (Pass.step (s.buildTask marked))^[n] (Pass.start #[] id) = p ∧ p.stack = [] ∧
      s.Reproduces id ⟨p.nodes, p.imageOf id⟩ p.imageOf := by
  have hstart : s.BuildsSettled id #[] .empty := by
    have hnone : ∀ n, ¬ (OrderedMap.empty : OrderedMap Nat Nat).contains n = true := fun _ => Bool.false_ne_true
    exact ⟨fun n hn => absurd hn (hnone n), fun n hn => absurd hn (hnone n), fun n hn => absurd hn (hnone n),
      fun k hk => absurd hk (Nat.not_lt_zero k)⟩
  obtain ⟨n, p, hp, hstack, ⟨hshows, hplaces⟩, hsettled⟩ :=
    Pass.exists_finished hlt (keptBy_buildTask hmarked) hid hstart
  refine ⟨n, p, hp, hstack, .of_bijOn rfl ?_ fun n hn => hshows n ((hsettled n).mpr hn)⟩
  rwa [show {n | p.settled.contains n = true} = {n | s.RestsOn id n} from Set.ext hsettled] at hplaces

end build

end Store

/-! ## Both ways -/

namespace Explanation

section ofStore

variable {s : Store P V S M} {id : Nat}

theorem size_ofStore (hlt : ∀ n, ∀ c ∈ s.causesOf n, c < n) (hid : id < s.size) :
    (ofStore s id).nodes.size = (s.support id).length := by
  obtain ⟨pile, hpile, hpiled, -⟩ := Store.exists_piled hlt hid
  rw [ofStore, List.size_toArray, List.filterMap_length_eq_length]
  intro n hn
  have hn : n < s.arena.size := hpiled.lt_size (List.mem_reverse.mp (hpile ▸ hn))
  simp [Store.get?, hn]

/-- The nodes of an explanation reproduce the derivation, each at the place of what it shows. -/
theorem exists_reproduces_ofStore (hlt : ∀ n, ∀ c ∈ s.causesOf n, c < n) (hid : id < s.size) :
    ∃ place, s.Reproduces id (ofStore s id) place := by
  obtain ⟨pile, hpile, hpiled, -⟩ := Store.exists_piled hlt hid
  have hnodup : (s.support id).Nodup := hpile ▸ List.nodup_reverse.mpr hpiled.nodup
  have hmem : ∀ n, n ∈ s.support id ↔ s.RestsOn id n := fun n =>
    ⟨Store.restsOn_of_mem_support, Store.mem_support_of_restsOn hlt hid⟩
  have hshows : ∀ n, s.RestsOn id n → s.Shows id (ofStore s id).nodes (s.support id).idxOf n := by
    intro n hn
    have hget := getElem?_idxOf hlt hid ((hmem n).mpr hn)
    obtain ⟨⟨terms, cause⟩, hi⟩ : ∃ i, s.get? n = some i :=
      ⟨_, Array.getElem?_eq_getElem (hpiled.lt_size (List.mem_reverse.mp (hpile ▸ (hmem n).mpr hn)))⟩
    rw [hi, Option.map_some] at hget
    cases cause with
    | fact f => exact .fact hi hget
    | derived first second =>
      refine .derived hi ?_ hget
      have hiff := s.citedTwice_iff (n := n) hnodup hmem
      split_ifs with htwice
      · exact Or.inl ⟨hiff.mpr htwice, rfl⟩
      · exact Or.inr ⟨mt hiff.mp htwice, rfl⟩
  refine ⟨(s.support id).idxOf, .of_bijOn rfl ⟨fun n hn => ?_, fun m hm n _ h => ?_, fun k hk => ?_⟩ hshows⟩
  · rw [Set.mem_ofPred_eq, size_ofStore hlt hid]
    exact List.idxOf_lt_length_iff.mpr ((hmem n).mpr hn)
  · exact (List.idxOf_inj ((hmem m).mpr hm)).mp h
  · rw [Set.mem_ofPred_eq, size_ofStore hlt hid] at hk
    exact ⟨(s.support id)[k], (hmem _).mp (List.getElem_mem hk), hnodup.idxOf_getElem k hk⟩

/-- An explanation reproduces the derivation of the incompatibility that it explains: its nodes correspond to
what this one rests on, one to one; a fact stays, and what is derived has its terms, its causes in their order,
and its number exactly if two edges lead to it. Counting the edges and making the nodes with a stack ends, and
reproduces the derivation too. -/
theorem ofStore_reproduces (hlt : ∀ n, ∀ c ∈ s.causesOf n, c < n) (hid : id < s.size) :
    (∃ place, s.Reproduces id (ofStore s id) place) ∧
      ∃ n t, (Tally.step s)^[n] (Tally.start id) = t ∧ t.stack = [] ∧
        ∃ m p, (Pass.step (s.buildTask (t.marks s)))^[m] (Pass.start #[] id) = p ∧ p.stack = [] ∧
          s.Reproduces id ⟨p.nodes, p.imageOf id⟩ p.imageOf := by
  obtain ⟨n, t, ht, hstack, hcounts, hvisited⟩ := Tally.exists_finished hlt id
  exact ⟨exists_reproduces_ofStore hlt hid, n, t, ht, hstack, Store.exists_build_finished hlt hid
    fun _ _ _ _ hk => Tally.marks_iff hcounts hvisited hk⟩

end ofStore

end Explanation

/-- An incompatibility that follows from one that has the same cause twice. -/
def doubledCause : Store ℕ ℕ (Ranges ℕ) String where
  arena := #[⟨.empty, .fact (.root 0 1)⟩, ⟨.empty, .fact (.noVersions 1 Ranges.full)⟩, ⟨.empty, .derived 0 1⟩,
    ⟨.empty, .derived 2 2⟩, ⟨.empty, .derived 3 0⟩]
  index := .empty

/-- The doubled cause has its number; the fact with number 0 has two edges as well, and the others have one. -/
theorem doubledCause_reproduces :
    (∀ n, ∀ c ∈ doubledCause.causesOf n, c < n) ∧ 4 < doubledCause.size ∧
      ((List.range 5).map (Explanation.ofStore doubledCause 4).numberAt = [none, none, some 2, none, none]) ∧
      (∃ place, doubledCause.Reproduces 4 (Explanation.ofStore doubledCause 4) place) ∧
      ∃ n t, (Tally.step doubledCause)^[n] (Tally.start 4) = t ∧ t.stack = [] ∧
        ∃ m p, (Pass.step (doubledCause.buildTask (t.marks doubledCause)))^[m] (Pass.start #[] 4) = p ∧
          p.stack = [] ∧ doubledCause.Reproduces 4 ⟨p.nodes, p.imageOf 4⟩ p.imageOf := by
  have hlt : ∀ n, ∀ c ∈ doubledCause.causesOf n, c < n := Store.forall_causesOf_lt_iff.mpr (by decide)
  have hid : 4 < doubledCause.size := by decide
  exact ⟨hlt, hid, by decide, Explanation.ofStore_reproduces hlt hid⟩

end DependencyResolution
