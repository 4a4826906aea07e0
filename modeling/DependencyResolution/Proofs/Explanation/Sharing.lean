import DependencyResolution.Proofs.Explanation.Collapse
import Mathlib.Data.List.Perm.Subperm

/-!
# Nodes with several parents

A node of the explanation of a stored incompatibility has a number exactly if it is a cause more than
once (`Explanation.marks_ofStore`). Collapsing draws edges together: a node that is dropped hands its
parents on to its image. How often the image is a cause afterwards is how often the nodes with this image
were before, less the edges between them (`Explanation.timesCause_collapse`). The number is not handed on,
so every node that several others rest on has one afterwards exactly if no node with a number is dropped
for one without (`Explanation.numbersShared_collapse_iff`).
-/

namespace DependencyResolution

/-! ## Counting in lists -/

section lists

variable {α β : Type} [DecidableEq β] {f : α → List β} {k : β}

theorem count_flatMap_filter (S : List α) (f : α → List β) (k : β) :
    ((S.filter fun p => decide (k ∈ f p)).flatMap f).count k = (S.flatMap f).count k := by
  induction S with
  | nil => rfl
  | cons p S ih =>
    rw [List.flatMap_cons, List.count_append, ← ih]
    by_cases hp : k ∈ f p
    · rw [List.filter_cons_of_pos (by simpa using hp), List.flatMap_cons, List.count_append]
    · rw [List.filter_cons_of_neg (by simpa using hp), List.count_eq_zero_of_not_mem hp, Nat.zero_add]

/-- How often something stands below the members of a list depends on how often those stand in the list
that it is below. -/
theorem count_flatMap_congr [DecidableEq α] {S T : List α} (h : ∀ p, k ∈ f p → S.count p = T.count p) :
    (S.flatMap f).count k = (T.flatMap f).count k := by
  have hperm : (S.filter fun p => decide (k ∈ f p)).Perm (T.filter fun p => decide (k ∈ f p)) := by
    rw [List.perm_iff_count]
    intro p
    by_cases hp : k ∈ f p
    · rw [List.count_filter (by simpa using hp), List.count_filter (by simpa using hp), h p hp]
    · rw [List.count_eq_zero_of_not_mem (by simp [hp]), List.count_eq_zero_of_not_mem (by simp [hp])]
  rw [← count_flatMap_filter S, ← count_flatMap_filter T]
  exact (hperm.flatMap_right f).count_eq k

theorem countP_eq_fixed {g : β → β} (hg : g k = k) (l : List β) :
    l.countP (g · = k) = (l.countP fun a => g a = k ∧ g a ≠ a) + l.count k := by
  induction l with
  | nil => rfl
  | cons a l ih =>
    rw [List.countP_cons, List.countP_cons, List.count_cons, ih]
    by_cases ha : a = k
    · subst ha
      simp [hg]
      omega
    · have hne : g a = k → g a ≠ a := fun hga he => ha (he.symm.trans hga)
      by_cases hga : g a = k
      · simp [hga, ha, Ne.symm ha]
        omega
      · simp [hga, ha]

end lists

namespace Explanation

variable {P V S M : Type}

/-! ## Numbers -/

section numbers

variable {e : Explanation P V S M} {k : Nat}

def numberAt (e : Explanation P V S M) (place : Nat) : Option Nat :=
  match e.nodes[place]? with
  | some (.derived _ shared _ _) => shared
  | _ => none

def isDerivedAt (e : Explanation P V S M) (place : Nat) : Bool :=
  match e.nodes[place]? with
  | some (.derived ..) => true
  | _ => false

/-- How often a node is a cause of those that are listed. -/
def timesCause (e : Explanation P V S M) (place : Nat) : Nat :=
  (e.preorder.flatMap e.causesAt).count place

/-- Every derived node that is a cause more than once has a number. -/
def NumbersShared (e : Explanation P V S M) : Prop :=
  ∀ k ∈ e.preorder, e.isDerivedAt k = true → 1 < e.timesCause k → (e.numberAt k).isSome

/-- A node has a number exactly if it is derived and a cause more than once. -/
def Marks (e : Explanation P V S M) : Prop :=
  ∀ k ∈ e.preorder, (e.numberAt k).isSome ↔ e.isDerivedAt k = true ∧ 1 < e.timesCause k

def NumbersDiffer (e : Explanation P V S M) : Prop :=
  ∀ j ∈ e.preorder, ∀ k ∈ e.preorder, ∀ n, e.numberAt j = some n → e.numberAt k = some n → j = k

def CausesFirst (e : Explanation P V S M) : Prop :=
  ∀ (place : Nat) (node : Node P V S M), e.nodes[place]? = some node →
    ∀ cause ∈ node.causes, cause < place

/-- The same for what is listed. -/
def Descends (e : Explanation P V S M) : Prop :=
  ∀ k ∈ e.preorder, ∀ cause ∈ e.causesAt k, cause < k

theorem isDerivedAt_iff : e.isDerivedAt k = true ↔ ∃ terms shared first second,
    e.nodes[k]? = some (.derived terms shared first second) := by
  unfold isDerivedAt
  rcases e.nodes[k]? with _ | _ | _ <;> simp

theorem isDerivedAt_of_isSome (h : (e.numberAt k).isSome) : e.isDerivedAt k = true := by
  unfold numberAt at h
  split at h
  · next hn => exact isDerivedAt_iff.mpr ⟨_, _, _, _, hn⟩
  · cases h

theorem isDerivedAt_of_mem {place : Nat} (h : k ∈ e.causesAt place) : e.isDerivedAt place = true := by
  obtain ⟨terms, shared, first, second, hn, -⟩ := mem_causesAt_iff.mp h
  exact isDerivedAt_iff.mpr ⟨terms, shared, first, second, hn⟩

theorem CausesFirst.lt (h : e.CausesFirst) {place : Nat} (hk : k ∈ e.causesAt place) : k < place := by
  obtain ⟨terms, shared, first, second, hn, hmem⟩ := mem_causesAt_iff.mp hk
  exact h place _ hn k (by simpa [Node.causes] using hmem)

theorem CausesFirst.descends (h : e.CausesFirst) : e.Descends := fun _ _ _ hc => h.lt hc

theorem Descends.le_root (h : e.Descends) (hk : k ∈ e.preorder) : k ≤ e.root := by
  rw [mem_preorder_iff] at hk
  induction hk with
  | refl => exact le_rfl
  | tail hp hc ih => exact (h _ (mem_preorder hp) _ hc).le.trans ih

theorem CausesFirst.lt_size (h : e.CausesFirst) (hroot : e.root < e.nodes.size) (hk : k ∈ e.preorder) :
    k < e.nodes.size :=
  (h.descends.le_root hk).trans_lt hroot

theorem root_mem_preorder (e : Explanation P V S M) : e.root ∈ e.preorder := mem_preorder .refl

theorem mem_preorder_of_mem_causesAt {place : Nat} (hp : place ∈ e.preorder) (hk : k ∈ e.causesAt place) :
    k ∈ e.preorder :=
  mem_preorder ((mem_preorder_iff.mp hp).tail hk)

theorem Descends.timesCause_root (h : e.Descends) : e.timesCause e.root = 0 := by
  rw [timesCause, List.count_eq_zero, List.mem_flatMap]
  rintro ⟨p, hp, hroot⟩
  exact absurd ((h p hp _ hroot).trans_le (h.le_root hp)) (lt_irrefl _)

theorem timesCause_pos (hk : k ∈ e.preorder) (hne : k ≠ e.root) : 0 < e.timesCause k := by
  rw [timesCause, List.count_pos_iff, List.mem_flatMap]
  rcases Relation.ReflTransGen.cases_tail (mem_preorder_iff.mp hk) with rfl | ⟨p, hp, hcause⟩
  · exact absurd rfl hne
  · exact ⟨p, mem_preorder hp, hcause⟩

/-- If none of some listed nodes is a cause more than once, there are no more edges to them than nodes. -/
theorem countP_flatMap_le (q : Nat → Bool) (h : ∀ a ∈ e.preorder, q a = true → e.timesCause a ≤ 1) :
    (e.preorder.flatMap e.causesAt).countP q ≤ e.preorder.countP q := by
  rw [List.countP_eq_length_filter, List.countP_eq_length_filter]
  refine List.Subperm.length_le (List.subperm_ext_iff.mpr fun a ha => ?_)
  obtain ⟨ha, hq⟩ := List.mem_filter.mp ha
  obtain ⟨p, hp, hap⟩ := List.mem_flatMap.mp ha
  have hmem := mem_preorder_of_mem_causesAt hp hap
  rw [List.count_filter hq, List.count_filter hq, List.count_eq_one_of_mem e.nodup_preorder hmem]
  exact h a hmem hq

/-- If one of some listed nodes is a cause more than once, there are more edges to them than nodes, not
counting the root. -/
theorem countP_lt_countP_flatMap {q : Nat → Bool} (hk : k ∈ e.preorder) (hq : q k = true)
    (htwice : 1 < e.timesCause k) :
    e.preorder.countP q < (e.preorder.flatMap e.causesAt).countP q + if q e.root then 1 else 0 := by
  have hnodup := e.nodup_preorder.filter q
  have hsub : (k :: (e.preorder.filter q).erase e.root).Subperm
      ((e.preorder.flatMap e.causesAt).filter q) := by
    refine List.subperm_ext_iff.mpr fun a ha => ?_
    have hcount := List.nodup_iff_count_le_one.mp (hnodup.erase e.root) a
    rcases List.mem_cons.mp ha with rfl | ha
    · rw [List.count_filter hq, List.count_cons_self]
      exact (Nat.succ_le_succ hcount).trans htwice
    · obtain ⟨hne, ha⟩ := hnodup.mem_erase_iff.mp ha
      obtain ⟨hmem, hqa⟩ := List.mem_filter.mp ha
      rw [List.count_filter hqa, List.count_cons]
      split_ifs with hak
      · obtain rfl := beq_iff_eq.mp hak
        exact (Nat.succ_le_succ hcount).trans htwice
      · exact hcount.trans (timesCause_pos hmem hne)
  have hlen := hsub.length_le
  rw [List.length_cons, ← List.countP_eq_length_filter] at hlen
  split_ifs with hr
  · rw [List.length_erase_of_mem (List.mem_filter.mpr ⟨e.root_mem_preorder, hr⟩),
      ← List.countP_eq_length_filter] at hlen
    omega
  · rw [List.erase_of_not_mem fun hmem => hr (List.mem_filter.mp hmem).2,
      ← List.countP_eq_length_filter] at hlen
    omega

end numbers

/-! ## The explanation of a stored incompatibility -/

section ofStore

variable {s : Store P V S M} {id n k : Nat}

theorem causesFirst_ofStore (hlt : ∀ n, ∀ c ∈ s.causesOf n, c < n) (hid : id < s.size) :
    (ofStore s id).CausesFirst := by
  intro place node hn cause hcause
  cases node with
  | fact f => cases hcause
  | derived terms shared first second =>
    obtain ⟨-, -, -, -, ⟨-, -, hfirst⟩, -, -, hsecond⟩ := exists_cause_derived hlt hid hn
    rcases List.mem_pair.mp hcause with rfl | rfl
    · exact hfirst
    · exact hsecond

theorem root_lt_size_ofStore (hlt : ∀ n, ∀ c ∈ s.causesOf n, c < n) (hid : id < s.size) :
    (ofStore s id).root < (ofStore s id).nodes.size := by
  have hn := getElem?_idxOf hlt hid (Store.mem_support_of_restsOn hlt hid .refl)
  obtain ⟨i, hi⟩ : ∃ i, s.get? id = some i := ⟨_, Array.getElem?_eq_getElem hid⟩
  rw [hi, Option.map_some] at hn
  exact (Array.getElem?_eq_some_iff.mp hn).1

theorem perm_preorder_ofStore (hlt : ∀ n, ∀ c ∈ s.causesOf n, c < n) (hid : id < s.size) :
    (ofStore s id).preorder.Perm ((s.support id).map (s.support id).idxOf) := by
  obtain ⟨pile, hpile, hpiled, -⟩ := Store.exists_piled hlt hid
  have hnodup : ((s.support id).map (s.support id).idxOf).Nodup :=
    (hpile ▸ List.nodup_reverse.mpr hpiled.nodup : (s.support id).Nodup).map_on fun m hm n hn h =>
      (List.idxOf_inj hm).mp h
  rw [List.perm_ext_iff_of_nodup (nodup_preorder _) hnodup]
  intro k
  rw [mem_preorder_iff, List.mem_map]
  constructor
  · intro h
    induction h with
    | refl => exact ⟨id, Store.mem_support_of_restsOn hlt hid .refl, rfl⟩
    | tail _ hc ih =>
      obtain ⟨n, hn, rfl⟩ := ih
      rw [causesAt_idxOf hlt hid hn, List.mem_map] at hc
      obtain ⟨c, hc, rfl⟩ := hc
      rw [hpile, List.mem_reverse] at hn
      exact ⟨c, hpile ▸ List.mem_reverse.mpr (hpiled.mem_of_mem_causesOf hn hc), rfl⟩
  · rintro ⟨n, hn, rfl⟩
    exact restsOn_idxOf hlt hid (Store.restsOn_of_mem_support hn)

theorem timesCause_ofStore (hlt : ∀ n, ∀ c ∈ s.causesOf n, c < n) (hid : id < s.size) (n : Nat) :
    (ofStore s id).timesCause ((s.support id).idxOf n) = s.timesUsed (s.support id) n := by
  have hcauses : ((s.support id).map (s.support id).idxOf).flatMap (ofStore s id).causesAt =
      ((s.support id).flatMap s.causesOf).map (s.support id).idxOf := by
    rw [List.flatMap_map, List.map_flatMap]
    exact List.flatMap_congr fun m hm => causesAt_idxOf hlt hid hm
  rw [timesCause, ((perm_preorder_ofStore hlt hid).flatMap_right _).count_eq, hcauses, List.count,
    List.countP_map, Store.timesUsed, List.count]
  obtain ⟨pile, hpile, hpiled, -⟩ := Store.exists_piled hlt hid
  refine List.countP_congr fun c hc => ?_
  have hmem : c ∈ s.support id := by
    obtain ⟨m, hm, hcm⟩ := List.mem_flatMap.mp hc
    rw [hpile, List.mem_reverse] at hm ⊢
    exact hpiled.mem_of_mem_causesOf hm hcm
  simp [List.idxOf_inj hmem]

theorem numberAt_idxOf (hlt : ∀ n, ∀ c ∈ s.causesOf n, c < n) (hid : id < s.size)
    (hn : n ∈ s.support id) :
    (ofStore s id).numberAt ((s.support id).idxOf n) =
      if (ofStore s id).isDerivedAt ((s.support id).idxOf n) ∧ 1 < s.timesUsed (s.support id) n then some n
      else none := by
  unfold numberAt isDerivedAt
  rw [getElem?_idxOf hlt hid hn]
  rcases s.get? n with _ | ⟨terms, _ | ⟨first, second⟩⟩
  · simp
  · simp [Store.toNode]
  · simp [Store.toNode]

/-- In the explanation of a stored incompatibility a node has a number exactly if it is derived and a
cause more than once. -/
theorem marks_ofStore (hlt : ∀ n, ∀ c ∈ s.causesOf n, c < n) (hid : id < s.size) :
    (ofStore s id).Marks := by
  intro k hk
  obtain ⟨n, hn, rfl⟩ := List.mem_map.mp ((perm_preorder_ofStore hlt hid).mem_iff.mp hk)
  rw [numberAt_idxOf hlt hid hn, timesCause_ofStore hlt hid n]
  split_ifs with h
  · simpa using h
  · simpa using h

theorem numbersDiffer_ofStore (hlt : ∀ n, ∀ c ∈ s.causesOf n, c < n) (hid : id < s.size) :
    (ofStore s id).NumbersDiffer := by
  have hnumber : ∀ k ∈ (ofStore s id).preorder, ∀ n, (ofStore s id).numberAt k = some n →
      k = (s.support id).idxOf n := by
    intro k hk n hkn
    obtain ⟨m, hm, rfl⟩ := List.mem_map.mp ((perm_preorder_ofStore hlt hid).mem_iff.mp hk)
    rw [numberAt_idxOf hlt hid hm] at hkn
    split_ifs at hkn
    rw [Option.some.inj hkn]
  intro j hj k hk n hjn hkn
  rw [hnumber j hj n hjn, hnumber k hk n hkn]

end ofStore

/-! ## Collapsing -/

section collapse

variable [DecidableEq P] [VersionSet S V] {e : Explanation P V S M} {j k cause : Nat}

/-- A node with a number is not dropped for a derived node without one. -/
def HandsOnNumbers (e : Explanation P V S M) : Prop :=
  ∀ k ∈ e.preorder, (e.numberAt k).isSome → e.collapse.isDerivedAt (e.collapsed.imageOf k) = true →
    (e.collapse.numberAt (e.collapsed.imageOf k)).isSome

/-- What collapsing does to the node at a place: it stays derived and keeps its number and the images of
its causes; or it is dropped for one of two causes, the other being a fact; or it becomes a fact, and so
do all its causes. -/
inductive Turns (e : Explanation P V S M) (k : Nat) : Prop
  | kept (hi : e.collapsed.imageOf k = k) (hd : e.isDerivedAt k = true)
      (hd' : e.collapse.isDerivedAt k = true) (hnumber : e.collapse.numberAt k = e.numberAt k)
      (hcauses : e.collapse.causesAt k = (e.causesAt k).map e.collapsed.imageOf)
  | dropped {leaf sibling : Nat} (hlt : sibling < k)
      (hcauses : (e.causesAt k).Perm [leaf, sibling])
      (hleaf : e.collapse.isDerivedAt (e.collapsed.imageOf leaf) = false)
      (hi : e.collapsed.imageOf k = e.collapsed.imageOf sibling)
      (hd' : e.collapse.isDerivedAt (e.collapsed.imageOf sibling) = true)
  | fact (hi : e.collapsed.imageOf k = k) (hd' : e.collapse.isDerivedAt k = false)
      (hcauses : ∀ cause ∈ e.causesAt k, e.collapse.isDerivedAt (e.collapsed.imageOf cause) = false)

omit [DecidableEq P] [VersionSet S V] in
theorem isDerivedAt_of_fact {f : Fact P V S M} (h : e.nodes[k]? = some (.fact f)) :
    e.isDerivedAt k = false := by
  rw [isDerivedAt, h]

omit [DecidableEq P] [VersionSet S V] in
theorem causesAt_of_derived {terms : OrderedMap P (Term S)} {shared : Option Nat} {first second : Nat}
    (h : e.nodes[k]? = some (.derived terms shared first second)) : e.causesAt k = [first, second] := by
  rw [causesAt, h]
  rfl

omit [DecidableEq P] [VersionSet S V] in
theorem Folds.perm {first second sibling : Nat} {package : P} {versions : S}
    (h : e.Folds first second package versions sibling) :
    ∃ leaf, e.noVersionsAt? leaf = some (package, versions) ∧ [first, second].Perm [leaf, sibling] := by
  rcases h with ⟨hleaf, rfl⟩ | ⟨-, hleaf, rfl⟩
  · exact ⟨first, hleaf, .refl _⟩
  · exact ⟨second, hleaf, .swap ..⟩

section turns

variable (h : e.CausesFirst)

include h

theorem CausesFirst.image_of_noVersions {package : P} {versions : S}
    (hk : e.noVersionsAt? k = some (package, versions)) :
    e.collapsed.imageOf k = k ∧ e.collapse.isDerivedAt k = false := by
  cases (collapsed_spec h).2 k _ (noVersionsAt?_eq_some hk) with
  | fact hi hn => exact ⟨hi, isDerivedAt_of_fact hn⟩

theorem CausesFirst.image_of_fact {f : Fact P V S M} (hk : k < e.nodes.size)
    (hf : e.collapsed.nodes[e.collapsed.imageOf k]? = some (.fact f)) : e.collapsed.imageOf k = k := by
  obtain ⟨node, hn⟩ : ∃ node, e.nodes[k]? = some node := ⟨_, Array.getElem?_eq_getElem hk⟩
  cases (collapsed_spec h).2 k node hn with
  | fact hi | kept _ _ hi | merged _ _ _ hi | unmerged _ _ _ hi => exact hi
  | dropped _ hs hi =>
    obtain ⟨_, _, _, _, hs⟩ := hs
    rw [hi, hs] at hf
    cases hf

theorem CausesFirst.turns (hk : k < e.nodes.size) : e.Turns k := by
  obtain ⟨node, hn⟩ : ∃ node, e.nodes[k]? = some node := ⟨_, Array.getElem?_eq_getElem hk⟩
  cases (collapsed_spec h).2 k node hn with
  | @fact f hi hn' =>
    refine .fact hi (isDerivedAt_of_fact hn') fun cause hcause => ?_
    rw [causesAt, hn] at hcause
    cases hcause
  | @kept terms shared first second _ _ hi hn' =>
    refine .kept hi (isDerivedAt_iff.mpr ⟨_, _, _, _, hn⟩) (isDerivedAt_iff.mpr ⟨_, _, _, _, hn'⟩) ?_ ?_
    · simp only [numberAt, hn, collapse, collapsed] at hn' ⊢
      rw [hn']
    · rw [causesAt_of_derived hn, causesAt_of_derived hn']
      rfl
  | @dropped terms shared first second sibling _ _ hfolds hs hi =>
    obtain ⟨leaf, hleaf, hperm⟩ := hfolds.perm
    have hlt : sibling < k := h k _ hn sibling (hperm.mem_iff.mpr (by simp))
    obtain ⟨hileaf, hdleaf⟩ := h.image_of_noVersions hleaf
    exact .dropped hlt (by rwa [causesAt_of_derived hn]) (hileaf ▸ hdleaf) hi (isDerivedAt_iff.mpr hs)
  | @merged terms shared first second sibling _ _ f _ hfolds hs hm hi hn' =>
    obtain ⟨leaf, hleaf, hperm⟩ := hfolds.perm
    obtain ⟨hileaf, hdleaf⟩ := h.image_of_noVersions hleaf
    refine .fact hi (isDerivedAt_of_fact hn') fun cause hcause => ?_
    rw [causesAt_of_derived hn, hperm.mem_iff, List.mem_pair] at hcause
    rcases hcause with rfl | rfl
    · rwa [hileaf]
    · exact isDerivedAt_of_fact hs
  | @unmerged terms shared first second sibling _ _ f hfolds hs hm hi hn' =>
    obtain ⟨leaf, hleaf, hperm⟩ := hfolds.perm
    have hlt : sibling < k := h k _ hn sibling (hperm.mem_iff.mpr (by simp))
    refine .kept hi (isDerivedAt_iff.mpr ⟨_, _, _, _, hn⟩) (isDerivedAt_iff.mpr ⟨_, _, _, _, hn'⟩) ?_ ?_
    · simp only [numberAt, hn, collapse, collapsed] at hn' ⊢
      rw [hn']
    · rw [causesAt_of_derived hn, causesAt_of_derived hn']
      have hself : ∀ cause ∈ [first, second], e.collapsed.imageOf cause = cause := by
        intro cause hcause
        rw [hperm.mem_iff, List.mem_pair] at hcause
        rcases hcause with rfl | rfl
        · exact (h.image_of_noVersions hleaf).1
        · exact h.image_of_fact (hlt.trans hk) hs
      rw [List.map_congr_left hself, List.map_id']

/-- The image of a node does not come after it, stands for itself, and is something that the node rests
on. -/
theorem CausesFirst.image_spec (hk : k < e.nodes.size) :
    e.collapsed.imageOf k < e.nodes.size ∧
      e.collapsed.imageOf (e.collapsed.imageOf k) = e.collapsed.imageOf k ∧
      e.RestsOn k (e.collapsed.imageOf k) := by
  -- the sibling for which a node is dropped comes before it
  induction k using Nat.strong_induction_on with
  | _ k ih =>
    cases h.turns hk with
    | kept hi | fact hi => exact ⟨hi.symm ▸ hk, by rw [hi, hi], hi.symm ▸ .refl⟩
    | @dropped leaf sibling hlt hcauses _ hi =>
      obtain ⟨hsize, hself, hrests⟩ := ih sibling hlt (hlt.trans hk)
      rw [hi]
      exact ⟨hsize, hself, hrests.head (hcauses.mem_iff.mpr (by simp))⟩

/-- A node that stands for itself and is still derived keeps its number, and has the images of its causes as
causes. -/
theorem CausesFirst.kept (hk : k < e.nodes.size) (hi : e.collapsed.imageOf k = k)
    (hd : e.collapse.isDerivedAt k = true) :
    e.collapse.numberAt k = e.numberAt k ∧
      e.collapse.causesAt k = (e.causesAt k).map e.collapsed.imageOf := by
  cases h.turns hk with
  | kept _ _ _ hnumber hcauses => exact ⟨hnumber, hcauses⟩
  | dropped hlt _ _ hi' =>
    have hle := (collapsed_spec h).1.image_le _ (hlt.trans hk)
    omega
  | fact _ hd' => exact absurd hd (by simp [hd'])

variable (hroot : e.root < e.nodes.size)

include hroot

theorem CausesFirst.mem_preorder_of_collapse (hk : k ∈ e.collapse.preorder) :
    k ∈ e.preorder ∧ e.collapsed.imageOf k = k := by
  have himage : ∀ a ∈ e.preorder, e.collapsed.imageOf a ∈ e.preorder ∧
      e.collapsed.imageOf (e.collapsed.imageOf a) = e.collapsed.imageOf a := by
    intro a ha
    obtain ⟨-, hself, hrests⟩ := h.image_spec (h.lt_size hroot ha)
    exact ⟨mem_preorder ((mem_preorder_iff.mp ha).trans hrests), hself⟩
  rw [mem_preorder_iff] at hk
  induction hk with
  | refl => exact himage e.root e.root_mem_preorder
  | @tail p k _ hc ih =>
    obtain ⟨hp, hself⟩ := ih
    rw [(h.kept (h.lt_size hroot hp) hself (isDerivedAt_of_mem hc)).2, List.mem_map] at hc
    obtain ⟨a, ha, rfl⟩ := hc
    exact himage a (mem_preorder_of_mem_causesAt hp ha)

theorem CausesFirst.descends_collapse : e.collapse.Descends := by
  intro k hk cause hc
  obtain ⟨hmem, hi⟩ := h.mem_preorder_of_collapse hroot hk
  have hk := h.lt_size hroot hmem
  rw [(h.kept hk hi (isDerivedAt_of_mem hc)).2, List.mem_map] at hc
  obtain ⟨a, ha, rfl⟩ := hc
  exact ((collapsed_spec h).1.image_le _ ((h.lt ha).trans hk)).trans_lt (h.lt ha)

theorem CausesFirst.image_mem_preorder (hk : k ∈ e.preorder)
    (hd : e.collapse.isDerivedAt (e.collapsed.imageOf k) = true) :
    e.collapsed.imageOf k ∈ e.collapse.preorder := by
  rw [mem_preorder_iff] at hk
  induction hk with
  | refl => exact e.collapse.root_mem_preorder
  | @tail p k hp hc ih =>
    cases h.turns (h.lt_size hroot (mem_preorder hp)) with
    | kept hi _ hd' _ hcauses =>
      rw [hi] at ih
      exact mem_preorder_of_mem_causesAt (ih hd') (hcauses ▸ List.mem_map_of_mem hc)
    | @dropped leaf sibling _ hcauses hleaf hi hd' =>
      rw [hcauses.mem_iff, List.mem_pair] at hc
      rcases hc with rfl | rfl
      · exact absurd hd (by simp [hleaf])
      · rw [← hi]
        exact ih (hi ▸ hd')
    | fact _ _ hcauses => exact absurd hd (by simp [hcauses k hc])

omit hroot in
/-- How many causes of a node have an image: a node that is kept has the image as a cause as often, and a
node that is dropped has it once, if it is its image as well. -/
theorem CausesFirst.countP_causesAt (hk : k < e.nodes.size) (hj : e.collapse.isDerivedAt j = true) :
    (e.causesAt k).countP (e.collapsed.imageOf · = j) =
      if e.collapsed.imageOf k = k then (e.collapse.causesAt k).count j
      else if e.collapsed.imageOf k = j then 1 else 0 := by
  have hne : ∀ a, e.collapse.isDerivedAt (e.collapsed.imageOf a) = false → e.collapsed.imageOf a ≠ j := by
    rintro a ha rfl
    rw [hj] at ha
    cases ha
  cases h.turns hk with
  | kept hi _ _ _ hcauses =>
    rw [if_pos hi, hcauses, List.count, List.countP_map]
    rfl
  | @dropped leaf sibling hlt hcauses hleaf hi =>
    have hle := (collapsed_spec h).1.image_le _ (hlt.trans hk)
    rw [if_neg (by omega), hcauses.countP_eq, hi]
    simp [List.countP_cons, hne leaf hleaf]
  | fact hi hd' hcauses =>
    have hnone : e.collapse.causesAt k = [] := by
      refine List.eq_nil_iff_forall_not_mem.mpr fun a ha => ?_
      rw [isDerivedAt_of_mem ha] at hd'
      cases hd'
    rw [if_pos hi, hnone, List.count_nil, List.countP_eq_zero]
    intro a ha
    simpa using hne a (hcauses a ha)

omit hroot in
/-- The same for the causes of several nodes: the causes that have the image are those that the kept nodes
have afterwards, and one for each node that is dropped for it. -/
theorem CausesFirst.countP_flatMap (hj : e.collapse.isDerivedAt j = true) {l : List Nat}
    (hl : ∀ k ∈ l, k < e.nodes.size) :
    (l.flatMap e.causesAt).countP (e.collapsed.imageOf · = j) =
      ((l.filter fun k => e.collapsed.imageOf k = k).flatMap e.collapse.causesAt).count j +
        l.countP fun k => e.collapsed.imageOf k = j ∧ e.collapsed.imageOf k ≠ k := by
  induction l with
  | nil => rfl
  | cons k l ih =>
    rw [List.forall_mem_cons] at hl
    rw [List.flatMap_cons, List.countP_append, ih hl.2, h.countP_causesAt hl.1 hj, List.countP_cons]
    by_cases hi : e.collapsed.imageOf k = k
    · rw [List.filter_cons_of_pos (by simpa using hi), List.flatMap_cons, List.count_append, if_pos hi]
      simp [hi, Nat.add_assoc]
    · rw [List.filter_cons_of_neg (by simpa using hi), if_neg hi]
      simp only [hi, not_false_eq_true, and_true, decide_eq_true_eq, ne_eq]
      omega

/-- How often a derived node is a cause after collapsing: how often the nodes were that it is the image of,
less the edges between them, of which there is one for each node but the image itself. -/
theorem CausesFirst.timesCause_collapse (hj : j ∈ e.collapse.preorder)
    (hd : e.collapse.isDerivedAt j = true) :
    (e.preorder.flatMap e.causesAt).countP (e.collapsed.imageOf · = j) + 1 =
      e.collapse.timesCause j + e.preorder.countP (e.collapsed.imageOf · = j) := by
  obtain ⟨hmem, hself⟩ := h.mem_preorder_of_collapse hroot hj
  have hkept : ((e.preorder.filter fun k => e.collapsed.imageOf k = k).flatMap e.collapse.causesAt).count j =
      e.collapse.timesCause j := by
    refine count_flatMap_congr fun p hp => ?_
    have hiff : p ∈ (e.preorder.filter fun k => e.collapsed.imageOf k = k) ↔ p ∈ e.collapse.preorder := by
      rw [List.mem_filter, decide_eq_true_iff]
      refine ⟨fun ⟨hp', hi⟩ => ?_, h.mem_preorder_of_collapse hroot⟩
      rw [← hi]
      exact h.image_mem_preorder hroot hp' (hi.symm ▸ isDerivedAt_of_mem hp)
    by_cases hp' : p ∈ e.collapse.preorder
    · rw [List.count_eq_one_of_mem (e.nodup_preorder.filter _) (hiff.mpr hp'),
        List.count_eq_one_of_mem e.collapse.nodup_preorder hp']
    · rw [List.count_eq_zero_of_not_mem (mt hiff.mp hp'), List.count_eq_zero_of_not_mem hp']
  rw [h.countP_flatMap hd fun k hk => h.lt_size hroot hk, hkept, countP_eq_fixed hself,
    List.count_eq_one_of_mem e.nodup_preorder hmem, Nat.add_assoc]

omit hroot in
theorem CausesFirst.isDerivedAt_of_image (hk : k < e.nodes.size)
    (hd : e.collapse.isDerivedAt (e.collapsed.imageOf k) = true) : e.isDerivedAt k = true := by
  cases h.turns hk with
  | kept _ hd' => exact hd'
  | dropped _ hcauses => exact isDerivedAt_of_mem (hcauses.mem_iff.mpr List.mem_cons_self)
  | fact hi hd' =>
    rw [hi, hd'] at hd
    cases hd

/-- Where the number of a node tells that it is a cause more than once, collapsing leaves a number on every
derived node that is a cause more than once exactly if no node with a number is dropped for one without. -/
theorem CausesFirst.numbersShared_collapse_iff (hmarks : e.Marks) :
    e.collapse.NumbersShared ↔ e.HandsOnNumbers := by
  constructor
  · intro hshared k hk hnumber hd
    have hj := h.image_mem_preorder hroot hk hd
    refine hshared _ hj hd ?_
    have htimes := h.timesCause_collapse hroot hj hd
    have hlt := countP_lt_countP_flatMap (q := (e.collapsed.imageOf · = e.collapsed.imageOf k)) hk
      (by simp) ((hmarks k hk).mp hnumber).2
    split_ifs at hlt with hr
    · have hzero : e.collapse.timesCause (e.collapsed.imageOf k) = 0 :=
        of_decide_eq_true hr ▸ (h.descends_collapse hroot).timesCause_root
      omega
    · omega
  · intro hhands j hj hd htwice
    by_contra hnone
    have htimes := h.timesCause_collapse hroot hj hd
    have hle := countP_flatMap_le (e := e) (e.collapsed.imageOf · = j) fun a ha hi => by
      obtain rfl := of_decide_eq_true hi
      by_contra hlt
      have hderived := h.isDerivedAt_of_image (h.lt_size hroot ha) hd
      exact hnone (hhands a ha ((hmarks a ha).mpr ⟨hderived, not_le.mp hlt⟩) hd)
    omega

theorem CausesFirst.numberAt_collapse (hk : k ∈ e.collapse.preorder) {n : Nat}
    (hn : e.collapse.numberAt k = some n) : e.numberAt k = some n := by
  obtain ⟨hmem, hi⟩ := h.mem_preorder_of_collapse hroot hk
  have hd := isDerivedAt_of_isSome (hn ▸ rfl : (e.collapse.numberAt k).isSome)
  rwa [← (h.kept (h.lt_size hroot hmem) hi hd).1]

theorem CausesFirst.numbersDiffer_collapse (hdiffer : e.NumbersDiffer) : e.collapse.NumbersDiffer :=
  fun j hj k hk n hjn hkn =>
    hdiffer j (h.mem_preorder_of_collapse hroot hj).1 k (h.mem_preorder_of_collapse hroot hk).1 n
      (h.numberAt_collapse hroot hj hjn) (h.numberAt_collapse hroot hk hkn)

end turns

end collapse

/-! ## Simplifying -/

section simplify

variable [VersionSet S V] {e : Explanation P V S M} {known : P → List V} {k : Nat}

theorem numberAt_simplify : (e.simplify known).numberAt k = e.numberAt k := by
  unfold numberAt simplify
  rw [Array.getElem?_map]
  rcases e.nodes[k]? with _ | _ | _ <;> rfl

theorem isDerivedAt_simplify : (e.simplify known).isDerivedAt k = e.isDerivedAt k := by
  unfold isDerivedAt simplify
  rw [Array.getElem?_map]
  rcases e.nodes[k]? with _ | _ | _ <;> rfl

theorem preorder_simplify : (e.simplify known).preorder = e.preorder := by
  have hwalk : ∀ steps stack seen, (e.simplify known).walk steps stack seen = e.walk steps stack seen := by
    intro steps
    induction steps with
    | zero => exact fun _ _ => rfl
    | succ steps ih =>
      intro stack seen
      cases stack with
      | nil => rfl
      | cons place stack => rw [walk, walk, causesAt_simplify, ih, ih]
  have hsize : (e.simplify known).nodes.size = e.nodes.size := by rw [simplify, Array.size_map]
  rw [preorder, hwalk, hsize]
  rfl

theorem timesCause_simplify : (e.simplify known).timesCause k = e.timesCause k := by
  have hcauses : (e.simplify known).causesAt = e.causesAt := funext e.causesAt_simplify
  rw [timesCause, preorder_simplify, hcauses, timesCause]

theorem numbersShared_simplify_iff : (e.simplify known).NumbersShared ↔ e.NumbersShared := by
  unfold NumbersShared
  simp only [preorder_simplify, isDerivedAt_simplify, timesCause_simplify, numberAt_simplify]

theorem numbersDiffer_simplify_iff : (e.simplify known).NumbersDiffer ↔ e.NumbersDiffer := by
  unfold NumbersDiffer
  simp only [preorder_simplify, numberAt_simplify]

theorem descends_simplify_iff : (e.simplify known).Descends ↔ e.Descends := by
  unfold Descends
  simp only [preorder_simplify, causesAt_simplify]

end simplify

end Explanation

end DependencyResolution
