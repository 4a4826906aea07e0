import DependencyResolution.Explanation.Basic
import Mathlib.Data.Finset.Card
import Mathlib.Data.List.Nodup
import Mathlib.Logic.Relation

/-!
# The graph of an explanation

A walk through an explanation meets every node that the root rests on (`Explanation.mem_preorder`), so
all facts below the root are listed (`Explanation.mem_facts`). The explanation of a stored
incompatibility has a node for everything that this one rests on (`Explanation.getElem?_idxOf`), and
the causes of a node stand before it (`Explanation.exists_cause_derived`). Where causes have smaller numbers
nothing that is looked up to make it is missing (`Explanation.build_eq_ok`).
-/

namespace DependencyResolution

variable {P V S M : Type}

/-! ## Walking -/

namespace Explanation

variable {e : Explanation P V S M} {place k : Nat} {stack seen : List Nat} {f : Fact P V S M}

/-- One place rests on another if it is reached by going from nodes to their causes. -/
def RestsOn (e : Explanation P V S M) : Nat → Nat → Prop :=
  Relation.ReflTransGen fun place cause => cause ∈ e.causesAt place

theorem mem_causesAt_iff : k ∈ e.causesAt place ↔ ∃ terms shared first second,
    e.nodes[place]? = some (.derived terms shared first second) ∧ (k = first ∨ k = second) := by
  unfold causesAt
  rcases e.nodes[place]? with _ | _ | _ <;> simp [Node.causes]

def unseen (e : Explanation P V S M) (seen : List Nat) : Nat :=
  (Finset.range e.nodes.size \ seen.toFinset).card

theorem length_causesAt_le (e : Explanation P V S M) (place : Nat) : (e.causesAt place).length ≤ 2 := by
  unfold causesAt
  rcases e.nodes[place]? with _ | _ | _ <;> simp [Node.causes]

theorem length_causesAt_add_unseen_le (h : place ∉ seen) :
    (e.causesAt place).length + 2 * e.unseen (place :: seen) ≤ 2 * e.unseen seen := by
  have hcauses := e.length_causesAt_le place
  unfold unseen
  rw [List.toFinset_cons, Finset.sdiff_insert]
  by_cases hp : place < e.nodes.size
  · have hmem : place ∈ Finset.range e.nodes.size \ seen.toFinset := by simp [hp, h]
    have hpos := Finset.card_pos.mpr ⟨_, hmem⟩
    rw [Finset.card_erase_of_mem hmem]
    omega
  · have hnone : e.causesAt place = [] := by
      rw [causesAt, Array.getElem?_eq_none (not_lt.mp hp)]
      rfl
    have hle := Finset.card_erase_le (s := Finset.range e.nodes.size \ seen.toFinset) (a := place)
    rw [hnone, List.length_nil]
    omega

/-- With enough steps a walk meets everything on the stack, and the causes of everything that it has
met. -/
theorem walk_closed (steps : Nat) (stack seen : List Nat)
    (hsteps : stack.length + 2 * e.unseen seen ≤ steps)
    (hseen : ∀ a ∈ seen, ∀ b ∈ e.causesAt a, b ∈ seen ∨ b ∈ stack) :
    (∀ a ∈ stack, a ∈ seen ∨ a ∈ e.walk steps stack seen) ∧
      ∀ a, a ∈ seen ∨ a ∈ e.walk steps stack seen →
        ∀ b ∈ e.causesAt a, b ∈ seen ∨ b ∈ e.walk steps stack seen := by
  -- what has been met is closed under causes, apart from the stack
  induction steps generalizing stack seen with
  | zero =>
    obtain rfl : stack = [] := List.eq_nil_of_length_eq_zero (by omega)
    simpa [walk] using hseen
  | succ steps ih =>
    cases stack with
    | nil => simpa [walk] using hseen
    | cons place stack =>
      rw [List.length_cons] at hsteps
      unfold walk
      split_ifs with hp
      · obtain ⟨hstack, hclosed⟩ := ih stack seen (by omega) fun a ha b hb => by
          rcases hseen a ha b hb with hb | hb
          · exact Or.inl hb
          · rcases List.mem_cons.mp hb with rfl | hb
            · exact Or.inl hp
            · exact Or.inr hb
        exact ⟨List.forall_mem_cons.mpr ⟨Or.inl hp, hstack⟩, hclosed⟩
      · have hroom := length_causesAt_add_unseen_le (e := e) hp
        obtain ⟨hstack, hclosed⟩ := ih (e.causesAt place ++ stack) (place :: seen)
          (by rw [List.length_append]; omega) fun a ha b hb => by
            rcases List.mem_cons.mp ha with rfl | ha
            · exact Or.inr (List.mem_append_left _ hb)
            · rcases hseen a ha b hb with hb | hb
              · exact Or.inl (List.mem_cons_of_mem _ hb)
              · rcases List.mem_cons.mp hb with rfl | hb
                · exact Or.inl List.mem_cons_self
                · exact Or.inr (List.mem_append_right _ hb)
        have hmoved : ∀ a, a ∈ seen ∨ a ∈ place :: e.walk steps (e.causesAt place ++ stack) (place :: seen) ↔
            a ∈ place :: seen ∨ a ∈ e.walk steps (e.causesAt place ++ stack) (place :: seen) := by
          intro a
          simp only [List.mem_cons]
          tauto
        simp only [hmoved]
        refine ⟨List.forall_mem_cons.mpr ⟨Or.inl List.mem_cons_self, fun a ha => ?_⟩, hclosed⟩
        exact hstack a (List.mem_append_right _ ha)

theorem mem_preorder (h : e.RestsOn e.root k) : k ∈ e.preorder := by
  have hunseen : e.unseen [] = e.nodes.size := by simp [unseen]
  obtain ⟨hroot, hclosed⟩ := walk_closed (e := e) (2 * e.nodes.size + 2) [e.root] []
    (by rw [hunseen, List.length_singleton]; omega) (by simp)
  simp only [List.not_mem_nil, false_or, List.mem_singleton, forall_eq] at hroot hclosed
  induction h with
  | refl => exact hroot
  | tail _ hcause ih => exact hclosed _ ih _ hcause

/-- What a walk meets it meets once, had not met before, and finds below the stack. -/
theorem walk_spec (steps : Nat) (stack seen : List Nat) :
    (e.walk steps stack seen).Nodup ∧
      ∀ a ∈ e.walk steps stack seen, a ∉ seen ∧ ∃ b ∈ stack, e.RestsOn b a := by
  induction steps generalizing stack seen with
  | zero => simp [walk]
  | succ steps ih =>
    cases stack with
    | nil => simp [walk]
    | cons place stack =>
      unfold walk
      split_ifs with hp
      · obtain ⟨hnodup, hmem⟩ := ih stack seen
        refine ⟨hnodup, fun a ha => ?_⟩
        obtain ⟨hseen, b, hb, hrests⟩ := hmem a ha
        exact ⟨hseen, b, List.mem_cons_of_mem _ hb, hrests⟩
      · obtain ⟨hnodup, hmem⟩ := ih (e.causesAt place ++ stack) (place :: seen)
        refine ⟨List.nodup_cons.mpr ⟨fun h => (hmem place h).1 List.mem_cons_self, hnodup⟩, ?_⟩
        rw [List.forall_mem_cons]
        refine ⟨⟨hp, place, List.mem_cons_self, .refl⟩, fun a ha => ?_⟩
        obtain ⟨hseen, b, hb, hrests⟩ := hmem a ha
        refine ⟨fun h => hseen (List.mem_cons_of_mem _ h), ?_⟩
        rcases List.mem_append.mp hb with hcause | hb
        · exact ⟨place, List.mem_cons_self, hrests.head hcause⟩
        · exact ⟨b, List.mem_cons_of_mem _ hb, hrests⟩

theorem nodup_preorder (e : Explanation P V S M) : e.preorder.Nodup := (walk_spec _ _ _).1

theorem mem_preorder_iff : k ∈ e.preorder ↔ e.RestsOn e.root k := by
  refine ⟨fun h => ?_, mem_preorder⟩
  obtain ⟨-, b, hb, hrests⟩ := (walk_spec _ _ _).2 k h
  rwa [List.mem_singleton.mp hb] at hrests

theorem mem_facts (h : e.RestsOn e.root k) (hk : e.nodes[k]? = some (.fact f)) : f ∈ e.facts :=
  List.mem_filterMap.mpr ⟨.fact f, List.mem_filterMap.mpr ⟨k, mem_preorder h, hk⟩, rfl⟩

end Explanation

/-! ## The explanation of a stored incompatibility -/

namespace Store

variable {s : Store P V S M} {id n c : Nat} {pile : List Nat}

/-- One incompatibility rests on another if its derivation goes back to it. -/
def RestsOn (s : Store P V S M) : Nat → Nat → Prop :=
  Relation.ReflTransGen fun id cause => cause ∈ s.causesOf id

theorem mem_causesOf_iff :
    n ∈ s.causesOf id ↔ ∃ i first second, s.get? id = some i ∧
      i.cause = .derived first second ∧ (n = first ∨ n = second) := by
  unfold causesOf
  split
  · next terms first second hid => simp [hid]
  · next hnone =>
    constructor
    · rintro ⟨⟩
    · rintro ⟨⟨terms, cause⟩, first, second, hid, rfl, -⟩
      exact absurd hid (hnone terms first second)

/-- Every number in a list is in the store, and its causes come later in the list; it occurs once. -/
def Piled (s : Store P V S M) : List Nat → Prop
  | [] => True
  | id :: pile => id ∉ pile ∧ id < s.size ∧ (∀ c ∈ s.causesOf id, c ∈ pile) ∧ s.Piled pile

theorem Piled.lt_size (h : s.Piled pile) (hn : n ∈ pile) : n < s.size := by
  induction pile with
  | nil => cases hn
  | cons id pile ih =>
    rcases List.mem_cons.mp hn with rfl | hn
    · exact h.2.1
    · exact ih h.2.2.2 hn

theorem Piled.nodup (h : s.Piled pile) : pile.Nodup := by
  induction pile with
  | nil => exact .nil
  | cons id pile ih => exact List.nodup_cons.mpr ⟨h.1, ih h.2.2.2⟩

theorem Piled.mem_of_mem_causesOf (h : s.Piled pile) (hn : n ∈ pile) (hc : c ∈ s.causesOf n) :
    c ∈ pile := by
  induction pile with
  | nil => cases hn
  | cons id pile ih =>
    rcases List.mem_cons.mp hn with rfl | hn
    · exact List.mem_cons_of_mem _ (h.2.2.1 c hc)
    · exact List.mem_cons_of_mem _ (ih h.2.2.2 hn)

/-- Read from the other end, causes come before what follows from them. -/
theorem Piled.idxOf_lt (h : s.Piled pile) (hn : n ∈ pile) (hc : c ∈ s.causesOf n) :
    pile.reverse.idxOf c < pile.reverse.idxOf n := by
  induction pile with
  | nil => cases hn
  | cons id pile ih =>
    rw [List.reverse_cons, List.idxOf_append, List.idxOf_append]
    rcases List.mem_cons.mp hn with rfl | hn
    · have hcp : c ∈ pile.reverse := List.mem_reverse.mpr (h.2.2.1 c hc)
      have hnp : n ∉ pile.reverse := fun hmem => h.1 (List.mem_reverse.mp hmem)
      rw [if_pos hcp, if_neg hnp]
      exact Nat.lt_add_left _ (List.idxOf_lt_length_iff.mpr hcp)
    · have hcp : c ∈ pile.reverse := List.mem_reverse.mpr (h.2.2.2.mem_of_mem_causesOf hn hc)
      rw [if_pos hcp, if_pos (List.mem_reverse.mpr hn)]
      exact ih h.2.2.2 hn

/-- The support of an incompatibility is a pile with the incompatibility in it. -/
theorem visit_spec (hlt : ∀ n, ∀ c ∈ s.causesOf n, c < n) (depth id : Nat) (pile : List Nat)
    (hpile : s.Piled pile) (hdepth : id < depth) (hid : id < s.size) :
    s.Piled (s.visit depth pile id) ∧ id ∈ s.visit depth pile id ∧
      ∀ n ∈ pile, n ∈ s.visit depth pile id := by
  -- causes have smaller numbers, so the depth suffices for them
  induction depth generalizing pile id with
  | zero => omega
  | succ depth ih =>
    have hfold : ∀ (causes pile : List Nat), s.Piled pile → (∀ c ∈ causes, c < id) →
        s.Piled (causes.foldl (s.visit depth) pile) ∧
          (∀ c ∈ causes, c ∈ causes.foldl (s.visit depth) pile) ∧
          ∀ n ∈ pile, n ∈ causes.foldl (s.visit depth) pile := by
      intro causes
      induction causes with
      | nil => exact fun pile hpile _ => ⟨hpile, by simp, fun n hn => hn⟩
      | cons c causes ihc =>
        intro pile hpile hcauses
        rw [List.forall_mem_cons] at hcauses
        obtain ⟨hpile', hc, hold⟩ := ih c pile hpile (by omega) (by omega)
        obtain ⟨hpile'', hrest, hold'⟩ := ihc (s.visit depth pile c) hpile' hcauses.2
        exact ⟨hpile'', List.forall_mem_cons.mpr ⟨hold' c hc, hrest⟩, fun n hn => hold' n (hold n hn)⟩
    unfold visit
    split_ifs with hdone
    · exact ⟨hpile, hdone, fun n hn => hn⟩
    · obtain ⟨hpile', hcauses, hold⟩ := hfold (s.causesOf id) pile hpile (hlt id)
      dsimp only
      split_ifs with hmem
      · exact ⟨hpile', hmem.resolve_right (by omega), hold⟩
      · push Not at hmem
        exact ⟨⟨hmem.1, hid, hcauses, hpile'⟩, List.mem_cons_self, fun n hn =>
          List.mem_cons_of_mem _ (hold n hn)⟩

theorem gather_eq_ok (hlt : ∀ n, ∀ c ∈ s.causesOf n, c < n) (depth : Nat) (pile : List Nat) (hid : id < s.size) :
    s.gather depth pile id = .ok (s.visit depth pile id) := by
  induction depth generalizing pile id with
  | zero => rfl
  | succ depth ih =>
    unfold gather visit
    split_ifs with hdone
    · rfl
    obtain ⟨⟨terms, cause⟩, hi⟩ : ∃ i, s.get? id = some i := ⟨_, Array.getElem?_eq_getElem hid⟩
    have hnot : ¬ s.size ≤ id := by omega
    rw [get, hi]
    cases cause with
    | fact f =>
      have hcauses : s.causesOf id = [] := by rw [causesOf, hi]
      simp [bind, Except.bind, hcauses, hdone, hnot]
    | derived first second =>
      have hcauses : s.causesOf id = [first, second] := by rw [causesOf, hi]
      have hfirst : first < id := hlt id first (by simp [hcauses])
      have hsecond : second < id := hlt id second (by simp [hcauses])
      simp [bind, Except.bind, hcauses, hnot, ih _ (hfirst.trans hid), ih _ (hsecond.trans hid)]

theorem exists_piled (hlt : ∀ n, ∀ c ∈ s.causesOf n, c < n) (hid : id < s.size) :
    ∃ pile, s.support id = pile.reverse ∧ s.Piled pile ∧ id ∈ pile := by
  obtain ⟨hpile, hmem, -⟩ := visit_spec hlt s.size id [] trivial hid hid
  exact ⟨_, rfl, hpile, hmem⟩

theorem mem_support_of_restsOn (hlt : ∀ n, ∀ c ∈ s.causesOf n, c < n) (hid : id < s.size)
    (h : s.RestsOn id n) : n ∈ s.support id := by
  obtain ⟨pile, hpile, hpiled, hmem⟩ := exists_piled hlt hid
  rw [hpile, List.mem_reverse]
  induction h with
  | refl => exact hmem
  | tail _ hc ih => exact hpiled.mem_of_mem_causesOf ih hc

theorem restsOn_of_mem_visit (depth : Nat) (pile : List Nat) (id : Nat) (hn : n ∈ s.visit depth pile id) :
    n ∈ pile ∨ s.RestsOn id n := by
  induction depth generalizing pile id with
  | zero => exact Or.inl hn
  | succ depth ih =>
    have hfold : ∀ (causes pile : List Nat), n ∈ causes.foldl (s.visit depth) pile →
        n ∈ pile ∨ ∃ c ∈ causes, s.RestsOn c n := by
      intro causes
      induction causes with
      | nil => exact fun pile hn => Or.inl hn
      | cons c causes ihc =>
        intro pile hn
        rcases ihc _ hn with hn | ⟨c', hc', hrests⟩
        · exact (ih pile c hn).imp_right fun hrests => ⟨c, List.mem_cons_self, hrests⟩
        · exact Or.inr ⟨c', List.mem_cons_of_mem _ hc', hrests⟩
    have hcauses : n ∈ (s.causesOf id).foldl (s.visit depth) pile → n ∈ pile ∨ s.RestsOn id n := by
      intro hn
      refine (hfold _ _ hn).imp_right ?_
      rintro ⟨c, hc, hrests⟩
      exact hrests.head hc
    unfold visit at hn
    dsimp only at hn
    split_ifs at hn
    · exact Or.inl hn
    · exact hcauses hn
    · rcases List.mem_cons.mp hn with rfl | hn
      · exact Or.inr .refl
      · exact hcauses hn

theorem restsOn_of_mem_support (hn : n ∈ s.support id) : s.RestsOn id n :=
  (restsOn_of_mem_visit s.size [] id (List.mem_reverse.mp hn)).resolve_left (List.not_mem_nil)

end Store

/-! ## Nodes -/

section nodes

theorem getElem?_filterMap_of_isSome {α β : Type} {f : α → Option β} {l : List α}
    (h : ∀ a ∈ l, (f a).isSome) (k : Nat) : (l.filterMap f)[k]? = l[k]?.bind f := by
  induction l generalizing k with
  | nil => rfl
  | cons a l ih =>
    rw [List.forall_mem_cons] at h
    obtain ⟨b, hb⟩ := Option.isSome_iff_exists.mp h.1
    rw [List.filterMap_cons_some hb]
    cases k with
    | zero => exact hb.symm
    | succ k => simpa using ih h.2 k

variable {s : Store P V S M} {id n c : Nat}

theorem Store.mapM_get_eq_ok {α : Type} (f : Nat → Incompatibility P V S M → α) {l : List Nat}
    (hl : ∀ n ∈ l, n < s.size) :
    (l.mapM fun n => do return f n (← s.get n) : Except (Violation P V S) (List α)) =
      .ok (l.filterMap fun n => (s.get? n).map (f n)) := by
  induction l with
  | nil => rfl
  | cons n l ih =>
    rw [List.forall_mem_cons] at hl
    obtain ⟨i, hi⟩ : ∃ i, s.get? n = some i := ⟨_, Array.getElem?_eq_getElem hl.1⟩
    rw [List.mapM_cons, ih hl.2, Store.get, hi]
    simp [bind, Except.bind, pure, Except.pure, hi]

namespace Explanation

theorem build_eq_ok (hlt : ∀ n, ∀ c ∈ s.causesOf n, c < n) (hid : id < s.size) :
    build s id = .ok (ofStore s id) := by
  obtain ⟨pile, hpile, hpiled, -⟩ := Store.exists_piled hlt hid
  have hstored : ∀ n ∈ s.support id, n < s.size := by
    intro n hn
    rw [hpile, List.mem_reverse] at hn
    exact hpiled.lt_size hn
  have hnodes := Store.mapM_get_eq_ok (s.toNode (s.support id)) hstored
  unfold build
  rw [Store.gather_eq_ok hlt _ _ hid]
  change (do
    let nodes ← (s.support id).mapM fun n => do return s.toNode (s.support id) n (← s.get n)
    .ok ⟨nodes.toArray, (s.support id).idxOf id⟩ : Except (Violation P V S) (Explanation P V S M)) = _
  rw [hnodes]
  rfl

theorem getElem?_ofStore (hlt : ∀ n, ∀ c ∈ s.causesOf n, c < n) (hid : id < s.size) (k : Nat) :
    (ofStore s id).nodes[k]? =
      (s.support id)[k]?.bind fun n => (s.get? n).map (s.toNode (s.support id) n) := by
  obtain ⟨pile, hpile, hpiled, -⟩ := Store.exists_piled hlt hid
  have hsome : ∀ n ∈ s.support id, ((s.get? n).map (s.toNode (s.support id) n)).isSome := by
    intro n hn
    rw [hpile, List.mem_reverse] at hn
    have hlt : n < s.arena.size := hpiled.lt_size hn
    simp [Store.get?, hlt]
  rw [ofStore, List.getElem?_toArray, getElem?_filterMap_of_isSome hsome]

theorem getElem?_idxOf (hlt : ∀ n, ∀ c ∈ s.causesOf n, c < n) (hid : id < s.size)
    (hn : n ∈ s.support id) :
    (ofStore s id).nodes[(s.support id).idxOf n]? = (s.get? n).map (s.toNode (s.support id) n) := by
  rw [getElem?_ofStore hlt hid, List.getElem?_idxOf hn, Option.bind_some]

/-- A node stands at the place of an incompatibility, after the causes of this one. -/
theorem exists_of_getElem?_ofStore (hlt : ∀ n, ∀ c ∈ s.causesOf n, c < n) (hid : id < s.size)
    {node : Node P V S M} {k : Nat} (hn : (ofStore s id).nodes[k]? = some node) :
    ∃ n i, s.get? n = some i ∧ node = s.toNode (s.support id) n i ∧
      ∀ c ∈ s.causesOf n, c ∈ s.support id ∧ (s.support id).idxOf c < k := by
  obtain ⟨pile, hpile, hpiled, -⟩ := Store.exists_piled hlt hid
  rw [getElem?_ofStore hlt hid, Option.bind_eq_some_iff] at hn
  obtain ⟨n, hk, hnode⟩ := hn
  obtain ⟨i, hi, rfl⟩ := Option.map_eq_some_iff.mp hnode
  refine ⟨n, i, hi, rfl, fun c hc => ?_⟩
  obtain ⟨hklt, rfl⟩ := List.getElem?_eq_some_iff.mp hk
  have hmem : (s.support id)[k] ∈ pile := by
    rw [← List.mem_reverse, ← hpile]
    exact List.getElem_mem hklt
  have hplace : (s.support id).idxOf (s.support id)[k] = k :=
    List.Nodup.idxOf_getElem (hpile ▸ List.nodup_reverse.mpr hpiled.nodup) k hklt
  refine ⟨hpile ▸ List.mem_reverse.mpr (hpiled.mem_of_mem_causesOf hmem hc), ?_⟩
  have hbefore := hpiled.idxOf_lt hmem hc
  rwa [← hpile, hplace] at hbefore

theorem exists_cause_fact (hlt : ∀ n, ∀ c ∈ s.causesOf n, c < n) (hid : id < s.size)
    {f : Fact P V S M} {k : Nat} (hn : (ofStore s id).nodes[k]? = some (.fact f)) :
    ∃ n i, s.get? n = some i ∧ i.cause = .fact f := by
  obtain ⟨n, i, hi, hnode, -⟩ := exists_of_getElem?_ofStore hlt hid hn
  refine ⟨n, i, hi, ?_⟩
  unfold Store.toNode at hnode
  split at hnode
  · next hc =>
    cases hnode
    exact hc
  · cases hnode

theorem exists_cause_derived (hlt : ∀ n, ∀ c ∈ s.causesOf n, c < n) (hid : id < s.size)
    {terms : OrderedMap P (Term S)} {shared : Option Nat} {first second k : Nat}
    (hn : (ofStore s id).nodes[k]? = some (.derived terms shared first second)) :
    ∃ n cause cause', s.get? n = some ⟨terms, .derived cause cause'⟩ ∧
      (cause ∈ s.support id ∧ (s.support id).idxOf cause = first ∧ first < k) ∧
      cause' ∈ s.support id ∧ (s.support id).idxOf cause' = second ∧ second < k := by
  obtain ⟨n, ⟨terms', cause⟩, hi, hnode, hcauses⟩ := exists_of_getElem?_ofStore hlt hid hn
  unfold Store.toNode at hnode
  split at hnode
  · cases hnode
  · next a b hc =>
    obtain rfl : cause = .derived a b := hc
    cases hnode
    have hmem : s.causesOf n = [a, b] := by rw [Store.causesOf, hi]
    obtain ⟨ha, halt⟩ := hcauses a (by simp [hmem])
    obtain ⟨hb, hblt⟩ := hcauses b (by simp [hmem])
    exact ⟨n, a, b, hi, ⟨ha, rfl, halt⟩, hb, rfl, hblt⟩

theorem causesAt_idxOf (hlt : ∀ n, ∀ c ∈ s.causesOf n, c < n) (hid : id < s.size)
    (hn : n ∈ s.support id) :
    (ofStore s id).causesAt ((s.support id).idxOf n) = (s.causesOf n).map (s.support id).idxOf := by
  rw [causesAt, getElem?_idxOf hlt hid hn]
  unfold Store.causesOf
  rcases s.get? n with _ | ⟨terms, _ | ⟨first, second⟩⟩ <;> rfl

theorem restsOn_idxOf (hlt : ∀ n, ∀ c ∈ s.causesOf n, c < n) (hid : id < s.size)
    (h : s.RestsOn id n) : (ofStore s id).RestsOn (ofStore s id).root ((s.support id).idxOf n) := by
  induction h with
  | refl => exact .refl
  | tail hb hc ih =>
    refine ih.tail ?_
    rw [causesAt_idxOf hlt hid (Store.mem_support_of_restsOn hlt hid hb)]
    exact List.mem_map_of_mem hc

end Explanation

end nodes

end DependencyResolution
