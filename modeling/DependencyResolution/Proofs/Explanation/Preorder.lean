import DependencyResolution.Proofs.Explanation.Unfolding

/-!
# Walking in preorder

The walk through an explanation keeps a stack of places and marks a place when it comes off the stack, so a place
can wait below a copy of itself that is met earlier. It lists what a recursive descent lists that goes through the
first cause before the second and passes over what it has met: what stands on the stack is what the descent has
still to go through (`Explanation.Walks.foldl_descend`). Therefore every node that the root rests on is listed once,
each but the root after one that follows from it, and the packages are those that these nodes mention
(`Explanation.CausesFirst.preorder_exact`).
-/

namespace DependencyResolution

variable {P V S M : Type}

/-! ## Packages -/

/-- A node speaks of a package: a fact is about it, or one of the terms is. -/
inductive Node.Mentions : Node P V S M → P → Prop
  | root {p : P} {v : V} : Mentions (.fact (.root p v)) p
  | noVersions {p : P} {versions : S} : Mentions (.fact (.noVersions p versions)) p
  | depends {p needed : P} {versions allowed : S} : Mentions (.fact (.dependency p versions needed allowed)) p
  | needed {p needed : P} {versions allowed : S} : Mentions (.fact (.dependency p versions needed allowed)) needed
  | unusable {p : P} {versions : S} {reason : M} : Mentions (.fact (.unusable p versions reason)) p
  | term {terms : OrderedMap P (Term S)} {shared : Option Nat} {first second : Nat} {p : P} {t : Term S}
      (h : (p, t) ∈ terms.entries) : Mentions (.derived terms shared first second) p

theorem Node.mem_packages_iff {node : Node P V S M} {p : P} : p ∈ node.packages ↔ node.Mentions p := by
  constructor
  · intro h
    cases node with
    | fact f =>
      cases f with
      | root q v =>
        obtain rfl := List.mem_singleton.mp h
        exact .root
      | noVersions q versions =>
        obtain rfl := List.mem_singleton.mp h
        exact .noVersions
      | dependency q versions needed allowed =>
        rcases List.mem_pair.mp h with rfl | rfl
        · exact .depends
        · exact .needed
      | unusable q versions reason =>
        obtain rfl := List.mem_singleton.mp h
        exact .unusable
    | derived terms shared first second =>
      obtain ⟨⟨q, t⟩, hmem, rfl⟩ := List.mem_map.mp h
      exact .term hmem
  · intro h
    cases h with
    | root | noVersions | depends | needed | unusable => simp [Node.packages]
    | term h => exact List.mem_map_of_mem h

namespace Explanation

variable {e : Explanation P V S M} {k : Nat} {stack seen met : List Nat}

/-! ## The loop -/

/-- A walk from a stack on comes to its end, when nothing is left on the stack, and has met these places on its
way; `seen` were met before. -/
inductive Walks (e : Explanation P V S M) : (stack seen met : List Nat) → Prop
  | done {seen : List Nat} : Walks e [] seen []
  | skip {place : Nat} {stack seen met : List Nat} (hseen : place ∈ seen) (h : Walks e stack seen met) :
      Walks e (place :: stack) seen met
  | meet {place : Nat} {stack seen met : List Nat} (hnew : place ∉ seen)
      (h : Walks e (e.causesAt place ++ stack) (place :: seen) met) :
      Walks e (place :: stack) seen (place :: met)

/-- With enough steps a walk comes to its end. -/
theorem walks_walk (steps : Nat) (stack seen : List Nat) (hsteps : stack.length + 2 * e.unseen seen ≤ steps) :
    e.Walks stack seen (e.walk steps stack seen) := by
  induction steps generalizing stack seen with
  | zero =>
    obtain rfl : stack = [] := List.eq_nil_of_length_eq_zero (by omega)
    exact .done
  | succ steps ih =>
    cases stack with
    | nil => exact .done
    | cons place stack =>
      rw [List.length_cons] at hsteps
      unfold walk
      split_ifs with hp
      · exact .skip hp (ih stack seen (by omega))
      · have hroom := length_causesAt_add_unseen_le (e := e) hp
        exact .meet hp (ih _ _ (by rw [List.length_append]; omega))

theorem walks_preorder (e : Explanation P V S M) : e.Walks [e.root] [] e.preorder := by
  have hunseen : e.unseen [] = e.nodes.size := by simp [unseen]
  exact walks_walk _ _ _ (by rw [hunseen, List.length_singleton]; omega)

theorem Walks.unique {met' : List Nat} (h : e.Walks stack seen met) (h' : e.Walks stack seen met') :
    met = met' := by
  induction h generalizing met' with
  | done =>
    cases h'
    rfl
  | skip hseen _ ih =>
    cases h' with
    | skip _ h' => exact ih h'
    | meet hnew => exact absurd hseen hnew
  | meet hnew _ ih =>
    cases h' with
    | skip hseen => exact absurd hseen hnew
    | meet _ h' => rw [ih h']

theorem walks_root_iff : e.Walks [e.root] [] met ↔ met = e.preorder :=
  ⟨fun h => h.unique e.walks_preorder, fun h => h ▸ e.walks_preorder⟩

/-! ## The descent -/

/-- The places met so far, newest first, and then those that a descent from a place meets: it passes over a place
that has been met, and else goes through the causes, one after the other. -/
def CausesFirst.descend (h : e.CausesFirst) (met : List Nat) (place : Nat) : List Nat :=
  if place ∈ met then met
  else (e.causesAt place).attach.foldl (fun met cause => h.descend met cause.1) (place :: met)
termination_by place
decreasing_by exact h.lt cause.2

theorem CausesFirst.descend_of_mem (h : e.CausesFirst) {place : Nat} (hmem : place ∈ met) :
    h.descend met place = met := by
  rw [descend, if_pos hmem]

theorem CausesFirst.descend_of_not_mem (h : e.CausesFirst) {place : Nat} (hmem : place ∉ met) :
    h.descend met place = (e.causesAt place).foldl h.descend (place :: met) := by
  rw [descend, if_neg hmem, List.foldl_attach (f := h.descend)]

/-- What stands on the stack is what the descent has still to go through. -/
theorem Walks.foldl_descend (hwalk : e.Walks stack seen met) (h : e.CausesFirst) :
    stack.foldl h.descend seen = met.reverse ++ seen := by
  induction hwalk with
  | done => rfl
  | skip hseen _ ih => rw [List.foldl_cons, h.descend_of_mem hseen, ih]
  | @meet place stack seen met hnew _ ih =>
    rw [List.foldl_append] at ih
    rw [List.foldl_cons, h.descend_of_not_mem hnew, ih, List.reverse_cons, List.append_assoc,
      List.singleton_append]

/-- What a walk meets was on the stack, or follows as a cause from something that was met before it. -/
theorem Walks.exists_parent (hwalk : e.Walks stack seen met) {before after : List Nat}
    (hmet : met = before ++ k :: after) : k ∈ stack ∨ ∃ p ∈ before, k ∈ e.causesAt p := by
  induction hwalk generalizing before with
  | done => simp at hmet
  | skip _ _ ih => exact (ih hmet).imp_left (List.mem_cons_of_mem _)
  | meet hnew _ ih =>
    cases before with
    | nil =>
      cases hmet
      exact .inl List.mem_cons_self
    | cons place before =>
      rw [List.cons_append, List.cons.injEq] at hmet
      obtain ⟨rfl, hrest⟩ := hmet
      rcases ih hrest with hstack | ⟨p, hp, hk⟩
      · rcases List.mem_append.mp hstack with hcause | hstack
        · exact .inr ⟨_, List.mem_cons_self, hcause⟩
        · exact .inl (List.mem_cons_of_mem _ hstack)
      · exact .inr ⟨p, List.mem_cons_of_mem _ hp, hk⟩

/-! ## What is listed -/

theorem head?_preorder (e : Explanation P V S M) : e.preorder.head? = some e.root := by
  have hwalk := e.walks_preorder
  generalize e.preorder = met at hwalk
  cases hwalk with
  | skip hseen => cases hseen
  | meet => rfl

theorem CausesFirst.map_nodesInOrder (h : e.CausesFirst) (hroot : e.root < e.nodes.size) :
    e.nodesInOrder.map some = e.preorder.map (e.nodes[·]?) := by
  rw [nodesInOrder, List.map_filterMap]
  have hsome : ∀ k ∈ e.preorder, (e.nodes[k]?).map some = some e.nodes[k]? := by
    intro k hk
    rw [Array.getElem?_eq_getElem (h.lt_size hroot hk)]
    rfl
  rw [List.filterMap_congr hsome, List.filterMap_eq_map']

theorem mem_nodesInOrder_iff {node : Node P V S M} :
    node ∈ e.nodesInOrder ↔ ∃ k, e.RestsOn e.root k ∧ e.nodes[k]? = some node := by
  simp only [nodesInOrder, List.mem_filterMap, mem_preorder_iff]

variable [DecidableEq P]

theorem packages_eq_union (e : Explanation P V S M) :
    e.packages = e.nodesInOrder.flatMap Node.packages ∪ [] := rfl

theorem nodup_packages (e : Explanation P V S M) : e.packages.Nodup := by
  rw [packages_eq_union]
  exact List.Nodup.union _ .nil

theorem mem_packages_iff {p : P} :
    p ∈ e.packages ↔ ∃ k node, e.RestsOn e.root k ∧ e.nodes[k]? = some node ∧ node.Mentions p := by
  simp only [packages_eq_union, List.mem_union_iff, List.not_mem_nil, or_false, List.mem_flatMap, mem_nodesInOrder_iff,
    Node.mem_packages_iff]
  constructor
  · rintro ⟨node, ⟨k, hk, hn⟩, hp⟩
    exact ⟨k, node, hk, hn, hp⟩
  · rintro ⟨k, node, hk, hn, hp⟩
    exact ⟨node, ⟨k, hk, hn⟩, hp⟩

/-- The walk comes to its end. It lists the nodes that the root rests on, each once, in the order of the recursive
descent; so the root comes first and every other node after one that follows from it. The packages, each listed
once, are those that the nodes mention. -/
theorem CausesFirst.preorder_exact (h : e.CausesFirst) (hroot : e.root < e.nodes.size) :
    (∀ met, e.Walks [e.root] [] met ↔ met = e.preorder) ∧
    e.preorder = (h.descend [] e.root).reverse ∧
    e.preorder.Nodup ∧ (∀ k, k ∈ e.preorder ↔ e.RestsOn e.root k) ∧
    e.nodesInOrder.map some = e.preorder.map (e.nodes[·]?) ∧
    e.preorder.head? = some e.root ∧
    (∀ before k after, e.preorder = before ++ k :: after → k = e.root ∨ ∃ p ∈ before, k ∈ e.causesAt p) ∧
    e.packages.Nodup ∧
    ∀ p, p ∈ e.packages ↔ ∃ k node, e.RestsOn e.root k ∧ e.nodes[k]? = some node ∧ node.Mentions p := by
  have hdescend : h.descend [] e.root = e.preorder.reverse := by
    simpa using e.walks_preorder.foldl_descend h
  refine ⟨fun _ => walks_root_iff, by rw [hdescend, List.reverse_reverse], e.nodup_preorder,
    fun _ => mem_preorder_iff, h.map_nodesInOrder hroot, e.head?_preorder, fun before k after hsplit => ?_,
    e.nodup_packages, fun _ => mem_packages_iff⟩
  exact (e.walks_preorder.exists_parent hsplit).imp_left List.mem_singleton.mp

/-- Node 4 follows from nodes 3 and 2, and node 3 from nodes 2 and 1: node 2 waits on the stack, is met below node 3,
and is passed over when its turn comes. -/
def metBeforeItsTurn : Explanation ℕ ℕ (Ranges ℕ) String where
  nodes := #[.fact (.noVersions 2 (.atLeast 2)), .fact (.dependency 1 (.atLeast 1) 2 (.atLeast 2)),
    .derived (.single 3 (.positive .full)) none 0 1, .derived (.single 1 (.positive .full)) none 2 1,
    .derived .empty none 3 2]
  root := 4

theorem metBeforeItsTurn_preorder :
    ∃ h : metBeforeItsTurn.CausesFirst, metBeforeItsTurn.root < metBeforeItsTurn.nodes.size ∧
      metBeforeItsTurn.preorder = [4, 3, 2, 0, 1] ∧ (h.descend [] 4).reverse = [4, 3, 2, 0, 1] ∧
      (∀ k, k ∈ [4, 3, 2, 0, 1] ↔ metBeforeItsTurn.RestsOn 4 k) ∧
      ∀ p, p ∈ metBeforeItsTurn.packages ↔ ∃ k node, metBeforeItsTurn.RestsOn 4 k ∧
        metBeforeItsTurn.nodes[k]? = some node ∧ node.Mentions p := by
  have hcauses : metBeforeItsTurn.CausesFirst := causesFirst_iff_forall.mpr (by decide)
  have hroot : metBeforeItsTurn.root < metBeforeItsTurn.nodes.size := by decide
  have hpreorder : metBeforeItsTurn.preorder = [4, 3, 2, 0, 1] := by decide
  obtain ⟨-, hdescend, -, hmem, -, -, -, -, hpackages⟩ := hcauses.preorder_exact hroot
  exact ⟨hcauses, hroot, hpreorder, hdescend.symm.trans hpreorder, hpreorder ▸ hmem, hpackages⟩

end Explanation

end DependencyResolution
