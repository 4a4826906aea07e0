import DependencyResolution.Explanation.Collapse
import DependencyResolution.Proofs.Explanation.Refutation

/-!
# Collapsed explanations refute no less

Collapsing keeps every node at its place and gives it an image (`Explanation.CollapsesTo`), and where a
node refutes a selection its image does (`Explanation.Linked.refutes_collapse`): what is dropped is that
missing versions are not selected, which is true of the selection, and what takes missing versions in
mentions their package.
-/

namespace DependencyResolution

open LawfulVersionSet

variable {P V S M : Type} [DecidableEq P] [VersionSet S V]

namespace Explanation

/-! ## What becomes of a node -/

section collapse

variable {e : Explanation P V S M} {c c' : Collapsed P V S M} {place n first second sibling : Nat}
  {package : P} {versions : S} {node : Node P V S M}

/-- A node with these causes is one to fold: the first of its causes that says so says that there are
no versions of the package in the set, and the sibling is the other one. -/
def Folds (e : Explanation P V S M) (first second : Nat) (package : P) (versions : S) (sibling : Nat) :
    Prop :=
  e.noVersionsAt? first = some (package, versions) ∧ sibling = second ∨
    e.noVersionsAt? first = none ∧ e.noVersionsAt? second = some (package, versions) ∧ sibling = first

/-- What becomes of the node at a place. -/
inductive CollapsesTo (e : Explanation P V S M) (c : Collapsed P V S M) (place : Nat) :
    Node P V S M → Prop
  | fact {f : Fact P V S M} (hi : c.imageOf place = place) (hn : c.nodes[place]? = some (.fact f)) :
      CollapsesTo e c place (.fact f)
  | kept {terms : OrderedMap P (Term S)} {shared : Option Nat} {first second : Nat}
      (hfirst : e.noVersionsAt? first = none) (hsecond : e.noVersionsAt? second = none)
      (hi : c.imageOf place = place)
      (hn : c.nodes[place]? = some (.derived terms shared (c.imageOf first) (c.imageOf second))) :
      CollapsesTo e c place (.derived terms shared first second)
  | dropped {terms : OrderedMap P (Term S)} {shared : Option Nat} {first second sibling : Nat}
      {package : P} {versions : S} (hfolds : e.Folds first second package versions sibling)
      (hs : ∃ terms shared first second,
        c.nodes[c.imageOf sibling]? = some (.derived terms shared first second))
      (hi : c.imageOf place = c.imageOf sibling) :
      CollapsesTo e c place (.derived terms shared first second)
  | merged {terms : OrderedMap P (Term S)} {shared : Option Nat} {first second sibling : Nat}
      {package : P} {versions : S} {f merged : Fact P V S M}
      (hfolds : e.Folds first second package versions sibling)
      (hs : c.nodes[c.imageOf sibling]? = some (.fact f)) (hm : f.absorb package versions = some merged)
      (hi : c.imageOf place = place) (hn : c.nodes[place]? = some (.fact merged)) :
      CollapsesTo e c place (.derived terms shared first second)
  | unmerged {terms : OrderedMap P (Term S)} {shared : Option Nat} {first second sibling : Nat}
      {package : P} {versions : S} {f : Fact P V S M}
      (hfolds : e.Folds first second package versions sibling)
      (hs : c.nodes[c.imageOf sibling]? = some (.fact f)) (hm : f.absorb package versions = none)
      (hi : c.imageOf place = place)
      (hn : c.nodes[place]? = some (.derived terms shared first second)) :
      CollapsesTo e c place (.derived terms shared first second)

/-- So many nodes have been collapsed, each to something at or before its place. -/
structure Collapsed.Filled (c : Collapsed P V S M) (n : Nat) : Prop where
  nodes : c.nodes.size = n
  images : c.images.size = n
  image_le : ∀ k < n, c.imageOf k ≤ k

omit [DecidableEq P] [VersionSet S V] in
theorem Folds.sibling_eq (h : e.Folds first second package versions sibling) :
    sibling = first ∨ sibling = second :=
  h.elim (fun h => Or.inr h.2) fun h => Or.inl h.2.2

section push

omit [DecidableEq P] [VersionSet S V]

variable (h : c.Filled n) (node : Node P V S M) (image : Nat)

include h

theorem Collapsed.imageOf_push_of_lt {k : Nat} (hk : k < n) :
    imageOf ⟨c.nodes.push node, c.images.push image⟩ k = c.imageOf k := by
  have hlt : k < c.images.size := h.images.symm ▸ hk
  unfold imageOf
  rw [Array.getElem?_push_lt hlt, ← Array.getElem?_eq_getElem hlt]

theorem Collapsed.imageOf_push_self : imageOf ⟨c.nodes.push node, c.images.push image⟩ n = image := by
  unfold imageOf
  rw [← h.images, Array.getElem?_push_size]
  rfl

theorem Collapsed.getElem?_push_of_lt {k : Nat} (hk : k < n) : (c.nodes.push node)[k]? = c.nodes[k]? := by
  have hlt : k < c.nodes.size := h.nodes.symm ▸ hk
  rw [Array.getElem?_push_lt hlt, ← Array.getElem?_eq_getElem hlt]

theorem Collapsed.getElem?_push_self : (c.nodes.push node)[n]? = some node := by
  rw [← h.nodes, Array.getElem?_push_size]

theorem Collapsed.getElem?_imageOf_push {k : Nat} (hk : k < n) :
    (c.nodes.push node)[imageOf ⟨c.nodes.push node, c.images.push image⟩ k]? = c.nodes[c.imageOf k]? := by
  rw [imageOf_push_of_lt h node image hk, getElem?_push_of_lt h node ((h.image_le k hk).trans_lt hk)]

theorem Collapsed.Filled.push (hle : image ≤ n) :
    Filled ⟨c.nodes.push node, c.images.push image⟩ (n + 1) where
  nodes := by rw [Array.size_push, h.nodes]
  images := by rw [Array.size_push, h.images]
  image_le k hk := by
    rcases Nat.lt_succ_iff_lt_or_eq.mp hk with hlt | rfl
    · rw [imageOf_push_of_lt h node image hlt]
      exact h.image_le k hlt
    · rwa [imageOf_push_self h node image]

end push

theorem CollapsesTo.push (hc : e.CollapsesTo c place node) (h : c.Filled n) (hplace : place < n)
    (hcauses : ∀ cause ∈ node.causes, cause < n) (node' : Node P V S M) (image : Nat) :
    e.CollapsesTo ⟨c.nodes.push node', c.images.push image⟩ place node := by
  have himage := fun k hk => Collapsed.imageOf_push_of_lt (k := k) h node' image hk
  have hnode := Collapsed.getElem?_push_of_lt h node' hplace
  have hsibling : ∀ {terms shared first second package versions sibling},
      (∀ cause ∈ (Node.derived terms shared first second : Node P V S M).causes, cause < n) →
      e.Folds first second package versions sibling → sibling < n := by
    intro terms shared first second package versions sibling hcauses hfolds
    rcases hfolds.sibling_eq with rfl | rfl
    · exact hcauses _ (by simp [Node.causes])
    · exact hcauses _ (by simp [Node.causes])
  cases hc with
  | fact hi hn => exact .fact ((himage place hplace).trans hi) (hnode.trans hn)
  | @kept terms shared first second hfirst hsecond hi hn =>
    refine .kept hfirst hsecond ((himage place hplace).trans hi) ?_
    rw [himage first (hcauses first (by simp [Node.causes])),
      himage second (hcauses second (by simp [Node.causes]))]
    exact hnode.trans hn
  | @dropped terms shared first second sibling _ _ hfolds hs hi =>
    have hlt := hsibling hcauses hfolds
    refine .dropped hfolds ?_ ?_
    · rw [Collapsed.getElem?_imageOf_push h node' image hlt]
      exact hs
    · rw [himage place hplace, himage sibling hlt]
      exact hi
  | @merged terms shared first second sibling _ _ _ _ hfolds hs hm hi hn =>
    have hlt := hsibling hcauses hfolds
    refine .merged hfolds ?_ hm ((himage place hplace).trans hi) (hnode.trans hn)
    rw [Collapsed.getElem?_imageOf_push h node' image hlt]
    exact hs
  | @unmerged terms shared first second sibling _ _ _ hfolds hs hm hi hn =>
    have hlt := hsibling hcauses hfolds
    refine .unmerged hfolds ?_ hm ((himage place hplace).trans hi) (hnode.trans hn)
    rw [Collapsed.getElem?_imageOf_push h node' image hlt]
    exact hs

theorem Collapsed.fold_spec (h : c.Filled n) (hfolds : e.Folds first second package versions sibling)
    (hlt : sibling < n) (terms : OrderedMap P (Term S)) (shared : Option Nat) :
    ∃ node' image, c.fold (.derived terms shared first second) package versions sibling =
        ⟨c.nodes.push node', c.images.push image⟩ ∧ image ≤ n ∧
      e.CollapsesTo ⟨c.nodes.push node', c.images.push image⟩ n (.derived terms shared first second) := by
  have hsome : c.imageOf sibling < c.nodes.size :=
    h.nodes.symm ▸ (h.image_le sibling hlt).trans_lt hlt
  have hself : ∀ node : Node P V S M, c.push node = ⟨c.nodes.push node, c.images.push n⟩ := by
    intro node
    rw [Collapsed.push, h.nodes]
  unfold fold
  cases hs : c.nodes[c.imageOf sibling]? with
  | none =>
    rw [Array.getElem?_eq_none_iff] at hs
    omega
  | some s =>
    cases s with
    | derived terms' shared' first' second' =>
      refine ⟨_, _, rfl, ((h.image_le sibling hlt).trans_lt hlt).le, .dropped hfolds ?_ ?_⟩
      · rw [getElem?_imageOf_push h _ _ hlt]
        exact ⟨_, _, _, _, hs⟩
      · rw [imageOf_push_self h, imageOf_push_of_lt h _ _ hlt]
    | fact f =>
      have hs' := fun node => (getElem?_imageOf_push h node n hlt).trans hs
      dsimp only
      cases hm : f.absorb package versions with
      | none =>
        exact ⟨_, n, hself _, le_rfl, .unmerged hfolds (hs' _) hm (imageOf_push_self h _ _)
          (getElem?_push_self h _)⟩
      | some merged =>
        exact ⟨_, n, hself _, le_rfl, .merged hfolds (hs' _) hm (imageOf_push_self h _ _)
          (getElem?_push_self h _)⟩

/-- Collapsing the next node adds one node with an image, which is what becomes of it. -/
theorem collapseNode_spec (h : c.Filled n) (hcauses : ∀ cause ∈ node.causes, cause < n) :
    ∃ node' image, e.collapseNode c node = ⟨c.nodes.push node', c.images.push image⟩ ∧ image ≤ n ∧
      e.CollapsesTo ⟨c.nodes.push node', c.images.push image⟩ n node := by
  have hself : ∀ node : Node P V S M, c.push node = ⟨c.nodes.push node, c.images.push n⟩ := by
    intro node
    rw [Collapsed.push, h.nodes]
  cases node with
  | fact f =>
    exact ⟨_, n, hself _, le_rfl, .fact (Collapsed.imageOf_push_self h _ _)
      (Collapsed.getElem?_push_self h _)⟩
  | derived terms shared first second =>
    have hfirst := hcauses first (by simp [Node.causes])
    have hsecond := hcauses second (by simp [Node.causes])
    rw [collapseNode]
    cases hf : e.noVersionsAt? first with
    | some missing => exact Collapsed.fold_spec h (Or.inl ⟨hf, rfl⟩) hsecond terms shared
    | none =>
      cases hs : e.noVersionsAt? second with
      | some missing => exact Collapsed.fold_spec h (Or.inr ⟨hf, hs, rfl⟩) hfirst terms shared
      | none =>
        refine ⟨_, n, hself _, le_rfl, .kept hf hs (Collapsed.imageOf_push_self h _ _) ?_⟩
        rw [Collapsed.imageOf_push_of_lt h _ _ hfirst, Collapsed.imageOf_push_of_lt h _ _ hsecond]
        exact Collapsed.getElem?_push_self h _

def collapsed (e : Explanation P V S M) : Collapsed P V S M := e.nodes.foldl e.collapseNode ⟨#[], #[]⟩

/-- Where causes come first, collapsing does to every node what it should. -/
theorem collapsed_spec (hcauses : ∀ place (node : Node P V S M), e.nodes[place]? = some node →
      ∀ cause ∈ node.causes, cause < place) :
    e.collapsed.Filled e.nodes.size ∧
      ∀ place node, e.nodes[place]? = some node → e.CollapsesTo e.collapsed place node := by
  suffices hfold : e.collapsed.Filled e.nodes.size ∧
      ∀ place < e.nodes.size, ∀ node, e.nodes[place]? = some node →
        e.CollapsesTo e.collapsed place node by
    refine ⟨hfold.1, fun place node hnode => hfold.2 place ?_ node hnode⟩
    exact (Array.getElem?_eq_some_iff.mp hnode).1
  refine Array.foldl_induction (motive := fun n c => Collapsed.Filled c n ∧
    ∀ place < n, ∀ node, e.nodes[place]? = some node → e.CollapsesTo c place node) ?_ ?_
  · exact ⟨⟨rfl, rfl, by simp⟩, by simp⟩
  · rintro n c ⟨hfilled, hspec⟩
    have hnode : e.nodes[n.1]? = some e.nodes[n] := Array.getElem?_eq_getElem n.2
    obtain ⟨node', image, hc, hle, hnew⟩ := collapseNode_spec (e := e) hfilled (hcauses n.1 _ hnode)
    rw [hc]
    refine ⟨hfilled.push node' image hle, fun place hplace node hget => ?_⟩
    rcases Nat.lt_succ_iff_lt_or_eq.mp hplace with hlt | rfl
    · exact (hspec place hlt node hget).push hfilled hlt
        (fun cause hcause => (hcauses place node hget cause hcause).trans hlt) node' image
    · rw [hnode, Option.some.injEq] at hget
      exact hget ▸ hnew

theorem collapse_spec (hcauses : ∀ place (node : Node P V S M), e.nodes[place]? = some node →
      ∀ cause ∈ node.causes, cause < place) :
    ∃ c : Collapsed P V S M, e.collapse = ⟨c.nodes, c.imageOf e.root⟩ ∧
      ∀ place node, e.nodes[place]? = some node → e.CollapsesTo c place node :=
  ⟨e.collapsed, rfl, (collapsed_spec hcauses).2⟩

end collapse

omit [DecidableEq P] in
theorem causesAt_simplify {known : P → List V} (e : Explanation P V S M) (place : Nat) :
    (e.simplify known).causesAt place = e.causesAt place := by
  unfold causesAt simplify
  rw [Array.getElem?_map]
  rcases e.nodes[place]? with _ | _ | _ <;> rfl

end Explanation

/-! ## Facts that take missing versions in -/

section absorb

variable [LawfulVersionSet S V] {f merged : Fact P V S M} {package : P} {versions : S}

def Fact.IsProper : Fact P V S M → Prop
  | .root _ _ => True
  | .noVersions _ versions => Proper versions
  | .dependency _ versions _ allowed => Proper versions ∧ Proper allowed
  | .unusable _ versions _ => Proper versions

/-- A fact that mentions a package takes in that versions of it are missing: it mentions what it did, and
it is true only if it was, unless one of these versions is selected. -/
theorem Fact.absorb_spec (hf : f.IsProper) (hv : Proper versions)
    (hmem : package ∈ (Node.fact f : Node P V S M).packages) (h : f.absorb package versions = some merged) :
    merged.IsProper ∧ (Node.fact merged : Node P V S M).packages = (Node.fact f).packages ∧
      ∀ selection, (Fact.noVersions package versions : Fact P V S M).TrueIn selection →
        merged.TrueIn selection → f.TrueIn selection := by
  cases f with
  | root p v => cases h
  | unusable p others reason => cases h
  | noVersions p others =>
    cases h
    obtain rfl := List.mem_singleton.mp hmem
    refine ⟨proper_union hv hf, rfl, fun selection _ htrue v hs => ?_⟩
    have hunion := htrue v hs
    rw [contains_union v hv hf, Bool.or_eq_false_iff] at hunion
    exact hunion.2
  | dependency p set needed allowed =>
    obtain ⟨hset, hallowed⟩ := hf
    rw [Fact.absorb] at h
    split_ifs at h with hp
    · cases h
      refine ⟨⟨proper_union hset hv, hallowed⟩, rfl, fun selection _ htrue v hs hin => htrue v hs ?_⟩
      rw [contains_union v hset hv, hin, Bool.true_or]
    · cases h
      refine ⟨⟨hset, proper_union hallowed hv⟩, rfl, fun selection hmissing htrue v hs hin => ?_⟩
      -- the package is not the one that depends, so it is the one that is needed
      obtain rfl : package = needed :=
        (List.mem_cons.mp hmem).resolve_left (Ne.symm hp) |> List.mem_singleton.mp
      obtain ⟨w, hw, hwin⟩ := htrue v hs hin
      rw [contains_union w hallowed hv, hmissing w hw, Bool.or_false] at hwin
      exact ⟨w, hw, hwin⟩

end absorb

namespace Explanation

/-! ## Collapsing refutes no less -/

variable [LawfulVersionSet S V]

/-- Causes come first; a derived node mentions only packages of its causes, which mention one in common;
and the sets in facts are proper. -/
structure Linked (e : Explanation P V S M) : Prop where
  lt : ∀ (place : Nat) (node : Node P V S M), e.nodes[place]? = some node →
    ∀ cause ∈ node.causes, cause < place
  proper : ∀ (place : Nat) (f : Fact P V S M), e.nodes[place]? = some (.fact f) → f.IsProper
  resolves : ∀ (place : Nat) (terms : OrderedMap P (Term S)) (shared : Option Nat) (first second : Nat),
    e.nodes[place]? = some (.derived terms shared first second) →
    ∃ m n : Node P V S M, e.nodes[first]? = some m ∧ e.nodes[second]? = some n ∧
      (∃ p ∈ m.packages, p ∈ n.packages) ∧ ∀ p ∈ terms.keys, p ∈ m.packages ∨ p ∈ n.packages

section linked

variable {e : Explanation P V S M} {c : Collapsed P V S M} {place first second sibling cause : Nat}
  {package : P} {versions : S} {node : Node P V S M} {f : Fact P V S M} {selection : P → Option V}
  {terms : OrderedMap P (Term S)} {shared : Option Nat}

omit [DecidableEq P] [VersionSet S V] [LawfulVersionSet S V] in
theorem noVersionsAt?_eq_some (h : e.noVersionsAt? place = some (package, versions)) :
    e.nodes[place]? = some (.fact (.noVersions package versions)) := by
  unfold noVersionsAt? at h
  split at h
  · next hn =>
    cases h
    exact hn
  · cases h

omit [DecidableEq P] in
theorem Linked.sibling_spec (h : e.Linked)
    (hn : e.nodes[place]? = some (.derived terms shared first second))
    (hfolds : e.Folds first second package versions sibling) :
    Proper versions ∧ sibling < place ∧ ∃ node, e.nodes[sibling]? = some node ∧ package ∈ node.packages ∧
      ∀ p ∈ terms.keys, p ∈ node.packages := by
  obtain ⟨m, n, hm, hn', ⟨p, hpm, hpn⟩, hkeys⟩ := h.resolves place terms shared first second hn
  have hlt := h.lt place _ hn
  rcases hfolds with ⟨hfirst, rfl⟩ | ⟨-, hsecond, rfl⟩
  · have hleaf := noVersionsAt?_eq_some hfirst
    cases hm.symm.trans hleaf
    obtain rfl := List.mem_singleton.mp hpm
    refine ⟨h.proper _ _ hleaf, hlt sibling (by simp [Node.causes]), n, hn', hpn, fun q hq => ?_⟩
    refine (hkeys q hq).elim (fun hqm => ?_) id
    rwa [List.mem_singleton.mp hqm]
  · have hleaf := noVersionsAt?_eq_some hsecond
    cases hn'.symm.trans hleaf
    obtain rfl := List.mem_singleton.mp hpn
    refine ⟨h.proper _ _ hleaf, hlt sibling (by simp [Node.causes]), m, hm, hpm, fun q hq => ?_⟩
    refine (hkeys q hq).elim id fun hqn => ?_
    rwa [List.mem_singleton.mp hqn]

theorem Linked.packages_subset (h : e.Linked)
    (hspec : ∀ place (node : Node P V S M), e.nodes[place]? = some node → e.CollapsesTo c place node)
    (hn : e.nodes[place]? = some node) (hf : c.nodes[c.imageOf place]? = some (.fact f)) :
    c.imageOf place = place ∧ f.IsProper ∧ ∀ p ∈ node.packages, p ∈ (Node.fact f : Node P V S M).packages := by
  -- causes have smaller places
  induction place using Nat.strong_induction_on generalizing node f with
  | _ place ih =>
    cases hspec place node hn with
    | fact hi hn' =>
      rw [hi, hn', Option.some.injEq, Node.fact.injEq] at hf
      subst hf
      exact ⟨hi, h.proper place _ hn, fun p hp => hp⟩
    | kept _ _ hi hn' =>
      rw [hi, hn'] at hf
      cases hf
    | dropped _ hs hi =>
      obtain ⟨_, _, _, _, hs⟩ := hs
      rw [hi, hs] at hf
      cases hf
    | unmerged _ _ _ hi hn' =>
      rw [hi, hn'] at hf
      cases hf
    | merged hfolds hs hm hi hn' =>
      rw [hi, hn', Option.some.injEq, Node.fact.injEq] at hf
      subst hf
      obtain ⟨hproper, hlt, n, hsibling, hpackage, hkeys⟩ := h.sibling_spec hn hfolds
      obtain ⟨-, hfproper, hsub⟩ := ih _ hlt hsibling hs
      obtain ⟨hmproper, hpackages, -⟩ :=
        Fact.absorb_spec hfproper hproper (hsub _ hpackage) hm
      exact ⟨hi, hmproper, fun p hp => hpackages ▸ hsub p (hkeys p hp)⟩

omit [DecidableEq P] [LawfulVersionSet S V] in
theorem Folds.eq_sibling (h : e.Folds first second package versions sibling)
    (hmissing : ∀ (place : Nat) p (versions : S), e.nodes[place]? = some (.fact (.noVersions p versions)) →
      (Fact.noVersions p versions : Fact P V S M).TrueIn selection)
    (hr : e.Refutes selection cause) (hmem : cause = first ∨ cause = second) :
    (Fact.noVersions package versions : Fact P V S M).TrueIn selection ∧ cause = sibling := by
  have hleaf : ∀ {place}, e.noVersionsAt? place = some (package, versions) →
      (Fact.noVersions package versions : Fact P V S M).TrueIn selection ∧ cause ≠ place := by
    intro place hplace
    have hn := noVersionsAt?_eq_some hplace
    refine ⟨hmissing place package versions hn, ?_⟩
    rintro rfl
    exact (refutes_fact_iff hn).mp hr (hmissing _ package versions hn)
  rcases h with ⟨hfirst, rfl⟩ | ⟨-, hsecond, rfl⟩
  · exact ⟨(hleaf hfirst).1, hmem.resolve_left (hleaf hfirst).2⟩
  · exact ⟨(hleaf hsecond).1, hmem.resolve_right (hleaf hsecond).2⟩

/-- Where the versions that are said to be missing are not selected, an explanation refutes a selection
also when it is collapsed. -/
theorem Linked.refutes_collapse (h : e.Linked)
    (hmissing : ∀ (place : Nat) p (versions : S), e.nodes[place]? = some (.fact (.noVersions p versions)) →
      (Fact.noVersions p versions : Fact P V S M).TrueIn selection)
    (hr : e.Refutes selection e.root) : e.collapse.Refutes selection e.collapse.root := by
  obtain ⟨c, hc, hspec⟩ := collapse_spec h.lt
  rw [hc]
  suffices himage : ∀ place, e.Refutes selection place →
      Refutes ⟨c.nodes, c.imageOf e.root⟩ selection (c.imageOf place) from himage e.root hr
  intro place hr
  -- a node refutes the selection through the same cause as before, or through its image
  induction hr with
  | @fact place f hn hf =>
    cases hspec place _ hn with
    | fact hi hn' =>
      rw [hi]
      exact .fact hn' hf
  | @cause place cause hcause hr ih =>
    obtain ⟨terms, shared, first, second, hn, hmem⟩ := mem_causesAt_iff.mp hcause
    cases hspec place _ hn with
    | kept _ _ hi hn' =>
      rw [hi]
      refine .cause ?_ ih
      exact mem_causesAt_iff.mpr ⟨_, _, _, _, hn', hmem.imp (congrArg _) (congrArg _)⟩
    | dropped hfolds _ hi =>
      rw [hi, ← (hfolds.eq_sibling hmissing hr hmem).2]
      exact ih
    | merged hfolds hs hm hi hn' =>
      obtain ⟨htrue, rfl⟩ := hfolds.eq_sibling hmissing hr hmem
      obtain ⟨hproper, -, n, hsibling, hpackage, -⟩ := h.sibling_spec hn hfolds
      obtain ⟨-, hfproper, hsub⟩ := h.packages_subset hspec hsibling hs
      have hmono := (Fact.absorb_spec hfproper hproper (hsub _ hpackage) hm).2.2 selection htrue
      rw [hi]
      exact .fact hn' fun hall => (refutes_fact_iff hs).mp ih (hmono hall)
    | unmerged hfolds hs _ hi hn' =>
      obtain ⟨-, rfl⟩ := hfolds.eq_sibling hmissing hr hmem
      obtain ⟨-, -, n, hsibling, -⟩ := h.sibling_spec hn hfolds
      rw [(h.packages_subset hspec hsibling hs).1] at ih
      rw [hi]
      exact .cause (mem_causesAt_iff.mpr ⟨_, _, _, _, hn', hmem⟩) ih

theorem Linked.getElem?_collapse (h : e.Linked) (hn : e.nodes[e.root]? = some (.fact f)) :
    e.collapse.nodes[e.collapse.root]? = some (.fact f) := by
  obtain ⟨c, hc, hspec⟩ := collapse_spec h.lt
  rw [hc]
  cases hspec e.root _ hn with
  | fact hi hn' =>
    rw [← hi] at hn'
    exact hn'

end linked

end Explanation

end DependencyResolution
