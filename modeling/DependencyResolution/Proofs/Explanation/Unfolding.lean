import DependencyResolution.Proofs.Explanation.Sharing

/-!
# Explanations as trees

Read without its sharing a node is a tree (`Explanation.Unfolds`). Collapsing and simplifying are recursions
on such a tree, the causes before what follows from them (`Tree.collapse`, `Tree.simplify`). A pass over the
nodes mirrors a recursion if what stands for a node afterwards unfolds to what the recursion makes of its
tree, and edges lead to what stands for the causes (`Explanation.Mirrors`).

It does so where every node turns into what it should, given what its causes turn into
(`Explanation.Collapses.mirrors`, `Explanation.Simplifies.mirrors`). Collapsing and simplifying an explanation
do that to every node (`Explanation.CausesFirst.collapses`, `Explanation.CausesFirst.simplifies`).
-/

namespace DependencyResolution

/-! ## Trees -/

inductive Tree (P V S M : Type) where
  | fact (f : Fact P V S M)
  | derived (terms : OrderedMap P (Term S)) (shared : Option Nat) (first second : Tree P V S M)

namespace Tree

variable {P V S M : Type}

/-- The package and the set of a leaf that says that there are no versions. -/
def noVersions? : Tree P V S M → Option (P × S)
  | .fact (.noVersions package versions) => some (package, versions)
  | _ => none

variable [VersionSet S V]

/-- What a tree becomes next to missing versions: a derived one stays, and a fact takes them in, if it can. -/
def absorb [DecidableEq P] (package : P) (versions : S) : Tree P V S M → Option (Tree P V S M)
  | .fact f => (f.absorb package versions).map .fact
  | .derived terms shared first second => some (.derived terms shared first second)

/-- The tree with missing versions folded into what stands next to them, which is collapsed before; where that
cannot take them in the tree stays as it is. -/
def collapse [DecidableEq P] : Tree P V S M → Tree P V S M
  | .fact f => .fact f
  | .derived terms shared first second =>
    match first.noVersions?, second.noVersions? with
    | some (package, versions), _ =>
      (second.collapse.absorb package versions).getD (.derived terms shared first second)
    | none, some (package, versions) =>
      (first.collapse.absorb package versions).getD (.derived terms shared first second)
    | none, none => .derived terms shared first.collapse second.collapse

/-- The tree with the sets of its facts simplified against the known versions. -/
def simplify (known : P → List V) : Tree P V S M → Tree P V S M
  | .fact f => .fact (f.simplify known)
  | .derived terms shared first second =>
    .derived terms shared (first.simplify known) (second.simplify known)

end Tree

namespace Explanation

/-! ## Unfolding -/

section unfolds

variable {P V S M : Type} {e : Explanation P V S M} {k : Nat} {t t' : Tree P V S M}

/-- What the node at a place says, read as a tree. -/
inductive Unfolds (e : Explanation P V S M) : Nat → Tree P V S M → Prop
  | fact {k : Nat} {f : Fact P V S M} (hn : e.nodes[k]? = some (.fact f)) : Unfolds e k (.fact f)
  | derived {k : Nat} {terms : OrderedMap P (Term S)} {shared : Option Nat} {first second : Nat}
      {t t' : Tree P V S M} (hn : e.nodes[k]? = some (.derived terms shared first second))
      (ht : Unfolds e first t) (ht' : Unfolds e second t') : Unfolds e k (.derived terms shared t t')

theorem Unfolds.unique (h : e.Unfolds k t) (h' : e.Unfolds k t') : t = t' := by
  induction h generalizing t' with
  | fact hn =>
    cases h' with
    | fact hn' =>
      cases hn.symm.trans hn'
      rfl
    | derived hn' => cases hn.symm.trans hn'
  | derived hn _ _ ih ih' =>
    cases h' with
    | fact hn' => cases hn.symm.trans hn'
    | derived hn' hu hu' =>
      cases hn.symm.trans hn'
      rw [ih hu, ih' hu']

theorem causesFirst_iff_forall :
    e.CausesFirst ↔ ∀ k < e.nodes.size, ∀ c ∈ e.causesAt k, c < k := by
  refine ⟨fun h k _ c hc => h.lt hc, fun h k node hn c hc => ?_⟩
  refine h k (Array.getElem?_eq_some_iff.mp hn).1 c ?_
  rw [causesAt, hn]
  exact hc

theorem CausesFirst.lt_of_derived (h : e.CausesFirst) {terms : OrderedMap P (Term S)} {shared : Option Nat}
    {first second : Nat} (hn : e.nodes[k]? = some (.derived terms shared first second)) :
    first < k ∧ second < k :=
  ⟨h k _ hn first List.mem_cons_self, h k _ hn second (List.mem_cons_of_mem _ List.mem_cons_self)⟩

/-- Where causes come first every node unfolds, to one tree. -/
theorem CausesFirst.existsUnique_unfolds (h : e.CausesFirst) (hk : k < e.nodes.size) : ∃! t, e.Unfolds k t := by
  induction k using Nat.strong_induction_on with
  | _ k ih =>
    obtain ⟨node, hn⟩ : ∃ node, e.nodes[k]? = some node := ⟨_, Array.getElem?_eq_getElem hk⟩
    cases node with
    | fact f => exact ⟨.fact f, .fact hn, fun t ht => ht.unique (.fact hn)⟩
    | derived terms shared first second =>
      obtain ⟨hfirst, hsecond⟩ := h.lt_of_derived hn
      obtain ⟨t, ht, -⟩ := ih first hfirst (hfirst.trans hk)
      obtain ⟨t', ht', -⟩ := ih second hsecond (hsecond.trans hk)
      exact ⟨.derived terms shared t t', .derived hn ht ht', fun u hu => hu.unique (.derived hn ht ht')⟩

theorem Unfolds.noVersions? (h : e.Unfolds k t) : t.noVersions? = e.noVersionsAt? k := by
  unfold noVersionsAt?
  cases h with
  | fact hn =>
    rw [hn]
    unfold Tree.noVersions?
    split <;> simp_all
  | derived hn =>
    rw [hn]
    rfl

end unfolds

/-! ## Mirroring a recursion -/

section mirrors

variable {P V S M : Type} {e e' : Explanation P V S M} {image : Nat → Nat} {k : Nat}

/-- What becomes of the edges from a node: they lead to what stands for the causes; or what stands for the node
stands for one of its causes; or it is a fact. -/
inductive Redirects (e e' : Explanation P V S M) (image : Nat → Nat) (k : Nat) : Prop
  | kept (hcauses : e'.causesAt (image k) = (e.causesAt k).map image)
  | dropped {cause : Nat} (hmem : cause ∈ e.causesAt k) (himage : image k = image cause)
  | fact (hfact : e'.isDerivedAt (image k) = false)

/-- One explanation comes from another by a recursion on trees, done once for each node: `image` gives the place
of what stands for a node, among the nodes that have been done. -/
structure Mirrors (e e' : Explanation P V S M) (recursion : Tree P V S M → Tree P V S M) (image : Nat → Nat)
    (done : Nat → Prop) : Prop where
  root : e'.root = image e.root
  unfolds : ∀ k t, done k → e.Unfolds k t → e'.Unfolds (image k) (recursion t)
  edges : ∀ k, done k → e.Redirects e' image k

theorem Mirrors.mono {recursion : Tree P V S M → Tree P V S M} {done done' : Nat → Prop}
    (h : e.Mirrors e' recursion image done) (hdone : ∀ k, done' k → done k) :
    e.Mirrors e' recursion image done' where
  root := h.root
  unfolds k t hk := h.unfolds k t (hdone k hk)
  edges k hk := h.edges k (hdone k hk)

/-! ### Collapsing -/

variable [DecidableEq P] [VersionSet S V] {nodes : Array (Node P V S M)} {done : Nat → Prop}
  {first second sibling : Nat} {package : P} {versions : S} {terms : OrderedMap P (Term S)} {shared : Option Nat}

/-- The causes of a node whose collapsed form is needed for its own: a leaf that says that there are no versions
is not, if it is folded. -/
def collapseNeeds (e : Explanation P V S M) (k : Nat) : List Nat :=
  match e.nodes[k]? with
  | some (.derived _ _ first second) =>
    match e.noVersionsAt? first, e.noVersionsAt? second with
    | some _, _ => [second]
    | none, some _ => [first]
    | none, none => [first, second]
  | _ => []

omit [DecidableEq P] [VersionSet S V] in
theorem collapseNeeds_of_folds (hn : e.nodes[k]? = some (.derived terms shared first second))
    (hfolds : e.Folds first second package versions sibling) : e.collapseNeeds k = [sibling] := by
  rw [collapseNeeds, hn]
  rcases hfolds with ⟨hfirst, rfl⟩ | ⟨hfirst, hsecond, rfl⟩
  · simp only [hfirst]
  · simp only [hfirst, hsecond]

omit [DecidableEq P] [VersionSet S V] in
theorem collapseNeeds_of_none (hn : e.nodes[k]? = some (.derived terms shared first second))
    (hfirst : e.noVersionsAt? first = none) (hsecond : e.noVersionsAt? second = none) :
    e.collapseNeeds k = [first, second] := by
  rw [collapseNeeds, hn]
  simp only [hfirst, hsecond]

omit [DecidableEq P] [VersionSet S V] in
theorem mem_causesAt_of_mem_collapseNeeds {c : Nat} (hc : c ∈ e.collapseNeeds k) : c ∈ e.causesAt k := by
  unfold collapseNeeds at hc
  split at hc
  · next hn =>
    rw [causesAt_of_derived hn]
    split at hc
    · exact List.mem_cons_of_mem _ hc
    · rw [List.mem_singleton.mp hc]
      exact List.mem_cons_self
    · exact hc
  · cases hc

omit [DecidableEq P] [VersionSet S V] in
theorem mem_collapseNeeds_or_isSome {c : Nat} (hc : c ∈ e.causesAt k) :
    c ∈ e.collapseNeeds k ∨ (e.noVersionsAt? c).isSome := by
  obtain ⟨terms, shared, first, second, hn, hmem⟩ := mem_causesAt_iff.mp hc
  cases hfirst : e.noVersionsAt? first with
  | some missing =>
    rw [collapseNeeds_of_folds hn (Or.inl ⟨hfirst, rfl⟩), List.mem_singleton]
    exact hmem.symm.imp id fun h => by rw [h, hfirst]; rfl
  | none =>
    cases hsecond : e.noVersionsAt? second with
    | some missing =>
      rw [collapseNeeds_of_folds hn (Or.inr ⟨hfirst, hsecond, rfl⟩), List.mem_singleton]
      exact hmem.imp id fun h => by rw [h, hsecond]; rfl
    | none =>
      rw [collapseNeeds_of_none hn hfirst hsecond, List.mem_pair]
      exact Or.inl hmem

/-- What becomes of the node at a place in some nodes when missing versions are folded. -/
inductive CollapsesAt (e : Explanation P V S M) (nodes : Array (Node P V S M)) (image : Nat → Nat) (k : Nat) :
    Prop
  | fact {f : Fact P V S M} (hn : e.nodes[k]? = some (.fact f)) (hi : image k = k)
      (hn' : nodes[k]? = some (.fact f))
  | kept {terms : OrderedMap P (Term S)} {shared : Option Nat} {first second : Nat}
      (hn : e.nodes[k]? = some (.derived terms shared first second))
      (hfirst : e.noVersionsAt? first = none) (hsecond : e.noVersionsAt? second = none)
      (hn' : nodes[image k]? = some (.derived terms shared (image first) (image second)))
  | dropped {terms : OrderedMap P (Term S)} {shared : Option Nat} {first second sibling : Nat} {package : P}
      {versions : S} (hn : e.nodes[k]? = some (.derived terms shared first second))
      (hfolds : e.Folds first second package versions sibling)
      (hs : ∃ terms shared first second, nodes[image sibling]? = some (.derived terms shared first second))
      (hi : image k = image sibling)
  | merged {terms : OrderedMap P (Term S)} {shared : Option Nat} {first second sibling : Nat} {package : P}
      {versions : S} {f merged : Fact P V S M} (hn : e.nodes[k]? = some (.derived terms shared first second))
      (hfolds : e.Folds first second package versions sibling) (hs : nodes[image sibling]? = some (.fact f))
      (hm : f.absorb package versions = some merged) (hn' : nodes[image k]? = some (.fact merged))
  | unmerged {terms : OrderedMap P (Term S)} {shared : Option Nat} {first second sibling : Nat} {package : P}
      {versions : S} {f : Fact P V S M} (hn : e.nodes[k]? = some (.derived terms shared first second))
      (hfolds : e.Folds first second package versions sibling) (hs : nodes[image sibling]? = some (.fact f))
      (hm : f.absorb package versions = none) (hi : image k = k)
      (hn' : nodes[k]? = some (.derived terms shared first second))

/-- Collapsing an explanation does to every node what it should. -/
theorem CausesFirst.collapsesAt (h : e.CausesFirst) (hk : k < e.nodes.size) :
    e.CollapsesAt e.collapse.nodes e.collapsed.imageOf k := by
  obtain ⟨node, hn⟩ : ∃ node, e.nodes[k]? = some node := ⟨_, Array.getElem?_eq_getElem hk⟩
  cases (collapsed_spec h).2 k node hn with
  | fact hi hn' => exact .fact hn hi hn'
  | kept hfirst hsecond hi hn' => exact .kept hn hfirst hsecond (by rw [hi]; exact hn')
  | dropped hfolds hs hi => exact .dropped hn hfolds hs hi
  | merged hfolds hs hm hi hn' => exact .merged hn hfolds hs hm (by rw [hi]; exact hn')
  | unmerged hfolds hs hm hi hn' => exact .unmerged hn hfolds hs hm hi hn'

theorem CollapsesAt.leaf (h : e.CollapsesAt nodes image k) (hk : e.noVersionsAt? k = some (package, versions)) :
    image k = k ∧ nodes[k]? = e.nodes[k]? := by
  have hn := noVersionsAt?_eq_some hk
  cases h with
  | fact hn' hi hf =>
    cases hn.symm.trans hn'
    exact ⟨hi, hf.trans hn.symm⟩
  | kept hn' | dropped hn' | merged hn' | unmerged hn' => cases hn.symm.trans hn'

theorem isSome_absorb_of_absorb {f merged : Fact P V S M} (h : f.absorb package versions = some merged)
    (package' : P) (versions' : S) : (merged.absorb package' versions').isSome := by
  cases f with
  | root | unusable => cases h
  | noVersions p others =>
    cases h
    rfl
  | dependency p set needed allowed =>
    rw [Fact.absorb] at h
    split_ifs at h <;> cases h <;> rw [Fact.absorb] <;> split_ifs <;> rfl

theorem CollapsesAt.eq_of_absorb_eq_none {f : Fact P V S M} (h : e.CollapsesAt nodes image k)
    (hf : nodes[image k]? = some (.fact f)) (hm : f.absorb package versions = none) :
    image k = k ∧ e.nodes[k]? = some (.fact f) := by
  cases h with
  | fact hn hi hn' =>
    rw [hi, hn'] at hf
    cases hf
    exact ⟨hi, hn⟩
  | kept _ _ _ hn' =>
    rw [hn'] at hf
    cases hf
  | dropped _ _ hs hi =>
    obtain ⟨_, _, _, _, hs⟩ := hs
    rw [hi, hs] at hf
    cases hf
  | merged _ _ _ hm' hn' =>
    rw [hn'] at hf
    cases hf
    have hsome := isSome_absorb_of_absorb hm' package versions
    rw [hm] at hsome
    cases hsome
  | unmerged _ _ _ _ hi hn' =>
    rw [hi, hn'] at hf
    cases hf

/-- The tree of a node that is folded collapses to what its sibling becomes. -/
theorem Unfolds.collapse_of_folds {t t' : Tree P V S M} (ht : e.Unfolds first t) (ht' : e.Unfolds second t')
    (hfolds : e.Folds first second package versions sibling) (terms : OrderedMap P (Term S))
    (shared : Option Nat) :
    ∃ u, e.Unfolds sibling u ∧ (Tree.derived terms shared t t').collapse =
      (u.collapse.absorb package versions).getD (.derived terms shared t t') := by
  rw [Tree.collapse, ht.noVersions?, ht'.noVersions?]
  rcases hfolds with ⟨hfirst, rfl⟩ | ⟨hfirst, hsecond, rfl⟩
  · exact ⟨t', ht', by simp only [hfirst]⟩
  · exact ⟨t, ht, by simp only [hfirst, hsecond]⟩

/-- Every node that has been done has turned into what it should; so have the causes that this takes, and leaves
that say that there are no versions have stayed. -/
structure Collapses (e : Explanation P V S M) (nodes : Array (Node P V S M)) (image : Nat → Nat)
    (done : Nat → Prop) : Prop where
  turns : ∀ k, done k → e.CollapsesAt nodes image k
  needs : ∀ k, done k → ∀ c ∈ e.collapseNeeds k, done c
  leaves : ∀ k package versions, e.noVersionsAt? k = some (package, versions) →
    image k = k ∧ nodes[k]? = e.nodes[k]?

namespace Collapses

variable (h : e.Collapses nodes image done)

include h

theorem done_sibling (hk : done k) (hn : e.nodes[k]? = some (.derived terms shared first second))
    (hfolds : e.Folds first second package versions sibling) : done sibling :=
  h.needs k hk sibling (by simp [collapseNeeds_of_folds hn hfolds])

theorem causes_of_unmerged {f : Fact P V S M} (hk : done k)
    (hn : e.nodes[k]? = some (.derived terms shared first second))
    (hfolds : e.Folds first second package versions sibling) (hs : nodes[image sibling]? = some (.fact f))
    (hm : f.absorb package versions = none) {c : Nat} (hc : c = first ∨ c = second) :
    image c = c ∧ ∃ g, e.nodes[c]? = some (.fact g) ∧ nodes[c]? = some (.fact g) := by
  have hleaf : ∀ {c}, e.noVersionsAt? c = some (package, versions) →
      image c = c ∧ ∃ g, e.nodes[c]? = some (.fact g) ∧ nodes[c]? = some (.fact g) := by
    intro c hc
    obtain ⟨himage, hsame⟩ := h.leaves c package versions hc
    have hfact := noVersionsAt?_eq_some hc
    exact ⟨himage, _, hfact, hsame.trans hfact⟩
  have hsibling : image sibling = sibling ∧
      ∃ g, e.nodes[sibling]? = some (.fact g) ∧ nodes[sibling]? = some (.fact g) := by
    obtain ⟨hself, hf⟩ := (h.turns sibling (h.done_sibling hk hn hfolds)).eq_of_absorb_eq_none hs hm
    rw [hself] at hs
    exact ⟨hself, f, hf, hs⟩
  rcases hfolds with ⟨hfirst, rfl⟩ | ⟨-, hsecond, rfl⟩
  · rcases hc with rfl | rfl
    · exact hleaf hfirst
    · exact hsibling
  · rcases hc with rfl | rfl
    · exact hsibling
    · exact hleaf hsecond

theorem unfolds (hcauses : e.CausesFirst) {t : Tree P V S M} (hk : done k) (ht : e.Unfolds k t) :
    Unfolds ⟨nodes, image e.root⟩ (image k) t.collapse := by
  -- causes have smaller places
  induction k using Nat.strong_induction_on generalizing t with
  | _ k ih =>
    cases ht with
    | fact hn =>
      cases h.turns k hk with
      | fact hn' hi hf =>
        cases hn.symm.trans hn'
        exact .fact (by rw [hi]; exact hf)
      | kept hn' | dropped hn' | merged hn' | unmerged hn' => cases hn.symm.trans hn'
    | @derived _ terms shared first second t t' hn ht ht' =>
      have hlt := hcauses.lt_of_derived hn
      have hsibling : ∀ {package versions sibling}, e.Folds first second package versions sibling →
          ∃ u : Tree P V S M, Unfolds ⟨nodes, image e.root⟩ (image sibling) u.collapse ∧
            (Tree.derived terms shared t t').collapse =
              (u.collapse.absorb package versions).getD (.derived terms shared t t') := by
        intro package versions sibling hfolds
        obtain ⟨u, hu, hcollapse⟩ := ht.collapse_of_folds ht' hfolds terms shared
        have hlts : sibling < k := by
          rcases hfolds.sibling_eq with rfl | rfl
          · exact hlt.1
          · exact hlt.2
        exact ⟨u, ih sibling hlts (h.done_sibling hk hn hfolds) hu, hcollapse⟩
      cases h.turns k hk with
      | fact hn' => cases hn.symm.trans hn'
      | kept hn' hfirst hsecond hnew =>
        cases hn.symm.trans hn'
        have hdone := h.needs k hk
        rw [collapseNeeds_of_none hn hfirst hsecond, List.forall_mem_cons, List.forall_mem_singleton] at hdone
        rw [Tree.collapse, ht.noVersions?, ht'.noVersions?, hfirst, hsecond]
        exact .derived hnew (ih first hlt.1 hdone.1 ht) (ih second hlt.2 hdone.2 ht')
      | dropped hn' hfolds hs hi =>
        cases hn.symm.trans hn'
        obtain ⟨u, hu, hcollapse⟩ := hsibling hfolds
        obtain ⟨_, _, _, _, hs⟩ := hs
        rw [hi, hcollapse]
        -- what is derived takes missing versions in by staying as it is
        generalize u.collapse = v at hu
        cases hu with
        | fact hf => cases hs.symm.trans hf
        | derived hd hv hv' => exact .derived hd hv hv'
      | merged hn' hfolds hs hm hnew =>
        cases hn.symm.trans hn'
        obtain ⟨u, hu, hcollapse⟩ := hsibling hfolds
        rw [hcollapse, hu.unique (.fact hs), Tree.absorb, hm]
        exact .fact hnew
      | unmerged hn' hfolds hs hm hi hnew =>
        cases hn.symm.trans hn'
        obtain ⟨u, hu, hcollapse⟩ := hsibling hfolds
        rw [hcollapse, hu.unique (.fact hs), Tree.absorb, hm, hi]
        obtain ⟨-, g, hg, hg'⟩ := h.causes_of_unmerged hk hn hfolds hs hm (Or.inl rfl)
        obtain ⟨-, g', hf, hf'⟩ := h.causes_of_unmerged hk hn hfolds hs hm (Or.inr rfl)
        rw [ht.unique (.fact hg), ht'.unique (.fact hf)]
        exact .derived hnew (.fact hg') (.fact hf')

theorem redirects (hk : done k) : e.Redirects ⟨nodes, image e.root⟩ image k := by
  cases h.turns k hk with
  | fact hn hi hn' => exact .fact (isDerivedAt_of_fact (by rw [hi]; exact hn'))
  | kept hn hfirst hsecond hn' =>
    refine .kept ?_
    rw [causesAt_of_derived hn, causesAt_of_derived hn']
    rfl
  | dropped hn hfolds hs hi =>
    refine .dropped ?_ hi
    rw [causesAt_of_derived hn, List.mem_pair]
    exact hfolds.sibling_eq
  | merged hn hfolds hs hm hn' => exact .fact (isDerivedAt_of_fact hn')
  | @unmerged terms shared first second sibling package versions f hn hfolds hs hm hi hn' =>
    have hfirst := (h.causes_of_unmerged hk hn hfolds hs hm (Or.inl rfl)).1
    have hsecond := (h.causes_of_unmerged hk hn hfolds hs hm (Or.inr rfl)).1
    refine .kept ?_
    rw [causesAt_of_derived hn, hi, causesAt_of_derived hn', List.map_cons, List.map_cons, hfirst, hsecond]
    rfl

/-- Turning every node into what it should mirrors collapsing trees. -/
theorem mirrors (hcauses : e.CausesFirst) : e.Mirrors ⟨nodes, image e.root⟩ Tree.collapse image done where
  root := rfl
  unfolds _ _ hk ht := h.unfolds hcauses hk ht
  edges _ hk := h.redirects hk

end Collapses

theorem CausesFirst.collapses (h : e.CausesFirst) :
    e.Collapses e.collapse.nodes e.collapsed.imageOf (· < e.nodes.size) where
  turns _ hk := h.collapsesAt hk
  needs _ hk _ hc := (h.lt (mem_causesAt_of_mem_collapseNeeds hc)).trans hk
  leaves _ _ _ hk :=
    (h.collapsesAt (Array.getElem?_eq_some_iff.mp (noVersionsAt?_eq_some hk)).1).leaf hk

/-! ### Simplifying -/

omit [DecidableEq P]

variable {known : P → List V}

/-- What becomes of the node at a place in some nodes when facts are simplified. -/
inductive SimplifiesAt (e : Explanation P V S M) (known : P → List V) (nodes : Array (Node P V S M))
    (image : Nat → Nat) (k : Nat) : Prop
  | fact {f : Fact P V S M} (hn : e.nodes[k]? = some (.fact f))
      (hn' : nodes[image k]? = some (.fact (f.simplify known)))
  | derived {terms : OrderedMap P (Term S)} {shared : Option Nat} {first second : Nat}
      (hn : e.nodes[k]? = some (.derived terms shared first second))
      (hn' : nodes[image k]? = some (.derived terms shared (image first) (image second)))

/-- Every node that has been done has turned into what it should, and so have its causes. -/
structure Simplifies (e : Explanation P V S M) (known : P → List V) (nodes : Array (Node P V S M))
    (image : Nat → Nat) (done : Nat → Prop) : Prop where
  turns : ∀ k, done k → e.SimplifiesAt known nodes image k
  needs : ∀ k, done k → ∀ c ∈ e.causesAt k, done c

/-- Turning every node into what it should mirrors simplifying trees. -/
theorem Simplifies.mirrors (h : e.Simplifies known nodes image done) :
    e.Mirrors ⟨nodes, image e.root⟩ (Tree.simplify known) image done where
  root := rfl
  unfolds k t hk ht := by
    induction ht with
    | fact hn =>
      cases h.turns _ hk with
      | fact hn' hf =>
        cases hn.symm.trans hn'
        exact .fact hf
      | derived hn' => cases hn.symm.trans hn'
    | derived hn _ _ ih ih' =>
      cases h.turns _ hk with
      | fact hn' => cases hn.symm.trans hn'
      | derived hn' hd =>
        cases hn.symm.trans hn'
        have hdone := h.needs _ hk
        rw [causesAt_of_derived hn, List.forall_mem_cons, List.forall_mem_singleton] at hdone
        exact .derived hd (ih hdone.1) (ih' hdone.2)
  edges k hk := by
    cases h.turns k hk with
    | fact hn hf => exact .fact (isDerivedAt_of_fact hf)
    | derived hn hd =>
      refine .kept ?_
      rw [causesAt_of_derived hn, causesAt_of_derived hd]
      rfl

theorem CausesFirst.simplifies (h : e.CausesFirst) :
    e.Simplifies known (e.simplify known).nodes id (· < e.nodes.size) where
  turns k hk := by
    obtain ⟨node, hn⟩ : ∃ node, e.nodes[k]? = some node := ⟨_, Array.getElem?_eq_getElem hk⟩
    cases node with
    | fact f => exact .fact hn (by simp [simplify, hn])
    | derived terms shared first second => exact .derived hn (by simp [simplify, hn])
  needs _ hk _ hc := (h.lt hc).trans hk

end mirrors

end Explanation

end DependencyResolution
