import DependencyResolution.Proofs.Explanation.Unfolding
import DependencyResolution.Proofs.PackageTable
import DependencyResolution.Proofs.Solver.Derivation
import DependencyResolution.Version.Ranges.Basic

/-!
# Facts that are listed twice

An explanation lists no fact twice if no two of its leaves say the same. The leaves of the explanation of a stored
incompatibility are the facts that it rests on, so if no two incompatibilities restate one fact, none is listed twice
(`Explanation.nodup_facts_ofStore`).

Collapsing makes new leaves: a node into which missing versions are folded becomes a fact, and different sets of
versions may become the same by taking missing ones in. So a fact is listed twice after collapsing exactly if a node
that was folded says what another leaf says (`Explanation.facts_distinct`).
-/

namespace DependencyResolution

variable {P V S M : Type}

theorem nodup_filterMap_iff {α β : Type} {f : α → Option β} {l : List α} (hl : l.Nodup) :
    (l.filterMap f).Nodup ↔ ∀ a ∈ l, ∀ a' ∈ l, ∀ b, f a = some b → f a' = some b → a = a' := by
  rw [List.Nodup, List.pairwise_filterMap]
  constructor
  · intro h a ha a' ha' b hb hb'
    by_contra hne
    have hapart := (h.imp fun {x y} hxy (b : β) (hx : f x = some b) (hy : f y = some b) => hxy b hx b hy rfl)
    have : Std.Symm fun x y => ∀ b, f x = some b → f y = some b → False :=
      { symm := fun x y hxy b hy hx => hxy b hx hy }
    exact hapart.forall ha ha' hne b hb hb'
  · intro h
    refine hl.pairwise_of_forall_ne fun a ha a' ha' hne b hb b' hb' hbb' => hne ?_
    exact h a ha a' ha' b hb (hbb' ▸ hb')

/-! ## Facts of a store -/

/-- The fact that a stored incompatibility restates. -/
def Store.factOf? (s : Store P V S M) (id : Nat) : Option (Fact P V S M) :=
  match s.get? id with
  | some ⟨_, .fact f⟩ => some f
  | _ => none

def Store.facts (s : Store P V S M) : List (Fact P V S M) := (List.range s.size).filterMap s.factOf?

namespace Explanation

variable {e : Explanation P V S M} {k : Nat} {f g : Fact P V S M}

/-! ## Leaves -/

def factAt? (e : Explanation P V S M) (place : Nat) : Option (Fact P V S M) :=
  match e.nodes[place]? with
  | some (.fact f) => some f
  | _ => none

theorem factAt?_eq_some_iff : e.factAt? k = some f ↔ e.nodes[k]? = some (.fact f) := by
  unfold factAt?
  rcases e.nodes[k]? with _ | _ | _ <;> simp

theorem facts_eq_filterMap (e : Explanation P V S M) : e.facts = e.preorder.filterMap e.factAt? := by
  rw [facts, nodesInOrder, List.filterMap_filterMap]
  refine List.filterMap_congr fun k _ => ?_
  unfold factAt?
  rcases e.nodes[k]? with _ | _ | _ <;> rfl

theorem nodup_facts_iff : e.facts.Nodup ↔ ∀ j, e.RestsOn e.root j → ∀ k, e.RestsOn e.root k → ∀ f,
    e.nodes[j]? = some (.fact f) → e.nodes[k]? = some (.fact f) → j = k := by
  rw [facts_eq_filterMap, nodup_filterMap_iff e.nodup_preorder]
  simp only [mem_preorder_iff, factAt?_eq_some_iff]

/-- Where no two incompatibilities restate one fact, the explanation of none lists a fact twice. -/
theorem nodup_facts_ofStore {s : Store P V S M} {id : Nat} (hlt : ∀ n, ∀ c ∈ s.causesOf n, c < n)
    (hid : id < s.size) (hfacts : s.facts.Nodup) : (ofStore s id).facts.Nodup := by
  rw [Store.facts, nodup_filterMap_iff List.nodup_range] at hfacts
  have hplace : ∀ k f, (ofStore s id).RestsOn (ofStore s id).root k →
      (ofStore s id).nodes[k]? = some (.fact f) →
      ∃ n ∈ List.range s.size, k = (s.support id).idxOf n ∧ s.factOf? n = some f := by
    intro k f hk hn
    obtain ⟨n, hmem, rfl⟩ :=
      List.mem_map.mp ((perm_preorder_ofStore hlt hid).mem_iff.mp (mem_preorder hk))
    rw [getElem?_idxOf hlt hid hmem] at hn
    obtain ⟨⟨terms, cause⟩, hi, hnode⟩ := Option.map_eq_some_iff.mp hn
    refine ⟨n, List.mem_range.mpr (Array.getElem?_eq_some_iff.mp hi).1, rfl, ?_⟩
    cases cause with
    | fact g =>
      cases hnode
      rw [Store.factOf?, hi]
    | derived => cases hnode
  rw [nodup_facts_iff]
  intro j hj k hk f hjf hkf
  obtain ⟨m, hm, rfl, hmf⟩ := hplace j f hj hjf
  obtain ⟨n, hn, rfl, hnf⟩ := hplace k f hk hkf
  rw [hfacts m hm n hn f hmf hnf]

/-! ## Folded leaves -/

section collapse

variable [DecidableEq P] [VersionSet S V] {first second sibling : Nat} {package : P} {versions : S}

/-- What a node says when missing versions are folded, if it is a leaf then: it is a fact; or one of its causes says
that there are no versions, and what the other one comes to say takes them in. -/
inductive ComesToSay (e : Explanation P V S M) : Nat → Fact P V S M → Prop
  | fact {k : Nat} {f : Fact P V S M} (hn : e.nodes[k]? = some (.fact f)) : ComesToSay e k f
  | merged {k : Nat} {terms : OrderedMap P (Term S)} {shared : Option Nat} {first second sibling : Nat}
      {package : P} {versions : S} {f merged : Fact P V S M}
      (hn : e.nodes[k]? = some (.derived terms shared first second))
      (hfolds : e.Folds first second package versions sibling) (hs : ComesToSay e sibling f)
      (hm : f.absorb package versions = some merged) : ComesToSay e k merged

/-- The nodes that are still there when missing versions are folded: the root; both causes of a node that is not
folded; of one that is folded into something derived, the other cause; and both causes of one whose other cause is a
fact that takes in no missing versions. -/
inductive Remains (e : Explanation P V S M) : Nat → Prop
  | root : Remains e e.root
  | kept {k cause : Nat} {terms : OrderedMap P (Term S)} {shared : Option Nat} {first second : Nat}
      (hk : Remains e k) (hn : e.nodes[k]? = some (.derived terms shared first second))
      (hfirst : e.noVersionsAt? first = none) (hsecond : e.noVersionsAt? second = none)
      (hcause : cause = first ∨ cause = second) : Remains e cause
  | dropped {k : Nat} {terms : OrderedMap P (Term S)} {shared : Option Nat} {first second sibling : Nat}
      {package : P} {versions : S} (hk : Remains e k)
      (hn : e.nodes[k]? = some (.derived terms shared first second))
      (hfolds : e.Folds first second package versions sibling) (hs : ∀ f, ¬ e.ComesToSay sibling f) :
      Remains e sibling
  | unmerged {k cause : Nat} {terms : OrderedMap P (Term S)} {shared : Option Nat} {first second sibling : Nat}
      {package : P} {versions : S} {f : Fact P V S M} (hk : Remains e k)
      (hn : e.nodes[k]? = some (.derived terms shared first second))
      (hfolds : e.Folds first second package versions sibling) (hs : e.ComesToSay sibling f)
      (hm : f.absorb package versions = none) (hcause : cause = first ∨ cause = second) : Remains e cause

/-- No node that is folded comes to say what another node says that remains. -/
def FoldsApart (e : Explanation P V S M) : Prop :=
  ∀ j k f, e.isDerivedAt j = true → e.Remains j → e.ComesToSay j f → e.Remains k → e.ComesToSay k f → j = k

omit [DecidableEq P] [VersionSet S V] in
theorem Folds.unique {package' : P} {versions' : S} {sibling' : Nat}
    (h : e.Folds first second package versions sibling) (h' : e.Folds first second package' versions' sibling') :
    package' = package ∧ versions' = versions ∧ sibling' = sibling := by
  rcases h with ⟨hfirst, rfl⟩ | ⟨hfirst, hsecond, rfl⟩ <;>
    rcases h' with ⟨hfirst', rfl⟩ | ⟨hfirst', hsecond', rfl⟩ <;> simp_all

omit [DecidableEq P] [VersionSet S V] in
theorem Folds.not_none (h : e.Folds first second package versions sibling) (hfirst : e.noVersionsAt? first = none)
    (hsecond : e.noVersionsAt? second = none) : False := by
  rcases h with ⟨h, -⟩ | ⟨-, h, -⟩
  · cases hfirst.symm.trans h
  · cases hsecond.symm.trans h

omit [DecidableEq P] [VersionSet S V] in
theorem Folds.lt (hfolds : e.Folds first second package versions sibling) (h : e.CausesFirst)
    {terms : OrderedMap P (Term S)} {shared : Option Nat}
    (hn : e.nodes[k]? = some (.derived terms shared first second)) : sibling < k := by
  rcases hfolds.sibling_eq with rfl | rfl
  · exact (h.lt_of_derived hn).1
  · exact (h.lt_of_derived hn).2

section inversion

variable {terms : OrderedMap P (Term S)} {shared : Option Nat}

theorem comesToSay_iff_of_fact (hn : e.nodes[k]? = some (.fact g)) : e.ComesToSay k f ↔ g = f := by
  refine ⟨fun h => ?_, fun h => h ▸ .fact hn⟩
  cases h with
  | fact hn' =>
    cases hn.symm.trans hn'
    rfl
  | merged hn' => cases hn.symm.trans hn'

theorem comesToSay_iff_of_folds (hn : e.nodes[k]? = some (.derived terms shared first second))
    (hfolds : e.Folds first second package versions sibling) :
    e.ComesToSay k f ↔ ∃ g, e.ComesToSay sibling g ∧ g.absorb package versions = some f := by
  refine ⟨fun h => ?_, fun ⟨g, hs, hm⟩ => .merged hn hfolds hs hm⟩
  cases h with
  | fact hn' => cases hn.symm.trans hn'
  | merged hn' hfolds' hs hm =>
    cases hn.symm.trans hn'
    obtain ⟨rfl, rfl, rfl⟩ := hfolds.unique hfolds'
    exact ⟨_, hs, hm⟩

theorem not_comesToSay_of_none (hn : e.nodes[k]? = some (.derived terms shared first second))
    (hfirst : e.noVersionsAt? first = none) (hsecond : e.noVersionsAt? second = none) : ¬ e.ComesToSay k f := by
  intro h
  cases h with
  | fact hn' => cases hn.symm.trans hn'
  | merged hn' hfolds =>
    cases hn.symm.trans hn'
    exact hfolds.not_none hfirst hsecond

end inversion

theorem ComesToSay.getElem?_of_not_derived (h : e.ComesToSay k f) (hd : ¬ e.isDerivedAt k = true) :
    e.nodes[k]? = some (.fact f) := by
  cases h with
  | fact hn => exact hn
  | merged hn => exact absurd (isDerivedAt_iff.mpr ⟨_, _, _, _, hn⟩) hd

section causesFirst

variable (h : e.CausesFirst)

include h

/-- A node comes to say what stands for it says when the explanation is collapsed. -/
theorem CausesFirst.comesToSay_iff (hk : k < e.nodes.size) :
    e.ComesToSay k f ↔ e.collapse.nodes[e.collapsed.imageOf k]? = some (.fact f) := by
  -- causes have smaller places
  induction k using Nat.strong_induction_on generalizing f with
  | _ k ih =>
    cases h.collapsesAt hk with
    | fact hn hi hn' => rw [comesToSay_iff_of_fact hn, hi, hn', Option.some.injEq, Node.fact.injEq]
    | kept hn hfirst hsecond hn' =>
      rw [hn']
      exact iff_of_false (not_comesToSay_of_none hn hfirst hsecond) (by simp)
    | dropped hn hfolds hs hi =>
      have hlt := hfolds.lt h hn
      obtain ⟨_, _, _, _, hs⟩ := hs
      simp only [comesToSay_iff_of_folds hn hfolds, ih _ hlt (hlt.trans hk), hi, hs, Option.some.injEq, reduceCtorEq,
        false_and, exists_false]
    | merged hn hfolds hs hm hn' =>
      have hlt := hfolds.lt h hn
      simp [comesToSay_iff_of_folds hn hfolds, ih _ hlt (hlt.trans hk), hs, hm, hn']
    | unmerged hn hfolds hs hm hi hn' =>
      have hlt := hfolds.lt h hn
      simp [comesToSay_iff_of_folds hn hfolds, ih _ hlt (hlt.trans hk), hs, hm, hi, hn']

theorem CausesFirst.image_of_comesToSay (hk : k < e.nodes.size) (hsaid : e.ComesToSay k f) :
    e.collapsed.imageOf k = k := by
  have hf := (h.comesToSay_iff hk).mp hsaid
  obtain ⟨node, hn⟩ : ∃ node, e.nodes[k]? = some node := ⟨_, Array.getElem?_eq_getElem hk⟩
  cases (collapsed_spec h).2 k node hn with
  | fact hi | kept _ _ hi | merged _ _ _ hi | unmerged _ _ _ hi => exact hi
  | dropped _ hs hi =>
    obtain ⟨_, _, _, _, hs⟩ := hs
    rw [hi] at hf
    cases hf.symm.trans hs

section folds

variable {terms : OrderedMap P (Term S)} {shared : Option Nat}
  (hn : e.nodes[k]? = some (.derived terms shared first second))

include hn

theorem CausesFirst.getElem?_collapse_of_none (hfirst : e.noVersionsAt? first = none)
    (hsecond : e.noVersionsAt? second = none) :
    e.collapse.nodes[e.collapsed.imageOf k]? =
      some (.derived terms shared (e.collapsed.imageOf first) (e.collapsed.imageOf second)) := by
  cases h.collapsesAt (Array.getElem?_eq_some_iff.mp hn).1 with
  | fact hn' => cases hn.symm.trans hn'
  | kept hn' _ _ hd =>
    cases hn.symm.trans hn'
    exact hd
  | dropped hn' hfolds | merged hn' hfolds | unmerged hn' hfolds =>
    cases hn.symm.trans hn'
    exact (hfolds.not_none hfirst hsecond).elim

theorem CausesFirst.image_of_not_comesToSay (hfolds : e.Folds first second package versions sibling)
    (hs : ∀ f, ¬ e.ComesToSay sibling f) : e.collapsed.imageOf k = e.collapsed.imageOf sibling := by
  have hk := (Array.getElem?_eq_some_iff.mp hn).1
  have hsaid := fun f => (h.comesToSay_iff (f := f) ((hfolds.lt h hn).trans hk)).not.mp (hs f)
  cases h.collapsesAt hk with
  | fact hn' => cases hn.symm.trans hn'
  | kept hn' hfirst hsecond =>
    cases hn.symm.trans hn'
    exact (hfolds.not_none hfirst hsecond).elim
  | dropped hn' hfolds' _ hi =>
    cases hn.symm.trans hn'
    obtain ⟨rfl, rfl, rfl⟩ := hfolds.unique hfolds'
    exact hi
  | merged hn' hfolds' hf | unmerged hn' hfolds' hf =>
    cases hn.symm.trans hn'
    obtain ⟨rfl, rfl, rfl⟩ := hfolds.unique hfolds'
    exact absurd hf (hsaid _)

/-- A node whose other cause takes in no missing versions stays as it was, and so do its causes. -/
theorem CausesFirst.getElem?_collapse_of_absorb_eq_none (hfolds : e.Folds first second package versions sibling)
    (hs : e.ComesToSay sibling f) (hm : f.absorb package versions = none) :
    e.collapsed.imageOf k = k ∧ e.collapse.nodes[k]? = some (.derived terms shared first second) ∧
      ∀ c, c = first ∨ c = second → e.collapsed.imageOf c = c := by
  have hk := (Array.getElem?_eq_some_iff.mp hn).1
  have hf := (h.comesToSay_iff ((hfolds.lt h hn).trans hk)).mp hs
  cases h.collapsesAt hk with
  | fact hn' => cases hn.symm.trans hn'
  | kept hn' hfirst hsecond =>
    cases hn.symm.trans hn'
    exact (hfolds.not_none hfirst hsecond).elim
  | dropped hn' hfolds' hd =>
    cases hn.symm.trans hn'
    obtain ⟨rfl, rfl, rfl⟩ := hfolds.unique hfolds'
    obtain ⟨_, _, _, _, hd⟩ := hd
    cases hf.symm.trans hd
  | merged hn' hfolds' hf' hm' =>
    cases hn.symm.trans hn'
    obtain ⟨rfl, rfl, rfl⟩ := hfolds.unique hfolds'
    cases hf.symm.trans hf'
    cases hm.symm.trans hm'
  | unmerged hn' _ _ _ hi hd =>
    cases hn.symm.trans hn'
    exact ⟨hi, hd, fun c hc => (h.collapses.causes_of_unmerged hk hn hfolds hf hm hc).1⟩

end folds

end causesFirst

/-! ## What remains -/

theorem Remains.restsOn (hk : e.Remains k) : e.RestsOn e.root k := by
  induction hk with
  | root => exact .refl
  | kept _ hn _ _ hcause ih | unmerged _ hn _ _ _ hcause ih =>
    exact ih.tail (mem_causesAt_iff.mpr ⟨_, _, _, _, hn, hcause⟩)
  | dropped _ hn hfolds _ ih => exact ih.tail (mem_causesAt_iff.mpr ⟨_, _, _, _, hn, hfolds.sibling_eq⟩)

section remains

variable (h : e.CausesFirst)

include h

theorem Remains.restsOn_collapse (hk : e.Remains k) :
    e.collapse.RestsOn e.collapse.root (e.collapsed.imageOf k) := by
  induction hk with
  | root => exact .refl
  | kept _ hn hfirst hsecond hcause ih =>
    have hd := h.getElem?_collapse_of_none hn hfirst hsecond
    exact ih.tail (mem_causesAt_iff.mpr ⟨_, _, _, _, hd, hcause.imp (congrArg _) (congrArg _)⟩)
  | dropped _ hn hfolds hs ih => rwa [h.image_of_not_comesToSay hn hfolds hs] at ih
  | unmerged _ hn hfolds hs hm hcause ih =>
    obtain ⟨hi, hd, hself⟩ := h.getElem?_collapse_of_absorb_eq_none hn hfolds hs hm
    rw [hi] at ih
    rw [hself _ hcause]
    exact ih.tail (mem_causesAt_iff.mpr ⟨_, _, _, _, hd, hcause⟩)

theorem Remains.exists_of_mem_causesAt (hsize : k < e.nodes.size) (hk : e.Remains k) {c : Nat}
    (hc : c ∈ e.collapse.causesAt (e.collapsed.imageOf k)) : ∃ j, e.Remains j ∧ e.collapsed.imageOf j = c := by
  -- a node may stand for what a cause of it stands for already
  induction k using Nat.strong_induction_on with
  | _ k ih =>
    obtain ⟨_, _, _, _, hn', hc'⟩ := mem_causesAt_iff.mp hc
    cases h.collapsesAt hsize with
    | fact _ hi hf =>
      rw [hi] at hn'
      cases hf.symm.trans hn'
    | kept hn hfirst hsecond hd =>
      cases hd.symm.trans hn'
      rcases hc' with rfl | rfl
      · exact ⟨_, .kept hk hn hfirst hsecond (.inl rfl), rfl⟩
      · exact ⟨_, .kept hk hn hfirst hsecond (.inr rfl), rfl⟩
    | dropped hn hfolds hs hi =>
      have hlt := hfolds.lt h hn
      obtain ⟨_, _, _, _, hs⟩ := hs
      rw [hi] at hc
      refine ih _ hlt (hlt.trans hsize) (.dropped hk hn hfolds fun f hsaid => ?_) hc
      cases hs.symm.trans ((h.comesToSay_iff (hlt.trans hsize)).mp hsaid)
    | merged _ _ _ _ hf => cases hf.symm.trans hn'
    | unmerged hn hfolds hs hm hi hd =>
      rw [hi] at hn'
      cases hd.symm.trans hn'
      have hsaid := (h.comesToSay_iff ((hfolds.lt h hn).trans hsize)).mpr hs
      exact ⟨c, .unmerged hk hn hfolds hsaid hm hc', (h.collapses.causes_of_unmerged hsize hn hfolds hs hm hc').1⟩

variable (hroot : e.root < e.nodes.size)

include hroot

theorem Remains.lt_size (hk : e.Remains k) : k < e.nodes.size := h.lt_size hroot (mem_preorder hk.restsOn)

/-- Every node of the collapsed explanation stands for one that remains. -/
theorem CausesFirst.exists_remains {j : Nat} (hj : e.collapse.RestsOn e.collapse.root j) :
    ∃ k, e.Remains k ∧ e.collapsed.imageOf k = j := by
  induction hj with
  | refl => exact ⟨e.root, .root, rfl⟩
  | tail _ hc ih =>
    obtain ⟨k, hk, rfl⟩ := ih
    exact hk.exists_of_mem_causesAt h (hk.lt_size h hroot) hc

/-- Where an explanation lists no fact twice, neither does the collapsed one exactly if no node that is folded comes
to say what another one says. -/
theorem CausesFirst.nodup_facts_collapse_iff (hfacts : e.facts.Nodup) :
    e.collapse.facts.Nodup ↔ e.FoldsApart := by
  rw [nodup_facts_iff] at hfacts ⊢
  constructor
  · intro hnodup j k f _ hj hjf hk hkf
    have hjlt := hj.lt_size h hroot
    have hklt := hk.lt_size h hroot
    have hsame := hnodup _ (hj.restsOn_collapse h) _ (hk.restsOn_collapse h) f
      ((h.comesToSay_iff hjlt).mp hjf) ((h.comesToSay_iff hklt).mp hkf)
    rwa [h.image_of_comesToSay hjlt hjf, h.image_of_comesToSay hklt hkf] at hsame
  · intro hapart j' hj' k' hk' f hjf hkf
    obtain ⟨j, hj, rfl⟩ := h.exists_remains hroot hj'
    obtain ⟨k, hk, rfl⟩ := h.exists_remains hroot hk'
    rw [← h.comesToSay_iff (hj.lt_size h hroot)] at hjf
    rw [← h.comesToSay_iff (hk.lt_size h hroot)] at hkf
    by_cases hjd : e.isDerivedAt j = true
    · rw [hapart j k f hjd hj hjf hk hkf]
    by_cases hkd : e.isDerivedAt k = true
    · rw [hapart k j f hkd hk hkf hj hjf]
    -- two facts that were there before
    rw [hfacts j hj.restsOn k hk.restsOn f (hjf.getElem?_of_not_derived hjd) (hkf.getElem?_of_not_derived hkd)]

end remains

/-- Where no two incompatibilities restate one fact, the explanation of a stored one lists no fact twice, and when it
is collapsed it lists none twice exactly if no node that is folded comes to say what another node says that remains. -/
theorem facts_distinct {s : Store P V S M} {id : Nat} (hlt : ∀ n, ∀ c ∈ s.causesOf n, c < n) (hid : id < s.size)
    (hfacts : s.facts.Nodup) :
    (ofStore s id).facts.Nodup ∧ ((ofStore s id).collapse.facts.Nodup ↔ (ofStore s id).FoldsApart) := by
  have hnodup := nodup_facts_ofStore hlt hid hfacts
  exact ⟨hnodup, (causesFirst_ofStore hlt hid).nodup_facts_collapse_iff (root_lt_size_ofStore hlt hid) hnodup⟩

end collapse

end Explanation

namespace PackageTable

/-- Both versions of package 1 require the same missing version of package 2, but the facts that it is folded into
are about different versions. -/
theorem facts_distinct_threePackages :
    (resolveWithin 90 (threePackages (.single 2 (.atLeast 2))).provider () 0 1).1 = .error (.noSolution 10) ∧
      (resolveWithin 90 (threePackages (.single 2 (.atLeast 2))).provider () 0 1).2.state.store.facts.Nodup ∧
      (Explanation.ofStore (resolveWithin 90 (threePackages (.single 2 (.atLeast 2))).provider () 0
        1).2.state.store 10).facts.Nodup ∧
      (Explanation.ofStore (resolveWithin 90 (threePackages (.single 2 (.atLeast 2))).provider () 0
        1).2.state.store 10).FoldsApart := by
  have hproper := threePackages_proper (proper_single_atLeast 2 2)
  have hlt := (resolveWithin_grounded (provider_answersProper hproper) 90 () 0 1).causes_lt
  have hrun : (resolveWithin 90 (threePackages (.single 2 (.atLeast 2))).provider () 0 1).1 =
        .error (.noSolution 10) ∧
      10 < (resolveWithin 90 (threePackages (.single 2 (.atLeast 2))).provider () 0 1).2.state.store.size ∧
      (resolveWithin 90 (threePackages (.single 2 (.atLeast 2))).provider () 0 1).2.state.store.facts.Nodup ∧
      (Explanation.ofStore (resolveWithin 90 (threePackages (.single 2 (.atLeast 2))).provider () 0
        1).2.state.store 10).collapse.facts.Nodup := by
    rw [(threePackages_ascending _).provider_eq]
    decide +kernel
  obtain ⟨hrun, hid, hfacts, hcollapse⟩ := hrun
  obtain ⟨hnodup, hiff⟩ := Explanation.facts_distinct hlt hid hfacts
  exact ⟨hrun, hfacts, hnodup, hiff.mp hcollapse⟩

/-- Both versions of package 1 require package 2, of which there is one version, and this requires a version of
package 1 that is missing. -/
def requiredBack : PackageTable ℕ ℕ (Ranges ℕ) :=
  (((PackageTable.empty.add 0 1 (.single 1 .full)).add 1 1 (.single 2 (.atLeast 1))).add 1 2
    (.single 2 .full)).add 2 1 (.single 1 (.atLeast 3))

theorem requiredBack_proper : requiredBack.Proper :=
  (((proper_empty.add 0 1 (proper_single_full 1)).add 1 1 (proper_single_atLeast 2 1)).add 1 2
    (proper_single_full 2)).add 2 1 (proper_single_atLeast 1 3)

theorem requiredBack_ascending : requiredBack.Ascending := by
  change ∀ versions ∈ [[1], [1, 2], [1]], versions.Pairwise fun v w => ¬ w < v
  decide

/-- That all versions of package 2 require what its one version does is derived once for each version of package 1,
from the same two facts. Each time these are folded into a new leaf, and both leaves say the same. -/
theorem not_facts_distinct_requiredBack :
    (resolveWithin 90 requiredBack.provider () 0 1).1 = .error (.noSolution 13) ∧
      (resolveWithin 90 requiredBack.provider () 0 1).2.state.store.Traced 0 1 ∧
      (resolveWithin 90 requiredBack.provider () 0 1).2.state.store.facts.Nodup ∧
      ¬ (Explanation.ofStore (resolveWithin 90 requiredBack.provider () 0 1).2.state.store
        13).collapse.facts.Nodup := by
  have htraced := (resolveWithin_grounded (provider_answersProper requiredBack_proper) 90 () 0 1).traced
  have hrun : (resolveWithin 90 requiredBack.provider () 0 1).1 = .error (.noSolution 13) ∧
      (resolveWithin 90 requiredBack.provider () 0 1).2.state.store.facts.Nodup ∧
      ¬ (Explanation.ofStore (resolveWithin 90 requiredBack.provider () 0 1).2.state.store
        13).collapse.facts.Nodup := by
    rw [requiredBack_ascending.provider_eq]
    decide +kernel
  obtain ⟨hrun, hfacts, htwice⟩ := hrun
  exact ⟨hrun, htraced, hfacts, htwice⟩

end PackageTable

end DependencyResolution
