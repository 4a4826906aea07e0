import DependencyResolution.Proofs.Explanation.Shortening
import DependencyResolution.Proofs.Explanation.Unfolding
import DependencyResolution.Version.Ranges.Basic

/-!
# What collapsing leaves to fold

Collapsing looks at the causes of a node before they are collapsed. A cause that rests on missing versions alone
becomes one more leaf that says so, and nothing folds that leaf. So collapsing leaves nothing to fold exactly if
such a cause only stands next to a fact that takes in no missing versions, and exactly then collapsing once more
gives the same tree (`Explanation.ofStore_collapse_isFolded_iff`).

On trees collapsing is a step towards a normal form: a tree with nothing to fold stays as it is
(`Tree.collapse_eq_self`), and any other one loses leaves (`Tree.leaves_collapse_lt`).
-/

namespace DependencyResolution

variable {P V S M : Type}

/-- That the root is needed, and that a version cannot be used for a reason, take in no missing versions. -/
def Fact.standsAlone : Fact P V S M → Bool
  | .root .. | .unusable .. => true
  | .noVersions .. | .dependency .. => false

/-! ## Folded trees -/

namespace Tree

def standsAlone : Tree P V S M → Bool
  | .fact f => f.standsAlone
  | .derived .. => false

/-- The number of facts that a tree rests on, each as often as it is used. -/
def leaves : Tree P V S M → Nat
  | .fact _ => 1
  | .derived _ _ t t' => t.leaves + t'.leaves

/-- Everything derived in a tree has causes that are related. -/
def All (r : Tree P V S M → Tree P V S M → Prop) : Tree P V S M → Prop
  | .fact _ => True
  | .derived _ _ t t' => r t t' ∧ t.All r ∧ t'.All r

/-- Where one of two trees says that there are no versions, the other is a fact that takes in none. -/
def Settled (t t' : Tree P V S M) : Prop :=
  (t.noVersions?.isSome → t'.standsAlone) ∧ (t'.noVersions?.isSome → t.standsAlone)

/-- There is nothing to fold in a tree. -/
def IsFolded : Tree P V S M → Prop := All Settled

def Beside (t t' u : Tree P V S M) : Prop :=
  t.noVersions?.isSome ∧ u = t' ∨ t'.noVersions?.isSome ∧ u = t

variable {t t' u w : Tree P V S M}

theorem all_of_isSome_noVersions? {r : Tree P V S M → Tree P V S M → Prop} (h : t.noVersions?.isSome) :
    t.All r := by
  cases t with
  | fact f => trivial
  | derived => cases h

theorem all_of_standsAlone {r : Tree P V S M → Tree P V S M → Prop} (h : t.standsAlone) : t.All r := by
  cases t with
  | fact f => trivial
  | derived => cases h

theorem leaves_pos (t : Tree P V S M) : 0 < t.leaves := by
  induction t with
  | fact f => exact Nat.one_pos
  | derived terms shared t t' ih ih' => exact Nat.add_pos_left ih _

theorem not_isSome_noVersions?_of_standsAlone (h : t.standsAlone) : ¬ t.noVersions?.isSome := by
  cases t with
  | fact f => cases f <;> simp_all [standsAlone, Fact.standsAlone, noVersions?]
  | derived => cases h

namespace Beside

theorem not_isNone (h : Beside t t' u) (ht : t.noVersions? = none) (ht' : t'.noVersions? = none) : False := by
  rcases h with ⟨h, -⟩ | ⟨h, -⟩
  · rw [ht] at h
    cases h
  · rw [ht'] at h
    cases h

theorem leaves_lt (h : Beside t t' u) (terms : OrderedMap P (Term S)) (shared : Option Nat) :
    u.leaves < (derived terms shared t t').leaves := by
  have hpos := t.leaves_pos
  have hpos' := t'.leaves_pos
  rcases h with ⟨-, rfl⟩ | ⟨-, rfl⟩ <;> simp only [leaves] <;> omega

theorem standsAlone (h : Beside t t' u) (hs : Settled t t') : u.standsAlone := by
  rcases h with ⟨ht, rfl⟩ | ⟨ht', rfl⟩
  · exact hs.1 ht
  · exact hs.2 ht'

theorem isFolded (h : Beside t t' u) (hu : u.standsAlone) (terms : OrderedMap P (Term S))
    (shared : Option Nat) : (derived terms shared t t').IsFolded := by
  have hnot := not_isSome_noVersions?_of_standsAlone hu
  rcases h with ⟨ht, rfl⟩ | ⟨ht', rfl⟩
  · exact ⟨⟨fun _ => hu, fun ht' => absurd ht' hnot⟩, all_of_isSome_noVersions? ht, all_of_standsAlone hu⟩
  · exact ⟨⟨fun ht => absurd ht hnot, fun _ => hu⟩, all_of_standsAlone hu, all_of_isSome_noVersions? ht'⟩

end Beside

/-! ## What collapsing does to a tree -/

section collapse

variable [DecidableEq P] [VersionSet S V] {package : P} {versions : S}

theorem absorb_eq_none_iff : t.absorb package versions = none ↔ t.standsAlone := by
  cases t with
  | derived => simp [absorb, standsAlone]
  | fact f =>
    cases f with
    | dependency p set needed allowed =>
      simp only [absorb, Fact.absorb, standsAlone, Fact.standsAlone]
      split_ifs <;> simp
    | root | noVersions | unusable => simp [absorb, Fact.absorb, standsAlone, Fact.standsAlone]

/-- What a tree that has taken missing versions in has of the one before: as many leaves, and it says that there
are no versions, or has nothing to fold, if that one did. -/
structure Absorbed (t w : Tree P V S M) : Prop where
  leaves : w.leaves = t.leaves
  standsAlone : w.standsAlone = false
  noVersions : w.noVersions?.isSome ↔ t.noVersions?.isSome
  isFolded : w.IsFolded ↔ t.IsFolded

theorem absorbed_of_absorb (h : t.absorb package versions = some w) : Absorbed t w := by
  cases t with
  | derived =>
    cases h
    exact ⟨rfl, rfl, .rfl, .rfl⟩
  | fact f =>
    obtain ⟨g, hg, rfl⟩ := Option.map_eq_some_iff.mp h
    refine ⟨rfl, ?_, ?_, .rfl⟩ <;> cases f with
    | root | unusable => cases hg
    | noVersions => cases hg; rfl
    | dependency p set needed allowed =>
      rw [Fact.absorb] at hg
      split_ifs at hg <;> cases hg <;> simp [standsAlone, Fact.standsAlone, noVersions?]

inductive CollapsesTo (terms : OrderedMap P (Term S)) (shared : Option Nat) (t t' : Tree P V S M) :
    Tree P V S M → Prop
  | kept (h : t.noVersions? = none) (h' : t'.noVersions? = none) :
      CollapsesTo terms shared t t' (.derived terms shared t.collapse t'.collapse)
  | absorbed {u w : Tree P V S M} {package : P} {versions : S} (hu : Beside t t' u)
      (hw : u.collapse.absorb package versions = some w) : CollapsesTo terms shared t t' w
  | refused {u : Tree P V S M} (hu : Beside t t' u) (halone : u.collapse.standsAlone) :
      CollapsesTo terms shared t t' (.derived terms shared t t')

theorem collapsesTo (terms : OrderedMap P (Term S)) (shared : Option Nat) (t t' : Tree P V S M) :
    CollapsesTo terms shared t t' (derived terms shared t t').collapse := by
  have hbeside : ∀ {u package versions}, Beside t t' u → CollapsesTo terms shared t t'
      ((u.collapse.absorb package versions).getD (derived terms shared t t')) := by
    intro u package versions hu
    cases hw : u.collapse.absorb package versions with
    | some w => exact .absorbed hu hw
    | none => exact .refused hu (absorb_eq_none_iff.mp hw)
  rw [collapse]
  cases ht : t.noVersions? with
  | some missing => exact hbeside (.inl ⟨by rw [ht]; rfl, rfl⟩)
  | none =>
    cases ht' : t'.noVersions? with
    | some missing => exact hbeside (.inr ⟨by rw [ht']; rfl, rfl⟩)
    | none => exact .kept ht ht'

theorem standsAlone_collapse (t : Tree P V S M) : t.collapse.standsAlone = t.standsAlone := by
  cases t with
  | fact f => rfl
  | derived terms shared t t' =>
    have h := collapsesTo terms shared t t'
    generalize (derived terms shared t t').collapse = w at h
    cases h with
    | kept | refused => rfl
    | absorbed hu hw => exact (absorbed_of_absorb hw).standsAlone

theorem isSome_noVersions?_collapse (h : t.noVersions?.isSome) : t.collapse.noVersions?.isSome := by
  cases t with
  | fact f => exact h
  | derived => cases h

/-- What is derived becomes a leaf that says that there are no versions exactly if one cause is one and the other
becomes one. -/
theorem isSome_noVersions?_collapse_iff {terms : OrderedMap P (Term S)} {shared : Option Nat} :
    (derived terms shared t t').collapse.noVersions?.isSome ↔
      t.noVersions?.isSome ∧ t'.collapse.noVersions?.isSome ∨
        t.collapse.noVersions?.isSome ∧ t'.noVersions?.isSome := by
  have hcollapse := collapsesTo terms shared t t'
  generalize (derived terms shared t t').collapse = w at hcollapse
  refine ⟨fun h => ?_, fun h => ?_⟩
  · cases hcollapse with
    | kept | refused => cases h
    | absorbed hu hw =>
      have hsome := (absorbed_of_absorb hw).noVersions.mp h
      rcases hu with ⟨ht, rfl⟩ | ⟨ht', rfl⟩
      · exact .inl ⟨ht, hsome⟩
      · exact .inr ⟨hsome, ht'⟩
  · -- whichever of the causes is taken in, both become such leaves
    have hboth : t.collapse.noVersions?.isSome ∧ t'.collapse.noVersions?.isSome :=
      h.elim (.imp_left isSome_noVersions?_collapse) (.imp_right isSome_noVersions?_collapse)
    have hsome : ∀ {u}, Beside t t' u → u.collapse.noVersions?.isSome := by
      rintro u (⟨-, rfl⟩ | ⟨-, rfl⟩)
      · exact hboth.2
      · exact hboth.1
    cases hcollapse with
    | kept ht ht' => simp [ht, ht'] at h
    | absorbed hu hw => exact (absorbed_of_absorb hw).noVersions.mpr (hsome hu)
    | refused hu halone => exact absurd (hsome hu) (not_isSome_noVersions?_of_standsAlone halone)

theorem collapse_eq_self (h : t.IsFolded) : t.collapse = t := by
  induction t with
  | fact f => rfl
  | derived terms shared t t' ih ih' =>
    obtain ⟨hsettled, ht, ht'⟩ := h
    have hcollapse := collapsesTo terms shared t t'
    generalize (derived terms shared t t').collapse = w at hcollapse
    cases hcollapse with
    | kept => rw [ih ht, ih' ht']
    | refused => rfl
    | absorbed hu hw =>
      -- next to missing versions stands a fact that would have refused
      have halone := hu.standsAlone hsettled
      rw [← standsAlone_collapse, (absorb_eq_none_iff).symm.trans (by rw [hw])] at halone
      cases halone

theorem leaves_collapse_le (t : Tree P V S M) : t.collapse.leaves ≤ t.leaves := by
  induction t with
  | fact f => exact le_rfl
  | derived terms shared t t' ih ih' =>
    have h := collapsesTo terms shared t t'
    generalize (derived terms shared t t').collapse = w at h
    cases h with
    | kept => exact Nat.add_le_add ih ih'
    | refused => exact le_rfl
    | @absorbed u w package versions hu hw =>
      have hle : u.collapse.leaves ≤ u.leaves := by
        rcases hu with ⟨-, rfl⟩ | ⟨-, rfl⟩
        · exact ih'
        · exact ih
      rw [(absorbed_of_absorb hw).leaves]
      exact hle.trans (hu.leaves_lt terms shared).le

theorem leaves_collapse_lt (h : ¬ t.IsFolded) : t.collapse.leaves < t.leaves := by
  induction t with
  | fact f => exact absurd trivial h
  | derived terms shared t t' ih ih' =>
    have hcollapse := collapsesTo terms shared t t'
    generalize (derived terms shared t t').collapse = w at hcollapse
    cases hcollapse with
    | kept ht ht' =>
      -- there is nothing to fold here, so there is in one of the causes
      have hsettled : Settled t t' := ⟨fun hs => by simp [ht] at hs, fun hs => by simp [ht'] at hs⟩
      simp only [leaves]
      by_cases hfolded : t.IsFolded
      · have hlt := ih' fun hfolded' => h ⟨hsettled, hfolded, hfolded'⟩
        have hle := t.leaves_collapse_le
        omega
      · have hlt := ih hfolded
        have hle := t'.leaves_collapse_le
        omega
    | @absorbed u w package versions hu hw =>
      rw [(absorbed_of_absorb hw).leaves]
      exact u.leaves_collapse_le.trans_lt (hu.leaves_lt terms shared)
    | @refused u hu halone =>
      rw [standsAlone_collapse] at halone
      exact absurd (hu.isFolded halone terms shared) h

theorem collapse_eq_self_iff : t.collapse = t ↔ t.IsFolded := by
  refine ⟨fun h => ?_, collapse_eq_self⟩
  by_contra hfolded
  have hlt := leaves_collapse_lt hfolded
  rw [h] at hlt
  exact lt_irrefl _ hlt

/-- Where neither of two trees says that there are no versions, there is nothing to fold when both are
collapsed. -/
def SettledAfter (t t' : Tree P V S M) : Prop :=
  t.noVersions? = none → t'.noVersions? = none → Settled t.collapse t'.collapse

/-- Collapsing leaves nothing to fold exactly if there is nothing to fold in what is kept. -/
theorem isFolded_collapse_iff : t.collapse.IsFolded ↔ t.All SettledAfter := by
  induction t with
  | fact f => exact .rfl
  | derived terms shared t t' ih ih' =>
    -- next to missing versions, what counts is in the other cause
    have hbeside : ∀ {u}, Beside t t' u →
        ((derived terms shared t t').All SettledAfter ↔ u.collapse.IsFolded) := by
      intro u hu
      have hvacuous : SettledAfter t t' := fun ht ht' => (hu.not_isNone ht ht').elim
      rcases hu with ⟨ht, rfl⟩ | ⟨ht', rfl⟩
      · exact ⟨fun h => ih'.mpr h.2.2, fun h => ⟨hvacuous, all_of_isSome_noVersions? ht, ih'.mp h⟩⟩
      · exact ⟨fun h => ih.mpr h.2.1, fun h => ⟨hvacuous, ih.mp h, all_of_isSome_noVersions? ht'⟩⟩
    have hcollapse := collapsesTo terms shared t t'
    generalize (derived terms shared t t').collapse = w at hcollapse
    cases hcollapse with
    | kept ht ht' =>
      exact ⟨fun h => ⟨fun _ _ => h.1, ih.mp h.2.1, ih'.mp h.2.2⟩,
        fun h => ⟨h.1 ht ht', ih.mpr h.2.1, ih'.mpr h.2.2⟩⟩
    | absorbed hu hw => rw [hbeside hu, (absorbed_of_absorb hw).isFolded]
    | refused hu halone =>
      have hfolded := hu.isFolded (by rwa [standsAlone_collapse] at halone) terms shared
      exact iff_of_true hfolded ((hbeside hu).mpr (all_of_standsAlone halone))

end collapse

end Tree

namespace Explanation

variable {e : Explanation P V S M} {k : Nat} {t : Tree P V S M}

/-! ## Folded explanations -/

/-- At a place is a fact that takes in no missing versions. -/
def standsAloneAt (e : Explanation P V S M) (place : Nat) : Bool :=
  match e.nodes[place]? with
  | some (.fact f) => f.standsAlone
  | _ => false

/-- There is nothing to fold in an explanation: where one cause of a node says that there are no versions, the
other is a fact that takes in none. -/
def IsFolded (e : Explanation P V S M) : Prop :=
  ∀ k ∈ e.preorder, ∀ terms shared first second, e.nodes[k]? = some (.derived terms shared first second) →
    ((e.noVersionsAt? first).isSome → e.standsAloneAt second) ∧
      ((e.noVersionsAt? second).isSome → e.standsAloneAt first)

/-- A node rests on missing versions alone, brought in one after the other: it says that there are no versions;
or one of its causes does, and the other rests on missing versions alone. -/
inductive OnlyMissing (e : Explanation P V S M) : Nat → Prop
  | leaf {k : Nat} (h : (e.noVersionsAt? k).isSome) : OnlyMissing e k
  | first {k : Nat} {terms : OrderedMap P (Term S)} {shared : Option Nat} {first second : Nat}
      (hn : e.nodes[k]? = some (.derived terms shared first second)) (hfirst : (e.noVersionsAt? first).isSome)
      (hsecond : OnlyMissing e second) : OnlyMissing e k
  | second {k : Nat} {terms : OrderedMap P (Term S)} {shared : Option Nat} {first second : Nat}
      (hn : e.nodes[k]? = some (.derived terms shared first second)) (hfirst : OnlyMissing e first)
      (hsecond : (e.noVersionsAt? second).isSome) : OnlyMissing e k

/-- Folding once is enough: where neither cause of a node says that there are no versions, but one rests on
missing versions alone, the other is a fact that takes in none. -/
def FoldsAtOnce (e : Explanation P V S M) : Prop :=
  ∀ k ∈ e.preorder, ∀ terms shared first second, e.nodes[k]? = some (.derived terms shared first second) →
    e.noVersionsAt? first = none → e.noVersionsAt? second = none →
    (e.OnlyMissing first → e.standsAloneAt second) ∧ (e.OnlyMissing second → e.standsAloneAt first)

def Alike (e e' : Explanation P V S M) : Prop := ∃ t, e.Unfolds e.root t ∧ e'.Unfolds e'.root t

theorem Unfolds.standsAlone (h : e.Unfolds k t) : t.standsAlone = e.standsAloneAt k := by
  unfold standsAloneAt
  cases h with
  | fact hn | derived hn =>
    rw [hn]
    rfl

theorem restsOn_iff {j : Nat} : e.RestsOn k j ↔ j = k ∨ ∃ c ∈ e.causesAt k, e.RestsOn c j := by
  rw [RestsOn, Relation.ReflTransGen.cases_head_iff, eq_comm]

theorem Unfolds.all_iff {r : Tree P V S M → Tree P V S M → Prop} {r' : Nat → Nat → Prop}
    (hr : ∀ {c c' u u'}, e.Unfolds c u → e.Unfolds c' u' → (r u u' ↔ r' c c')) (h : e.Unfolds k t) :
    t.All r ↔ ∀ j, e.RestsOn k j → ∀ terms shared first second,
      e.nodes[j]? = some (.derived terms shared first second) → r' first second := by
  induction h with
  | @fact k f hn =>
    refine iff_of_true trivial fun j hj terms shared first second hn' => ?_
    rw [restsOn_iff, causesAt, hn] at hj
    rcases hj with rfl | ⟨c, hc, -⟩
    · cases hn.symm.trans hn'
    · cases hc
  | @derived k terms shared first second t t' hn ht ht' ih ih' =>
    rw [Tree.All, ih, ih', hr ht ht']
    refine ⟨fun h j hj terms' shared' first' second' hn' => ?_, fun h => ⟨?_, ?_, ?_⟩⟩
    · rw [restsOn_iff, causesAt_of_derived hn] at hj
      rcases hj with rfl | ⟨c, hc, hj⟩
      · cases hn.symm.trans hn'
        exact h.1
      · rcases List.mem_pair.mp hc with rfl | rfl
        · exact h.2.1 j hj _ _ _ _ hn'
        · exact h.2.2 j hj _ _ _ _ hn'
    · exact h k .refl _ _ _ _ hn
    · exact fun j hj => h j (restsOn_iff.mpr (.inr ⟨first, by simp [causesAt_of_derived hn], hj⟩))
    · exact fun j hj => h j (restsOn_iff.mpr (.inr ⟨second, by simp [causesAt_of_derived hn], hj⟩))

theorem Unfolds.isFolded_iff (h : e.Unfolds e.root t) : t.IsFolded ↔ e.IsFolded := by
  simp only [IsFolded, mem_preorder_iff]
  refine Unfolds.all_iff (fun hu hu' => ?_) h
  rw [Tree.Settled, hu.noVersions?, hu'.noVersions?, hu.standsAlone, hu'.standsAlone]

section collapse

variable [DecidableEq P] [VersionSet S V]

/-- Exactly what rests on missing versions alone collapses to a leaf that says that there are none. -/
theorem Unfolds.onlyMissing_iff (h : e.Unfolds k t) : t.collapse.noVersions?.isSome ↔ e.OnlyMissing k := by
  refine ⟨fun hsome => ?_, fun hmissing => ?_⟩
  · induction h with
    | fact hn => exact .leaf (by rwa [← (Unfolds.fact hn).noVersions?])
    | derived hn ht ht' ih ih' =>
      rcases Tree.isSome_noVersions?_collapse_iff.mp hsome with ⟨hfirst, hsecond⟩ | ⟨hfirst, hsecond⟩
      · exact .first hn (by rwa [← ht.noVersions?]) (ih' hsecond)
      · exact .second hn (ih hfirst) (by rwa [← ht'.noVersions?])
  · induction hmissing generalizing t with
    | leaf hk =>
      rw [← h.noVersions?] at hk
      exact Tree.isSome_noVersions?_collapse hk
    | first hn hfirst _ ih =>
      cases h with
      | fact hn' => cases hn.symm.trans hn'
      | derived hn' ht ht' =>
        cases hn.symm.trans hn'
        rw [← ht.noVersions?] at hfirst
        exact Tree.isSome_noVersions?_collapse_iff.mpr (.inl ⟨hfirst, ih ht'⟩)
    | second hn _ hsecond ih =>
      cases h with
      | fact hn' => cases hn.symm.trans hn'
      | derived hn' ht ht' =>
        cases hn.symm.trans hn'
        rw [← ht'.noVersions?] at hsecond
        exact Tree.isSome_noVersions?_collapse_iff.mpr (.inr ⟨ih ht, hsecond⟩)

theorem Unfolds.foldsAtOnce_iff (h : e.Unfolds e.root t) : t.collapse.IsFolded ↔ e.FoldsAtOnce := by
  rw [Tree.isFolded_collapse_iff]
  simp only [FoldsAtOnce, mem_preorder_iff]
  refine Unfolds.all_iff (fun hu hu' => ?_) h
  rw [Tree.SettledAfter, Tree.Settled, hu.onlyMissing_iff, hu'.onlyMissing_iff, Tree.standsAlone_collapse,
    Tree.standsAlone_collapse, hu.noVersions?, hu'.noVersions?, hu.standsAlone, hu'.standsAlone]

theorem causes_collapseNode {c : Collapsed P V S M} {n : Nat} {node : Node P V S M} (h : c.Filled n)
    (hcauses : ∀ cause ∈ node.causes, cause < n) :
    ∃ node', (e.collapseNode c node).nodes = c.nodes.push node' ∧ ∀ cause ∈ node'.causes, cause < n := by
  have hfold : ∀ package versions sibling, ∃ node', (c.fold node package versions sibling).nodes =
      c.nodes.push node' ∧ ∀ cause ∈ node'.causes, cause < n := by
    intro package versions sibling
    unfold Collapsed.fold
    split
    · exact ⟨node, rfl, hcauses⟩
    · split
      · next merged _ => exact ⟨.fact merged, rfl, fun cause hcause => by cases hcause⟩
      · exact ⟨node, rfl, hcauses⟩
    · exact ⟨node, rfl, hcauses⟩
  cases node with
  | fact f => exact ⟨.fact f, rfl, hcauses⟩
  | derived terms shared first second =>
    rw [collapseNode]
    split
    · exact hfold _ _ _
    · exact hfold _ _ _
    · refine ⟨_, rfl, fun cause hcause => ?_⟩
      rcases List.mem_pair.mp hcause with rfl | rfl
      · have hlt := hcauses first (by simp [Node.causes])
        exact (h.image_le first hlt).trans_lt hlt
      · have hlt := hcauses second (by simp [Node.causes])
        exact (h.image_le second hlt).trans_lt hlt

theorem CausesFirst.collapse (h : e.CausesFirst) : e.collapse.CausesFirst := by
  suffices hfold : e.collapsed.Filled e.nodes.size ∧ ∀ (place : Nat) (node : Node P V S M),
      e.collapsed.nodes[place]? = some node → ∀ cause ∈ node.causes, cause < place from hfold.2
  refine Array.foldl_induction (motive := fun n c => Collapsed.Filled c n ∧
    ∀ (place : Nat) (node : Node P V S M), c.nodes[place]? = some node → ∀ cause ∈ node.causes, cause < place)
    ⟨⟨rfl, rfl, by simp⟩, by simp⟩ ?_
  rintro n c ⟨hfilled, hlt⟩
  have hcauses : ∀ cause ∈ (e.nodes[n] : Node P V S M).causes, cause < n.1 :=
    h n.1 _ (Array.getElem?_eq_getElem n.2)
  have hfilled' : (e.collapseNode c e.nodes[n]).Filled (n + 1) := by
    obtain ⟨node, image, hc, hle, -⟩ := collapseNode_spec (e := e) hfilled hcauses
    rw [hc]
    exact hfilled.push node image hle
  obtain ⟨node', hnodes, hlt'⟩ := causes_collapseNode (e := e) hfilled hcauses
  refine ⟨hfilled', fun place node hn => ?_⟩
  rw [hnodes, Array.getElem?_push, hfilled.nodes] at hn
  split_ifs at hn with hplace
  · cases hn
    exact hplace ▸ hlt'
  · exact hlt place node hn

theorem CausesFirst.root_lt_size_collapse (h : e.CausesFirst) (hroot : e.root < e.nodes.size) :
    e.collapse.root < e.collapse.nodes.size := by
  have hsize : e.collapse.nodes.size = e.nodes.size := (collapsed_spec h).1.nodes
  rw [hsize]
  exact (h.image_spec hroot).1

/-- The tree of a collapsed explanation is the tree of the explanation, collapsed. -/
theorem CausesFirst.unfolds_collapse (h : e.CausesFirst) (hroot : e.root < e.nodes.size)
    (ht : e.Unfolds e.root t) : e.collapse.Unfolds e.collapse.root t.collapse :=
  (h.collapses.mirrors h).unfolds e.root t hroot ht

/-- An explanation is the same tree when it is collapsed exactly if there is nothing to fold in it. -/
theorem CausesFirst.alike_collapse_iff (h : e.CausesFirst) (hroot : e.root < e.nodes.size) :
    e.collapse.Alike e ↔ e.IsFolded := by
  obtain ⟨t, ht, -⟩ := h.existsUnique_unfolds hroot
  have hcollapse := h.unfolds_collapse hroot ht
  rw [← ht.isFolded_iff, ← Tree.collapse_eq_self_iff]
  refine ⟨fun ⟨u, hu, hu'⟩ => ?_, fun hself => ⟨t, by rwa [hself] at hcollapse, ht⟩⟩
  rw [hcollapse.unique hu, hu'.unique ht]

/-- Collapsing an explanation leaves nothing to fold exactly if folding once is enough. -/
theorem CausesFirst.isFolded_collapse_iff (h : e.CausesFirst) (hroot : e.root < e.nodes.size) :
    e.collapse.IsFolded ↔ e.FoldsAtOnce := by
  obtain ⟨t, ht, -⟩ := h.existsUnique_unfolds hroot
  rw [← ht.foldsAtOnce_iff, (h.unfolds_collapse hroot ht).isFolded_iff]

omit [DecidableEq P] [VersionSet S V] in
/-- Folding once is enough where no node follows from two leaves that say that there are no versions. -/
theorem foldsAtOnce_of_forall
    (h : ∀ k ∈ e.preorder, e.isDerivedAt k = true → ∃ c ∈ e.causesAt k, (e.noVersionsAt? c).isNone) :
    e.FoldsAtOnce := by
  have hnone : ∀ {k terms shared first second}, k ∈ e.preorder →
      e.nodes[k]? = some (.derived terms shared first second) → first ∈ e.preorder ∧ second ∈ e.preorder ∧
        ((e.noVersionsAt? first).isSome → (e.noVersionsAt? second).isSome → False) := by
    intro k terms shared first second hk hn
    have hcauses := causesAt_of_derived hn
    refine ⟨mem_preorder_of_mem_causesAt hk (by simp [hcauses]),
      mem_preorder_of_mem_causesAt hk (by simp [hcauses]), fun hfirst hsecond => ?_⟩
    obtain ⟨c, hc, hnone⟩ := h k hk (isDerivedAt_iff.mpr ⟨_, _, _, _, hn⟩)
    rw [hcauses] at hc
    rcases List.mem_pair.mp hc with rfl | rfl
    · rw [Option.isNone_iff_eq_none.mp hnone] at hfirst
      cases hfirst
    · rw [Option.isNone_iff_eq_none.mp hnone] at hsecond
      cases hsecond
  -- below anything else that rests on missing versions alone are two leaves that say that there are none
  have hleaf : ∀ {k}, e.OnlyMissing k → k ∈ e.preorder → (e.noVersionsAt? k).isSome := by
    intro k hmissing hk
    induction hmissing with
    | leaf h => exact h
    | first hn hfirst _ ih =>
      obtain ⟨-, hmem, hapart⟩ := hnone hk hn
      exact (hapart hfirst (ih hmem)).elim
    | second hn _ hsecond ih =>
      obtain ⟨hmem, -, hapart⟩ := hnone hk hn
      exact (hapart (ih hmem) hsecond).elim
  intro k hk terms shared first second hn hfirst hsecond
  obtain ⟨hmem, hmem', -⟩ := hnone hk hn
  refine ⟨fun hmissing => ?_, fun hmissing => ?_⟩
  · have hsome := hleaf hmissing hmem
    rw [hfirst] at hsome
    cases hsome
  · have hsome := hleaf hmissing hmem'
    rw [hsecond] at hsome
    cases hsome

/-- Collapsing the explanation of a stored incompatibility leaves nothing to fold, and collapsing it once more
gives the same tree, exactly if next to what follows from missing versions alone stand only leaves that say that
there are no versions and facts that take in none. -/
theorem ofStore_collapse_isFolded_iff {s : Store P V S M} {id : Nat} (hlt : ∀ n, ∀ c ∈ s.causesOf n, c < n)
    (hid : id < s.size) :
    ((ofStore s id).collapse.IsFolded ↔ (ofStore s id).FoldsAtOnce) ∧
      ((ofStore s id).collapse.collapse.Alike (ofStore s id).collapse ↔ (ofStore s id).FoldsAtOnce) := by
  have hfirst : (ofStore s id).CausesFirst := causesFirst_ofStore hlt hid
  have hroot : (ofStore s id).root < (ofStore s id).nodes.size := root_lt_size_ofStore hlt hid
  have hfolded := hfirst.isFolded_collapse_iff hroot
  exact ⟨hfolded, (hfirst.collapse.alike_collapse_iff (hfirst.root_lt_size_collapse hroot)).trans hfolded⟩

end collapse

end Explanation

namespace PackageTable

/-- Both versions of package 1 require the same missing version of package 2, and nothing is left to fold. -/
theorem isFolded_threePackages :
    (resolveWithin 90 (threePackages (.single 2 (.atLeast 2))).provider () 0 1).1 = .error (.noSolution 10) ∧
      (Explanation.ofStore (resolveWithin 90 (threePackages (.single 2 (.atLeast 2))).provider () 0
        1).2.state.store 10).collapse.IsFolded ∧
      (Explanation.ofStore (resolveWithin 90 (threePackages (.single 2 (.atLeast 2))).provider () 0
        1).2.state.store 10).collapse.collapse.Alike (Explanation.ofStore (resolveWithin 90
          (threePackages (.single 2 (.atLeast 2))).provider () 0 1).2.state.store 10).collapse := by
  have hproper := threePackages_proper (proper_single_atLeast 2 2)
  have hlt := (resolveWithin_grounded (provider_answersProper hproper) 90 () 0 1).causes_lt
  have hrun : (resolveWithin 90 (threePackages (.single 2 (.atLeast 2))).provider () 0 1).1 =
        .error (.noSolution 10) ∧
      10 < (resolveWithin 90 (threePackages (.single 2 (.atLeast 2))).provider () 0 1).2.state.store.size ∧
      let e := Explanation.ofStore (resolveWithin 90 (threePackages (.single 2 (.atLeast 2))).provider () 0
        1).2.state.store 10
      ∀ k ∈ e.preorder, e.isDerivedAt k = true → ∃ c ∈ e.causesAt k, (e.noVersionsAt? c).isNone := by
    rw [(threePackages_ascending _).provider_eq]
    decide +kernel
  obtain ⟨hrun, hid, hnone⟩ := hrun
  have hatOnce := Explanation.foldsAtOnce_of_forall hnone
  obtain ⟨hfolded, halike⟩ := Explanation.ofStore_collapse_isFolded_iff hlt hid
  exact ⟨hrun, hfolded.mpr hatOnce, halike.mpr hatOnce⟩

/-- Version 1 of package 1 requires any version of package 2 but the one there is, version 2 one from 2 on. -/
def missingApart : PackageTable ℕ ℕ (Ranges ℕ) := threePackages (.single 2 (Ranges.singleton 1).complement)

/-- That neither of both is there is one missing version, which is left next to what it should be folded into. -/
theorem not_isFolded_missingApart :
    (resolveWithin 90 missingApart.provider () 0 1).1 = .error (.noSolution 12) ∧
      ¬ (Explanation.ofStore (resolveWithin 90 missingApart.provider () 0 1).2.state.store
        12).collapse.IsFolded ∧
      ¬ (Explanation.ofStore (resolveWithin 90 missingApart.provider () 0 1).2.state.store
        12).collapse.collapse.Alike (Explanation.ofStore (resolveWithin 90 missingApart.provider () 0
          1).2.state.store 12).collapse := by
  have hproper : missingApart.Proper := threePackages_proper fun r hr => by
    obtain rfl := List.mem_singleton.mp hr
    exact Ranges.canonical_complement (Ranges.canonical_singleton 1)
  have hlt := (resolveWithin_grounded (provider_answersProper hproper) 90 () 0 1).causes_lt
  have hrun : (resolveWithin 90 missingApart.provider () 0 1).1 = .error (.noSolution 12) ∧
      12 < (resolveWithin 90 missingApart.provider () 0 1).2.state.store.size ∧
      let e := (Explanation.ofStore (resolveWithin 90 missingApart.provider () 0 1).2.state.store 12).collapse
      5 ∈ e.preorder ∧ e.isDerivedAt 5 = true ∧ e.causesAt 5 = [3, 4] ∧ (e.noVersionsAt? 3).isSome ∧
        e.standsAloneAt 4 = false := by
    unfold missingApart
    rw [(threePackages_ascending _).provider_eq]
    decide +kernel
  obtain ⟨hrun, hid, hmem, hderived, hcauses, hmissing, halone⟩ := hrun
  have hleft : ¬ (Explanation.ofStore (resolveWithin 90 missingApart.provider () 0 1).2.state.store
      12).collapse.IsFolded := by
    intro hfolded
    obtain ⟨terms, shared, first, second, hn⟩ := Explanation.isDerivedAt_iff.mp hderived
    rw [Explanation.causesAt_of_derived hn] at hcauses
    cases hcauses
    rw [(hfolded 5 hmem _ _ _ _ hn).1 hmissing] at halone
    cases halone
  have hfirst := Explanation.causesFirst_ofStore hlt hid
  have hroot := hfirst.root_lt_size_collapse (Explanation.root_lt_size_ofStore hlt hid)
  exact ⟨hrun, hleft, fun halike => hleft ((hfirst.collapse.alike_collapse_iff hroot).mp halike)⟩

end PackageTable

end DependencyResolution
