import DependencyResolution.Proofs.Explanation.Stack
import DependencyResolution.Proofs.Explanation.Unfolding
import DependencyResolution.Version.Ranges.Basic

/-!
# Collapsing and simplifying with a stack

Collapsing and simplifying can be done by a pass that settles each node when the causes that it needs are
settled (`Explanation.collapseTask`, `Explanation.simplifyTask`). Such a pass ends, and mirrors the same
recursion on trees as doing it for one node after the other: each node is done once, and what is still a cause
of several nodes is the same node for all of them (`Explanation.CausesFirst.passes_mirror`).
-/

namespace DependencyResolution

variable {P V S M : Type}

namespace Explanation

variable [VersionSet S V] {e : Explanation P V S M} {nodes nodes' : Array (Node P V S M)} {image : Nat → Nat}
  {settled : OrderedMap Nat Nat} {k : Nat}

/-! ## Collapsing -/

section collapse

variable [DecidableEq P] {first second sibling : Nat} {package : P} {versions : S}

/-- What stands for a node one of whose causes says that there are no versions of a package in a set: what stands
for the other cause, if that is derived; a fact that has taken the missing versions in, if it can; or else the
node itself. -/
def foldInto (nodes : Array (Node P V S M)) (image : Nat → Nat) (k : Nat) (package : P) (versions : S)
    (sibling : Nat) : Array (Node P V S M) × Nat :=
  match nodes[image sibling]? with
  | some (.derived ..) => (nodes, image sibling)
  | some (.fact f) =>
    match f.absorb package versions with
    | some merged => Pass.push nodes (.fact merged)
    | none => (nodes, k)
  | none => (nodes, k)

def collapseTask (e : Explanation P V S M) : Pass.Task P V S M where
  needs := e.collapseNeeds
  settle nodes image k :=
    match e.nodes[k]? with
    | some (.derived terms shared first second) =>
      match e.noVersionsAt? first, e.noVersionsAt? second with
      | some (package, versions), _ => foldInto nodes image k package versions second
      | none, some (package, versions) => foldInto nodes image k package versions first
      | none, none => Pass.push nodes (.derived terms shared (image first) (image second))
    | _ => (nodes, k)

theorem CollapsesAt.exists_node (h : e.CollapsesAt nodes image k) : ∃ node, nodes[image k]? = some node := by
  cases h with
  | fact _ hi hn' | unmerged _ _ _ _ hi hn' => exact ⟨_, by rw [hi]; exact hn'⟩
  | kept _ _ _ hn' | merged _ _ _ _ hn' => exact ⟨_, hn'⟩
  | dropped _ _ hs hi =>
    obtain ⟨_, _, _, _, hs⟩ := hs
    exact ⟨_, by rw [hi]; exact hs⟩

/-- What becomes of a node depends on what stands for it and for the causes that it needs. -/
theorem local_collapsesAt : Pass.Local e.collapseTask e.CollapsesAt := by
  intro nodes nodes' image image' k hextends himage h
  rw [List.forall_mem_cons] at himage
  obtain ⟨hk, hneeds⟩ := himage
  have hsibling : ∀ {terms shared first second package versions sibling},
      e.nodes[k]? = some (.derived terms shared first second) →
      e.Folds first second package versions sibling → image' sibling = image sibling ∧
        ∀ node, nodes[image sibling]? = some node → nodes'[image' sibling]? = some node := by
    intro terms shared first second package versions sibling hn hfolds
    have hsame := hneeds sibling (by simp [collapseTask, collapseNeeds_of_folds hn hfolds])
    exact ⟨hsame, fun node hs => by rw [hsame]; exact hextends _ _ hs⟩
  cases h with
  | fact hn hi hn' => exact .fact hn (hk.trans hi) (hextends _ _ hn')
  | @kept terms shared first second hn hfirst hsecond hn' =>
    have hcauses : ∀ c ∈ [first, second], image' c = image c := by
      rw [← collapseNeeds_of_none hn hfirst hsecond]
      exact hneeds
    rw [List.forall_mem_cons, List.forall_mem_singleton] at hcauses
    refine .kept hn hfirst hsecond ?_
    rw [hk, hcauses.1, hcauses.2]
    exact hextends _ _ hn'
  | dropped hn hfolds hs hi =>
    obtain ⟨hsame, hnode⟩ := hsibling hn hfolds
    obtain ⟨_, _, _, _, hs⟩ := hs
    exact .dropped hn hfolds ⟨_, _, _, _, hnode _ hs⟩ (by rw [hk, hsame, hi])
  | merged hn hfolds hs hm hn' =>
    exact .merged hn hfolds ((hsibling hn hfolds).2 _ hs) hm (by rw [hk]; exact hextends _ _ hn')
  | unmerged hn hfolds hs hm hi hn' =>
    exact .unmerged hn hfolds ((hsibling hn hfolds).2 _ hs) hm (hk.trans hi) (hextends _ _ hn')

/-- The nodes there were stand where they did, and what is settled has turned into what it should. -/
def CollapsesSettled (e : Explanation P V S M) (nodes : Array (Node P V S M)) (settled : OrderedMap Nat Nat) :
    Prop :=
  Pass.Extends e.nodes nodes ∧ ∀ k, settled.contains k = true → e.CollapsesAt nodes (Pass.imageIn settled) k

theorem foldInto_spec {terms : OrderedMap P (Term S)} {shared : Option Nat}
    (hnode : ∃ node, nodes[image sibling]? = some node) (hextends : Pass.Extends e.nodes nodes)
    (hn : e.nodes[k]? = some (.derived terms shared first second))
    (hfolds : e.Folds first second package versions sibling) {nodes' : Array (Node P V S M)} {place : Nat}
    (hfold : foldInto nodes image k package versions sibling = (nodes', place)) {image' : Nat → Nat}
    (hk : image' k = place) (hsibling : image' sibling = image sibling) :
    Pass.Extends nodes nodes' ∧ e.CollapsesAt nodes' image' k := by
  obtain ⟨node, hs⟩ := hnode
  rw [← hsibling] at hs
  unfold foldInto at hfold
  rw [← hsibling, hs] at hfold
  cases node with
  | derived terms' shared' first' second' =>
    cases hfold
    exact ⟨.refl _, .dropped hn hfolds ⟨_, _, _, _, hs⟩ hk⟩
  | fact f =>
    dsimp only at hfold
    cases hm : f.absorb package versions with
    | some merged =>
      rw [hm] at hfold
      cases hfold
      have hext := Pass.extends_push nodes (.fact merged)
      exact ⟨hext, .merged hn hfolds (hext _ _ hs) hm (by rw [hk]; exact Array.getElem?_push_size)⟩
    | none =>
      rw [hm] at hfold
      cases hfold
      exact ⟨.refl _, .unmerged hn hfolds hs hm hk (hextends _ _ hn)⟩

theorem keptBy_collapseTask : Pass.KeptBy e.collapseTask e.nodes.size e.CollapsesSettled := by
  rintro nodes settled k hk ⟨hextends, hturns⟩ hclosed hready
  have himage : ∀ {r c}, c ∈ e.collapseNeeds k →
      Pass.imageIn (settled.insert k r) c = Pass.imageIn settled c ∧
        ∃ node, nodes[Pass.imageIn settled c]? = some node :=
    fun hc => ⟨hready.imageIn_insert hc, (hturns _ (hready.2 _ hc)).exists_node⟩
  suffices hspec : Pass.Extends nodes (e.collapseTask.settle nodes (Pass.imageIn settled) k).1 ∧
      e.CollapsesAt (e.collapseTask.settle nodes (Pass.imageIn settled) k).1 (Pass.imageIn
        (settled.insert k (e.collapseTask.settle nodes (Pass.imageIn settled) k).2)) k from
    ⟨hextends.trans hspec.1, local_collapsesAt.insert hturns hclosed hready hspec.1 hspec.2⟩
  obtain ⟨node, hn⟩ : ∃ node, e.nodes[k]? = some node := ⟨_, Array.getElem?_eq_getElem hk⟩
  cases node with
  | fact f =>
    simp only [collapseTask, hn]
    exact ⟨.refl _, .fact hn Pass.imageIn_insert_self (hextends _ _ hn)⟩
  | derived terms shared first second =>
    have hfold : ∀ {package versions sibling}, e.Folds first second package versions sibling →
        Pass.Extends nodes (foldInto nodes (Pass.imageIn settled) k package versions sibling).1 ∧
          e.CollapsesAt (foldInto nodes (Pass.imageIn settled) k package versions sibling).1 (Pass.imageIn
            (settled.insert k (foldInto nodes (Pass.imageIn settled) k package versions sibling).2)) k := by
      intro package versions sibling hfolds
      obtain ⟨hsame, hnode⟩ := himage (by rw [collapseNeeds_of_folds hn hfolds]; exact List.mem_singleton_self _)
      exact foldInto_spec hnode hextends hn hfolds rfl Pass.imageIn_insert_self hsame
    simp only [collapseTask, hn]
    cases hfirst : e.noVersionsAt? first with
    | some missing => exact hfold (Or.inl ⟨hfirst, rfl⟩)
    | none =>
      cases hsecond : e.noVersionsAt? second with
      | some missing => exact hfold (Or.inr ⟨hfirst, hsecond, rfl⟩)
      | none =>
        rw [collapseNeeds_of_none hn hfirst hsecond] at himage
        refine ⟨Pass.extends_push _ _, .kept hn hfirst hsecond ?_⟩
        rw [Pass.imageIn_insert_self, (himage (c := first) (by simp)).1, (himage (c := second) (by simp)).1]
        exact Array.getElem?_push_size

/-- Collapsing with a stack ends, and mirrors collapsing trees. It deals with everything that the root rests on,
except leaves that say that there are no versions and are only folded. -/
theorem CausesFirst.exists_collapse_finished (h : e.CausesFirst) (hroot : e.root < e.nodes.size) :
    ∃ n p, (Pass.step e.collapseTask)^[n] (Pass.start e.nodes e.root) = p ∧ p.stack = [] ∧
      p.settled.contains e.root = true ∧ (∀ k, p.settled.contains k = true → e.RestsOn e.root k) ∧
      (∀ k, e.RestsOn e.root k → p.settled.contains k = true ∨ (e.noVersionsAt? k).isSome) ∧
      e.Mirrors ⟨p.nodes, p.imageOf e.root⟩ Tree.collapse p.imageOf (p.settled.contains · = true) := by
  have hstart : e.CollapsesSettled e.nodes .empty := ⟨.refl _, fun k hk => by cases hk⟩
  obtain ⟨n, p, hp, hstack, ⟨hextends, hturns⟩, hsettled⟩ := Pass.exists_finished
    (fun k c hc => h.lt (mem_causesAt_of_mem_collapseNeeds hc)) keptBy_collapseTask hroot hstart
  have hneeds : ∀ k, p.settled.contains k = true → ∀ c ∈ e.collapseNeeds k, p.settled.contains c = true :=
    fun k hk c hc => (hsettled c).mpr (((hsettled k).mp hk).tail hc)
  refine ⟨n, p, hp, hstack, (hsettled _).mpr .refl, fun k hk => ?_, fun k hk => ?_, ?_⟩
  · exact Relation.ReflTransGen.mono (fun _ _ => mem_causesAt_of_mem_collapseNeeds) _ _ ((hsettled k).mp hk)
  · induction hk with
    | refl => exact Or.inl ((hsettled _).mpr .refl)
    | @tail k c _ hc ih =>
      rcases ih with hk | hk
      · exact (mem_collapseNeeds_or_isSome hc).imp_left (hneeds k hk c)
      · -- a leaf has no causes
        obtain ⟨⟨package, versions⟩, hleaf⟩ := Option.isSome_iff_exists.mp hk
        rw [causesAt, noVersionsAt?_eq_some hleaf] at hc
        cases hc
  · refine Collapses.mirrors ⟨hturns, hneeds, fun k package versions hk => ?_⟩ h
    cases hdone : p.settled.contains k with
    | true => exact (hturns k hdone).leaf hk
    | false =>
      have hn := noVersionsAt?_eq_some hk
      have hnone : p.settled.get? k = none := by simpa [OrderedMap.contains] using hdone
      exact ⟨by rw [Pass.imageOf, Pass.imageIn, hnone, Option.getD_none], (hextends k _ hn).trans hn.symm⟩

end collapse

/-! ## Simplifying -/

section simplify

variable {known : P → List V}

def simplifyTask (e : Explanation P V S M) (known : P → List V) : Pass.Task P V S M where
  needs := e.causesAt
  settle nodes image k :=
    match e.nodes[k]? with
    | some (.fact f) => Pass.push nodes (.fact (f.simplify known))
    | some (.derived terms shared first second) =>
      Pass.push nodes (.derived terms shared (image first) (image second))
    | none => (nodes, k)

theorem local_simplifiesAt : Pass.Local (e.simplifyTask known) (e.SimplifiesAt known) := by
  intro nodes nodes' image image' k hextends himage h
  rw [List.forall_mem_cons] at himage
  obtain ⟨hk, hneeds⟩ := himage
  cases h with
  | fact hn hn' => exact .fact hn (by rw [hk]; exact hextends _ _ hn')
  | derived hn hn' =>
    have hcauses := hneeds
    simp only [simplifyTask, causesAt_of_derived hn] at hcauses
    rw [List.forall_mem_cons, List.forall_mem_singleton] at hcauses
    refine .derived hn ?_
    rw [hk, hcauses.1, hcauses.2]
    exact hextends _ _ hn'

/-- What is settled has turned into what it should. -/
def SimplifiesSettled (e : Explanation P V S M) (known : P → List V) (nodes : Array (Node P V S M))
    (settled : OrderedMap Nat Nat) : Prop :=
  ∀ k, settled.contains k = true → e.SimplifiesAt known nodes (Pass.imageIn settled) k

theorem keptBy_simplifyTask :
    Pass.KeptBy (e.simplifyTask known) e.nodes.size (e.SimplifiesSettled known) := by
  intro nodes settled k hk hturns hclosed hready
  suffices hspec : ∃ node, (e.simplifyTask known).settle nodes (Pass.imageIn settled) k = Pass.push nodes node ∧
      e.SimplifiesAt known (nodes.push node) (Pass.imageIn (settled.insert k nodes.size)) k by
    obtain ⟨node, hsettle, hnew⟩ := hspec
    rw [hsettle]
    exact local_simplifiesAt.insert hturns hclosed hready (Pass.extends_push nodes node) hnew
  obtain ⟨node, hn⟩ : ∃ node, e.nodes[k]? = some node := ⟨_, Array.getElem?_eq_getElem hk⟩
  cases node with
  | fact f =>
    refine ⟨.fact (f.simplify known), by simp only [simplifyTask, hn], .fact hn ?_⟩
    rw [Pass.imageIn_insert_self]
    exact Array.getElem?_push_size
  | derived terms shared first second =>
    have hsettle : (e.simplifyTask known).settle nodes (Pass.imageIn settled) k =
        Pass.push nodes (.derived terms shared (Pass.imageIn settled first) (Pass.imageIn settled second)) := by
      simp only [simplifyTask, hn]
    have himage : ∀ c ∈ e.causesAt k,
        Pass.imageIn (settled.insert k nodes.size) c = Pass.imageIn settled c :=
      fun c hc => hready.imageIn_insert hc
    rw [causesAt_of_derived hn, List.forall_mem_cons, List.forall_mem_singleton] at himage
    refine ⟨_, hsettle, .derived hn ?_⟩
    rw [Pass.imageIn_insert_self, himage.1, himage.2]
    exact Array.getElem?_push_size

/-- Simplifying with a stack ends, deals with everything that the root rests on, and mirrors simplifying
trees. -/
theorem CausesFirst.exists_simplify_finished (h : e.CausesFirst) (hroot : e.root < e.nodes.size) :
    ∃ n p, (Pass.step (e.simplifyTask known))^[n] (Pass.start e.nodes e.root) = p ∧ p.stack = [] ∧
      (∀ k, p.settled.contains k = true ↔ e.RestsOn e.root k) ∧
      e.Mirrors ⟨p.nodes, p.imageOf e.root⟩ (Tree.simplify known) p.imageOf (p.settled.contains · = true) := by
  have hstart : e.SimplifiesSettled known e.nodes .empty := fun k hk => by cases hk
  obtain ⟨n, p, hp, hstack, hturns, hsettled⟩ := Pass.exists_finished (fun k c hc => h.lt hc)
    keptBy_simplifyTask hroot hstart
  refine ⟨n, p, hp, hstack, hsettled, Simplifies.mirrors ⟨hturns, fun k hk c hc => ?_⟩⟩
  exact (hsettled c).mpr (((hsettled k).mp hk).tail hc)

end simplify

/-! ## Both passes -/

section passes

variable [DecidableEq P]

/-- Where causes come first, every node that the root rests on unfolds to one tree. Collapsing and simplifying
mirror the recursions on these trees, done for one node after the other as well as with a stack; and a pass with
a stack ends, having dealt with all these nodes, except that collapsing may pass over leaves that say that there
are no versions. -/
theorem CausesFirst.passes_mirror (h : e.CausesFirst) (hroot : e.root < e.nodes.size) (known : P → List V) :
    (∀ k, e.RestsOn e.root k → ∃! t, e.Unfolds k t) ∧
      e.Mirrors e.collapse Tree.collapse e.collapsed.imageOf (e.RestsOn e.root) ∧
      e.Mirrors (e.simplify known) (Tree.simplify known) id (e.RestsOn e.root) ∧
      (∃ n p, (Pass.step e.collapseTask)^[n] (Pass.start e.nodes e.root) = p ∧ p.stack = [] ∧
        p.settled.contains e.root = true ∧ (∀ k, p.settled.contains k = true → e.RestsOn e.root k) ∧
        (∀ k, e.RestsOn e.root k → p.settled.contains k = true ∨ (e.noVersionsAt? k).isSome) ∧
        e.Mirrors ⟨p.nodes, p.imageOf e.root⟩ Tree.collapse p.imageOf (p.settled.contains · = true)) ∧
      ∃ n p, (Pass.step (e.simplifyTask known))^[n] (Pass.start e.nodes e.root) = p ∧ p.stack = [] ∧
        (∀ k, p.settled.contains k = true ↔ e.RestsOn e.root k) ∧
        e.Mirrors ⟨p.nodes, p.imageOf e.root⟩ (Tree.simplify known) p.imageOf (p.settled.contains · = true) := by
  have hlt : ∀ k, e.RestsOn e.root k → k < e.nodes.size := fun k hk => h.lt_size hroot (mem_preorder hk)
  refine ⟨fun k hk => h.existsUnique_unfolds (hlt k hk), ?_, ?_, h.exists_collapse_finished hroot,
    h.exists_simplify_finished hroot⟩
  · exact (h.collapses.mirrors h).mono hlt
  · exact h.simplifies.mirrors.mono hlt

/-- The root has a shared node as one cause, and as the other a node that collapsing drops for it. -/
def droppedForShared : Explanation ℕ ℕ (Ranges ℕ) String where
  nodes := #[.fact (.noVersions 1 Ranges.full), .fact (.dependency 0 Ranges.full 1 Ranges.full),
    .derived .empty (some 2) 1 0, .fact (.root 0 1), .derived .empty none 0 3, .derived .empty (some 5) 2 4,
    .derived .empty none 0 5, .derived .empty none 5 6]
  root := 7

/-- Afterwards both edges from the root lead to the shared node. -/
theorem droppedForShared_passes_mirror :
    droppedForShared.CausesFirst ∧ droppedForShared.root < droppedForShared.nodes.size ∧
      droppedForShared.collapse.causesAt 7 = [5, 5] ∧
      droppedForShared.Mirrors droppedForShared.collapse Tree.collapse droppedForShared.collapsed.imageOf
        (droppedForShared.RestsOn 7) ∧
      ∃ n p, (Pass.step droppedForShared.collapseTask)^[n] (Pass.start droppedForShared.nodes 7) = p ∧
        p.stack = [] ∧ droppedForShared.Mirrors ⟨p.nodes, p.imageOf 7⟩ Tree.collapse p.imageOf
          (p.settled.contains · = true) := by
  have hcauses : droppedForShared.CausesFirst := causesFirst_iff_forall.mpr (by decide)
  have hroot : droppedForShared.root < droppedForShared.nodes.size := by decide
  obtain ⟨-, hcollapse, -, ⟨n, p, hp, hstack, -, -, -, hmirrors⟩, -⟩ := hcauses.passes_mirror hroot fun _ => []
  exact ⟨hcauses, hroot, by decide, hcollapse, n, p, hp, hstack, hmirrors⟩

end passes

end Explanation

end DependencyResolution
