import DependencyResolution.Explanation.Basic
import DependencyResolution.Proofs.OrderedMap
import Mathlib.Data.Nat.Init
import Mathlib.Logic.Function.Iterate
import Mathlib.Logic.Relation

/-!
# Passes with a stack

A pass over a graph settles nodes, each after those that it needs, and remembers what it has settled. What it
has to settle stands on a stack: the top is dropped if it is settled; if it needs nodes that are not, these go
on top of it; or else it is settled (`Pass.step`). A node may stand on the stack many times, and be settled by
another copy before its turn.

Where all that is needed has smaller numbers a pass ends, having settled what the first node needs, directly or
through others, and nothing else, and whatever settling one node keeps holds in the end
(`Pass.exists_finished`).
-/

namespace DependencyResolution

/-! ## Stacks -/

/-- If a machine can work off every single member of a list from the top of its stack, it can work off the
list. `Post` says what has been achieved by working off some members. -/
theorem exists_iterate_of_forall_mem {σ : Type} (step : σ → σ) (stack : σ → List Nat) (Keeps : σ → Prop)
    (Post : List Nat → σ → σ → Prop) (hnil : ∀ x, Post [] x x)
    (hcons : ∀ k ks x y z, Post [k] x y → Post ks y z → Post (k :: ks) x z) {ks : List Nat}
    (h : ∀ k ∈ ks, ∀ x rest, Keeps x → stack x = k :: rest →
      ∃ n, Keeps (step^[n] x) ∧ stack (step^[n] x) = rest ∧ Post [k] x (step^[n] x)) {x : σ}
    {rest : List Nat} (hx : Keeps x) (hstack : stack x = ks ++ rest) :
    ∃ n, Keeps (step^[n] x) ∧ stack (step^[n] x) = rest ∧ Post ks x (step^[n] x) := by
  induction ks generalizing x with
  | nil => exact ⟨0, hx, hstack, hnil x⟩
  | cons k ks ih =>
    rw [List.forall_mem_cons] at h
    obtain ⟨n, hn, hnstack, hnpost⟩ := h.1 x (ks ++ rest) hx hstack
    obtain ⟨m, hm, hmstack, hmpost⟩ := ih h.2 hn hnstack
    rw [← Function.iterate_add_apply] at hm hmstack hmpost
    exact ⟨m + n, hm, hmstack, hcons k ks _ _ _ hnpost hmpost⟩

/-- One number needs another, directly or through others. -/
def Reaches (needs : Nat → List Nat) : Nat → Nat → Prop := Relation.ReflTransGen fun k c => c ∈ needs k

/-- What working off numbers from a stack achieves: they are done, and besides them only what they need, and
what was done before. -/
structure WorksOff (needs : Nat → List Nat) (ks : List Nat) (before after : Nat → Prop) : Prop where
  all : ∀ k ∈ ks, after k
  mono : ∀ c, before c → after c
  reached : ∀ c, after c → before c ∨ ∃ k ∈ ks, Reaches needs k c

namespace WorksOff

variable {needs : Nat → List Nat} {ks : List Nat} {k c root : Nat} {before between after : Nat → Prop}

theorem nil (before : Nat → Prop) : WorksOff needs [] before before := ⟨by simp, fun _ h => h, fun _ h => Or.inl h⟩

theorem of_done (h : before k) : WorksOff needs [k] before before :=
  ⟨by simpa using h, fun _ h => h, fun _ h => Or.inl h⟩

theorem cons (h : WorksOff needs [k] before between) (h' : WorksOff needs ks between after) :
    WorksOff needs (k :: ks) before after where
  all := List.forall_mem_cons.mpr ⟨h'.mono k (h.all k (List.mem_singleton_self k)), h'.all⟩
  mono c hc := h'.mono c (h.mono c hc)
  reached c hc := by
    rcases h'.reached c hc with hc | ⟨a, ha, hreaches⟩
    · rcases h.reached c hc with hc | ⟨a, ha, hreaches⟩
      · exact Or.inl hc
      · exact Or.inr ⟨a, List.mem_cons.mpr (Or.inl (List.mem_singleton.mp ha)), hreaches⟩
    · exact Or.inr ⟨a, List.mem_cons_of_mem _ ha, hreaches⟩

theorem after_needs (h : WorksOff needs ks before between) (hks : ∀ a ∈ ks, a ∈ needs k)
    (h' : WorksOff needs [k] between after) : WorksOff needs [k] before after where
  all := h'.all
  mono c hc := h'.mono c (h.mono c hc)
  reached c hc := by
    rcases h'.reached c hc with hc | hc
    · refine (h.reached c hc).imp_right ?_
      rintro ⟨a, ha, hreaches⟩
      exact ⟨k, List.mem_singleton_self k, hreaches.head (hks a ha)⟩
    · exact Or.inr hc

theorem before_needs (h : WorksOff needs ks (fun c => c = k ∨ before c) after) (hks : ∀ a ∈ ks, a ∈ needs k) :
    WorksOff needs [k] before after where
  all := by simpa using h.mono k (Or.inl rfl)
  mono c hc := h.mono c (Or.inr hc)
  reached c hc := by
    rcases h.reached c hc with (rfl | hc) | ⟨a, ha, hreaches⟩
    · exact Or.inr ⟨c, List.mem_singleton_self c, .refl⟩
    · exact Or.inl hc
    · exact Or.inr ⟨k, List.mem_singleton_self k, hreaches.head (hks a ha)⟩

theorem iff_reaches (h : WorksOff needs [root] before after) (hbefore : ∀ c, ¬ before c)
    (hclosed : ∀ k, after k → ∀ c ∈ needs k, after c) : after c ↔ Reaches needs root c := by
  constructor
  · intro hc
    obtain ⟨k, hk, hreaches⟩ := (h.reached c hc).resolve_left (hbefore c)
    rwa [List.mem_singleton.mp hk] at hreaches
  · intro hreaches
    induction hreaches with
    | refl => exact h.all root (List.mem_singleton_self root)
    | tail _ hc ih => exact hclosed _ ih _ hc

end WorksOff

/-! ## Passes -/

/-- A pass in progress. -/
structure Pass (P V S M : Type) where
  /-- The numbers to settle, the next one first. -/
  stack : List Nat
  /-- The nodes there are; those that the pass makes come after those it found. -/
  nodes : Array (Node P V S M)
  /-- For what is settled, the place of the node that stands for it. -/
  settled : OrderedMap Nat Nat

namespace Pass

variable {P V S M : Type}

/-- What there is to do in a pass: what a number needs settled before it; and, from the nodes and the places of
what stands for other numbers, the nodes after settling it and the place of the one that stands for it. -/
structure Task (P V S M : Type) where
  needs : Nat → List Nat
  settle : Array (Node P V S M) → (Nat → Nat) → Nat → Array (Node P V S M) × Nat

def start (nodes : Array (Node P V S M)) (root : Nat) : Pass P V S M := ⟨[root], nodes, .empty⟩

def push (nodes : Array (Node P V S M)) (node : Node P V S M) : Array (Node P V S M) × Nat :=
  (nodes.push node, nodes.size)

/-- The place of the node that stands for a number; one that is not settled stands for itself. -/
def imageIn (settled : OrderedMap Nat Nat) (k : Nat) : Nat := (settled.get? k).getD k

def imageOf (p : Pass P V S M) : Nat → Nat := imageIn p.settled

def missing (task : Task P V S M) (settled : OrderedMap Nat Nat) (k : Nat) : List Nat :=
  (task.needs k).filter fun c => !settled.contains c

/-- The pass with the number settled that is on top of its stack. -/
def settleTop (task : Task P V S M) (p : Pass P V S M) (k : Nat) (rest : List Nat) : Pass P V S M :=
  let (nodes, place) := task.settle p.nodes p.imageOf k
  ⟨rest, nodes, p.settled.insert k place⟩

/-- One step: the top of the stack is dropped, has what it needs put on it, or is settled. -/
def step (task : Task P V S M) (p : Pass P V S M) : Pass P V S M :=
  match p.stack with
  | [] => p
  | k :: rest =>
    if p.settled.contains k then { p with stack := rest }
    else
      match missing task p.settled k with
      | [] => p.settleTop task k rest
      | missing => { p with stack := missing.reverse ++ p.stack }

/-! ## What a pass keeps -/

section keeps

variable {task : Task P V S M} {settled : OrderedMap Nat Nat} {nodes nodes' : Array (Node P V S M)}
  {k c r : Nat}

theorem contains_insert :
    (settled.insert k r).contains c = true ↔ c = k ∨ settled.contains c = true := by
  unfold OrderedMap.contains
  rw [OrderedMap.get?_insert]
  split_ifs with h
  · simp [h]
  · simp [Ne.symm h]

theorem imageIn_insert_self : imageIn (settled.insert k r) k = r := by
  rw [imageIn, OrderedMap.get?_insert, if_pos rfl, Option.getD_some]

theorem imageIn_insert_of_ne (h : c ≠ k) : imageIn (settled.insert k r) c = imageIn settled c := by
  rw [imageIn, OrderedMap.get?_insert, if_neg h.symm, imageIn]

theorem mem_missing : c ∈ missing task settled k ↔ c ∈ task.needs k ∧ settled.contains c = false := by
  simp [missing]

theorem missing_eq_nil : missing task settled k = [] ↔ ∀ c ∈ task.needs k, settled.contains c = true := by
  simp [missing]

def Closed (task : Task P V S M) (settled : OrderedMap Nat Nat) : Prop :=
  ∀ k, settled.contains k = true → ∀ c ∈ task.needs k, settled.contains c = true

def Ready (task : Task P V S M) (settled : OrderedMap Nat Nat) (k : Nat) : Prop :=
  settled.contains k = false ∧ ∀ c ∈ task.needs k, settled.contains c = true

theorem Ready.ne (h : Ready task settled k) (hc : settled.contains c = true) : c ≠ k := by
  rintro rfl
  rw [h.1] at hc
  cases hc

theorem Ready.imageIn_insert (h : Ready task settled k) (hc : c ∈ task.needs k) :
    imageIn (settled.insert k r) c = imageIn settled c :=
  imageIn_insert_of_ne (h.ne (h.2 c hc))

theorem Closed.insert (h : Closed task settled) (hk : Ready task settled k) :
    Closed task (settled.insert k r) := by
  intro a ha c hc
  rcases contains_insert.mp ha with rfl | ha
  · exact contains_insert.mpr (Or.inr (hk.2 c hc))
  · exact contains_insert.mpr (Or.inr (h a ha c hc))

/-- The nodes of an array stand at the same places in another one. -/
def Extends (nodes nodes' : Array (Node P V S M)) : Prop :=
  ∀ (j : Nat) (node : Node P V S M), nodes[j]? = some node → nodes'[j]? = some node

theorem Extends.refl (nodes : Array (Node P V S M)) : Extends nodes nodes := fun _ _ h => h

theorem Extends.trans {nodes'' : Array (Node P V S M)} (h : Extends nodes nodes')
    (h' : Extends nodes' nodes'') : Extends nodes nodes'' := fun j node hj => h' j node (h j node hj)

theorem extends_push (nodes : Array (Node P V S M)) (node : Node P V S M) : Extends nodes (nodes.push node) := by
  intro j node' hj
  obtain ⟨hlt, rfl⟩ := Array.getElem?_eq_some_iff.mp hj
  exact Array.getElem?_push_lt hlt

/-- What a pass makes of a number depends on the nodes there are, and on the places of what stands for the
number and for what it needs. -/
def Local (task : Task P V S M) (Makes : Array (Node P V S M) → (Nat → Nat) → Nat → Prop) : Prop :=
  ∀ nodes nodes' image image' k, Extends nodes nodes' → (∀ c ∈ k :: task.needs k, image' c = image c) →
    Makes nodes image k → Makes nodes' image' k

theorem Local.insert {Makes : Array (Node P V S M) → (Nat → Nat) → Nat → Prop} (hlocal : Local task Makes)
    (hmakes : ∀ a, settled.contains a = true → Makes nodes (imageIn settled) a) (hclosed : Closed task settled)
    (hk : Ready task settled k) (hextends : Extends nodes nodes')
    (hnew : Makes nodes' (imageIn (settled.insert k r)) k) :
    ∀ a, (settled.insert k r).contains a = true → Makes nodes' (imageIn (settled.insert k r)) a := by
  intro a ha
  rcases contains_insert.mp ha with rfl | ha
  · exact hnew
  · refine hlocal _ _ _ _ a hextends (List.forall_mem_cons.mpr ⟨?_, fun c hc => ?_⟩) (hmakes a ha)
    · exact imageIn_insert_of_ne (hk.ne ha)
    · exact imageIn_insert_of_ne (hk.ne (hclosed a ha c hc))

end keeps

/-! ## Working off the stack -/

section loop

variable {task : Task P V S M} {p p' : Pass P V S M} {k c bound : Nat} {rest : List Nat}
  {Keeps : Array (Node P V S M) → OrderedMap Nat Nat → Prop}

/-- A property of the nodes and of what is settled that settling one more number keeps. -/
def KeptBy (task : Task P V S M) (bound : Nat) (Keeps : Array (Node P V S M) → OrderedMap Nat Nat → Prop) :
    Prop :=
  ∀ nodes settled k, k < bound → Keeps nodes settled → Closed task settled → Ready task settled k →
    Keeps (task.settle nodes (imageIn settled) k).1
      (settled.insert k (task.settle nodes (imageIn settled) k).2)

def Holds (task : Task P V S M) (Keeps : Array (Node P V S M) → OrderedMap Nat Nat → Prop)
    (p : Pass P V S M) : Prop :=
  Keeps p.nodes p.settled ∧ Closed task p.settled

/-- What working off numbers from the stack achieves. -/
def Settles (task : Task P V S M) (ks : List Nat) (p p' : Pass P V S M) : Prop :=
  WorksOff task.needs ks (p.settled.contains · = true) (p'.settled.contains · = true)

theorem step_of_ready (hkeeps : KeptBy task bound Keeps) (hk : k < bound) (hp : Holds task Keeps p)
    (hstack : p.stack = k :: rest) (hready : ∀ c ∈ task.needs k, p.settled.contains c = true) :
    Holds task Keeps (step task p) ∧ (step task p).stack = rest ∧ Settles task [k] p (step task p) := by
  unfold step
  rw [hstack]
  dsimp only
  split_ifs with hsettled
  · exact ⟨hp, rfl, .of_done hsettled⟩
  · have hk' : Ready task p.settled k := ⟨by simpa using hsettled, hready⟩
    rw [missing_eq_nil.mpr hready]
    refine ⟨⟨hkeeps _ _ k hk hp.1 hp.2 hk', hp.2.insert hk'⟩, rfl, fun a ha => ?_, fun c hc => ?_, fun c hc => ?_⟩
    · exact contains_insert.mpr (Or.inl (List.mem_singleton.mp ha))
    · exact contains_insert.mpr (Or.inr hc)
    · rcases contains_insert.mp hc with rfl | hc
      · exact Or.inr ⟨c, List.mem_singleton_self c, .refl⟩
      · exact Or.inl hc

theorem step_of_missing (hstack : p.stack = k :: rest) (hsettled : p.settled.contains k = false)
    (hmissing : missing task p.settled k ≠ []) :
    step task p = ⟨(missing task p.settled k).reverse ++ k :: rest, p.nodes, p.settled⟩ := by
  unfold step
  rw [hstack]
  dsimp only
  rw [if_neg (by simp [hsettled])]
  split
  · next h => exact absurd h hmissing
  · rfl

theorem exists_iterate_step (hlt : ∀ k, ∀ c ∈ task.needs k, c < k) (hkeeps : KeptBy task bound Keeps) (k : Nat)
    (hk : k < bound) (p : Pass P V S M) (rest : List Nat) (hp : Holds task Keeps p)
    (hstack : p.stack = k :: rest) :
    ∃ n, Holds task Keeps ((step task)^[n] p) ∧ ((step task)^[n] p).stack = rest ∧
      Settles task [k] p ((step task)^[n] p) := by
  -- what a number needs is smaller
  induction k using Nat.strong_induction_on generalizing p rest with
  | _ k ih =>
    by_cases hready : ∀ c ∈ task.needs k, p.settled.contains c = true
    · exact ⟨1, step_of_ready hkeeps hk hp hstack hready⟩
    have hsettled : p.settled.contains k = false := by
      by_contra h
      exact hready (hp.2 k (by simpa using h))
    have hstep := step_of_missing hstack hsettled (mt missing_eq_nil.mp hready)
    have hwork : ∀ c ∈ (missing task p.settled k).reverse, ∀ x rest, Holds task Keeps x →
        x.stack = c :: rest → ∃ n, Holds task Keeps ((step task)^[n] x) ∧
          ((step task)^[n] x).stack = rest ∧ Settles task [c] x ((step task)^[n] x) := by
      intro c hc x rest hx
      have hck := hlt k c (mem_missing.mp (List.mem_reverse.mp hc)).1
      exact ih c hck (Nat.lt_trans hck hk) x rest hx
    -- first all that is missing, then the number itself
    obtain ⟨n, hn, hnstack, hnsettles⟩ := exists_iterate_of_forall_mem (step task) stack (Holds task Keeps)
      (Settles task) (fun _ => .nil _) (fun _ _ _ _ _ => .cons) hwork (by rw [hstep]; exact hp)
      (congrArg stack hstep)
    have hsame : (step task p).settled = p.settled := by rw [hstep]
    rw [Settles, hsame] at hnsettles
    have hneeds : ∀ c ∈ (missing task p.settled k).reverse, c ∈ task.needs k := fun c hc =>
      (mem_missing.mp (List.mem_reverse.mp hc)).1
    obtain ⟨hdone, hdstack, hdsettles⟩ := step_of_ready hkeeps hk hn hnstack fun c hc => by
      by_cases hcs : p.settled.contains c = true
      · exact hnsettles.mono c hcs
      · exact hnsettles.all c (List.mem_reverse.mpr (mem_missing.mpr ⟨hc, by simpa using hcs⟩))
    have hiter : step task ((step task)^[n] (step task p)) = (step task)^[n + 2] p := by
      rw [← Function.iterate_succ_apply, ← Function.iterate_succ_apply' (step task)]
    have hworks := hnsettles.after_needs hneeds hdsettles
    rw [hiter] at hdone hdstack hworks
    exact ⟨n + 2, hdone, hdstack, hworks⟩

/-- A pass ends. It has settled the first number and what this needs, directly or through others, and nothing
else. -/
theorem exists_finished (hlt : ∀ k, ∀ c ∈ task.needs k, c < k) (hkeeps : KeptBy task bound Keeps) {root : Nat}
    (hroot : root < bound) {nodes : Array (Node P V S M)} (hstart : Keeps nodes .empty) :
    ∃ n p, (step task)^[n] (start nodes root) = p ∧ p.stack = [] ∧ Keeps p.nodes p.settled ∧
      ∀ k, p.settled.contains k = true ↔ Reaches task.needs root k := by
  have hempty : ∀ k, ¬ (OrderedMap.empty : OrderedMap Nat Nat).contains k = true := fun _ => Bool.false_ne_true
  obtain ⟨n, ⟨hkept, hclosed⟩, hstack, hsettles⟩ := exists_iterate_step hlt hkeeps root hroot (start nodes root) []
    ⟨hstart, fun k hk => absurd hk (hempty k)⟩ rfl
  exact ⟨n, _, rfl, hstack, hkept, fun k => hsettles.iff_reaches hempty hclosed⟩

end loop

end Pass

end DependencyResolution
