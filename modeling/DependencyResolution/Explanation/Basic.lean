import DependencyResolution.Solver.Store

/-!
# Explanations

Why there is no solution: the facts that the failure rests on, and how the incompatibilities between
them were derived. An incompatibility that several derivations use is one node with several parents, so
an explanation is a graph. Its nodes stand in a list in which causes come before what follows from
them; a node is known by its place.

`ofStore` gives the graph below a stored incompatibility: one node for each incompatibility that it
rests on. `build` makes the same graph, looking up each of them, which must be stored. `preorder` lists
the nodes from the root down, the first cause before the second, each node where it is first met.
-/

namespace DependencyResolution

/-- A node of an explanation. -/
inductive Node (P V S M : Type) where
  | fact (f : Fact P V S M)
  /-- Terms that follow from two other nodes, given by their places. `shared` is the number of the
  incompatibility if several derivations use it. -/
  | derived (terms : OrderedMap P (Term S)) (shared : Option Nat) (first second : Nat)

/-- Facts and what was derived from them, down to one node. -/
structure Explanation (P V S M : Type) where
  /-- The nodes, causes before what follows from them. -/
  nodes : Array (Node P V S M)
  /-- The place of the node that is explained. -/
  root : Nat

namespace Node

variable {P V S M : Type}

def causes : Node P V S M → List Nat
  | fact _ => []
  | derived _ _ first second => [first, second]

def packages : Node P V S M → List P
  | fact (.root p _) => [p]
  | fact (.noVersions p _) => [p]
  | fact (.dependency p _ needed _) => [p, needed]
  | fact (.unusable p _ _) => [p]
  | derived terms _ _ _ => terms.keys

end Node

namespace Store

variable {P V S M : Type} [DecidableEq P]

/-! ## From the store -/

/-- The numbers of the incompatibilities that one was derived from. -/
def causesOf (s : Store P V S M) (id : Nat) : List Nat :=
  match s.get? id with
  | some ⟨_, .derived first second⟩ => [first, second]
  | _ => []

/-- Adds to `done` the incompatibilities that one rests on and then itself, newest first; `depth`
bounds the length of a chain of causes. -/
def visit (s : Store P V S M) : (depth : Nat) → (done : List Nat) → (id : Nat) → List Nat
  | 0, done, _ => done
  | depth + 1, done, id =>
    if id ∈ done then done
    else
      let done := (s.causesOf id).foldl (s.visit depth) done
      if id ∈ done ∨ s.size ≤ id then done else id :: done

/-- The incompatibilities that one rests on, causes first and itself last. -/
def support (s : Store P V S M) (id : Nat) : List Nat := (s.visit s.size [] id).reverse

/-- Like `visit`, for incompatibilities that must be stored. -/
def gather (s : Store P V S M) :
    (depth : Nat) → (done : List Nat) → (id : Nat) → Except (Violation P V S) (List Nat)
  | 0, done, _ => .ok done
  | depth + 1, done, id =>
    if id ∈ done then .ok done
    else do
      match (← s.get id).cause with
      | .fact _ => .ok (id :: done)
      | .derived first second =>
        let done ← s.gather depth done first
        let done ← s.gather depth done second
        .ok (if id ∈ done then done else id :: done)

/-- How often an incompatibility is a cause of one of the given ones. -/
def timesUsed (s : Store P V S M) (ids : List Nat) (id : Nat) : Nat :=
  (ids.flatMap s.causesOf).count id

/-- The node of a stored incompatibility among those that are explained together. -/
def toNode (s : Store P V S M) (ids : List Nat) (id : Nat) (i : Incompatibility P V S M) :
    Node P V S M :=
  match i.cause with
  | .fact f => .fact f
  | .derived first second =>
    .derived i.terms (if 1 < s.timesUsed ids id then some id else none) (ids.idxOf first)
      (ids.idxOf second)

end Store

namespace Explanation

variable {P V S M : Type} [DecidableEq P]

/-- The explanation of a stored incompatibility. -/
def ofStore (s : Store P V S M) (id : Nat) : Explanation P V S M :=
  let ids := s.support id
  ⟨(ids.filterMap fun j => (s.get? j).map (s.toNode ids j)).toArray, ids.idxOf id⟩

/-- Makes the explanation of an incompatibility, which must be stored with all that it rests on. -/
def build (s : Store P V S M) (id : Nat) : Except (Violation P V S) (Explanation P V S M) := do
  let ids := (← s.gather s.size [] id).reverse
  let nodes ← ids.mapM fun j => do return s.toNode ids j (← s.get j)
  .ok ⟨nodes.toArray, ids.idxOf id⟩

/-! ## Walking -/

def causesAt (e : Explanation P V S M) (place : Nat) : List Nat :=
  (e.nodes[place]?.map Node.causes).getD []

/-- The places on a stack and below them, each where it is first met; `seen` were met before. Every
node brings at most two others onto the stack, so twice the number of nodes bounds the steps. -/
def walk (e : Explanation P V S M) : (steps : Nat) → (stack seen : List Nat) → List Nat
  | 0, _, _ => []
  | _ + 1, [], _ => []
  | steps + 1, place :: stack, seen =>
    if place ∈ seen then e.walk steps stack seen
    else place :: e.walk steps (e.causesAt place ++ stack) (place :: seen)

/-- The places of the nodes, from the root down, the first cause before the second. -/
def preorder (e : Explanation P V S M) : List Nat := e.walk (2 * e.nodes.size + 2) [e.root] []

def nodesInOrder (e : Explanation P V S M) : List (Node P V S M) :=
  e.preorder.filterMap (e.nodes[·]?)

/-- The facts that the failure rests on. -/
def facts (e : Explanation P V S M) : List (Fact P V S M) :=
  e.nodesInOrder.filterMap fun
    | .fact f => some f
    | .derived .. => none

/-- Whether there is nothing to derive: the root is a fact. -/
def isFact (e : Explanation P V S M) : Bool :=
  match e.nodes[e.root]? with
  | some (.fact _) => true
  | _ => false

/-- Every package that a node mentions, once. -/
def packages (e : Explanation P V S M) : List P :=
  (e.nodesInOrder.flatMap Node.packages).foldr List.insert []

end Explanation

end DependencyResolution
