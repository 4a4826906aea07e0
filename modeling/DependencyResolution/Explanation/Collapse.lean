import DependencyResolution.Explanation.Basic

/-!
# Shorter explanations

Two ways to make an explanation easier to read. `collapse` folds a missing version into what it was
combined with: that `a` depends on `b` from 2 on and that there is no such `b` becomes one fact about
`a`. Facts with a reason are left alone, since the reason may not hold of more versions. `simplify`
writes the sets in facts as simply as the known versions allow.

Both keep every node at its place, so nodes that were shared stay shared.
-/

namespace DependencyResolution

variable {P V S M : Type} [DecidableEq P] [VersionSet S V]

/-! ## Missing versions -/

/-- A fact that takes in that there are no versions of a package in a set, if it can. -/
def Fact.absorb (package : P) (versions : S) : Fact P V S M → Option (Fact P V S M)
  | .noVersions _ others => some (.noVersions package (VersionSet.union versions others))
  | .dependency p set needed allowed =>
    if p = package then some (.dependency p (VersionSet.union set versions) needed allowed)
    else some (.dependency p set needed (VersionSet.union allowed versions))
  | .root .. => none
  | .unusable .. => none

namespace Explanation

/-- Collapsed nodes, and for each the place of the node that stands for it now. -/
structure Collapsed (P V S M : Type) where
  nodes : Array (Node P V S M)
  images : Array Nat

namespace Collapsed

def imageOf (c : Collapsed P V S M) (place : Nat) : Nat := (c.images[place]?).getD place

/-- Adds a node that stands for itself. -/
def push (c : Collapsed P V S M) (node : Node P V S M) : Collapsed P V S M :=
  ⟨c.nodes.push node, c.images.push c.nodes.size⟩

/-- Adds a node one of whose causes says that there are no versions of a package in a set. The other
cause stands for it if that was derived; a fact takes the missing versions in, or else the node stays
as it was. -/
def fold (c : Collapsed P V S M) (node : Node P V S M) (package : P) (versions : S)
    (sibling : Nat) : Collapsed P V S M :=
  match c.nodes[c.imageOf sibling]? with
  | some (.derived ..) => ⟨c.nodes.push node, c.images.push (c.imageOf sibling)⟩
  | some (.fact f) =>
    match f.absorb package versions with
    | some merged => c.push (.fact merged)
    | none => c.push node
  | none => c.push node

end Collapsed

/-- The package and the set of a node that says that there are no versions. -/
def noVersionsAt? (e : Explanation P V S M) (place : Nat) : Option (P × S) :=
  match e.nodes[place]? with
  | some (.fact (.noVersions package versions)) => some (package, versions)
  | _ => none

/-- Adds the collapsed form of the next node. -/
def collapseNode (e : Explanation P V S M) (c : Collapsed P V S M) (node : Node P V S M) :
    Collapsed P V S M :=
  match node with
  | .fact f => c.push (.fact f)
  | .derived terms shared first second =>
    match e.noVersionsAt? first, e.noVersionsAt? second with
    | some (package, versions), _ => c.fold node package versions second
    | none, some (package, versions) => c.fold node package versions first
    | none, none => c.push (.derived terms shared (c.imageOf first) (c.imageOf second))

/-- The explanation with missing versions folded into what they were combined with. -/
def collapse (e : Explanation P V S M) : Explanation P V S M :=
  let c := e.nodes.foldl e.collapseNode ⟨#[], #[]⟩
  ⟨c.nodes, c.imageOf e.root⟩

/-! ## Known versions -/

end Explanation

/-- A fact with its sets simplified against the known versions of each package. -/
def Fact.simplify (known : P → List V) : Fact P V S M → Fact P V S M
  | .root p v => .root p v
  | .noVersions p set => .noVersions p (VersionSet.simplify set (known p))
  | .dependency p set needed allowed =>
    .dependency p (VersionSet.simplify set (known p)) needed
      (VersionSet.simplify allowed (known needed))
  | .unusable p set reason => .unusable p (VersionSet.simplify set (known p)) reason

/-- The explanation with the sets of its facts simplified against the known versions. -/
def Explanation.simplify (known : P → List V) (e : Explanation P V S M) : Explanation P V S M :=
  ⟨e.nodes.map fun
    | .fact f => .fact (f.simplify known)
    | .derived terms shared first second => .derived terms shared first second, e.root⟩

end DependencyResolution
