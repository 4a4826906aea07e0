import DependencyResolution.Explanation.Collapse
import DependencyResolution.Text.Layout

/-!
# Explanations in words

A fact is one line of text. An explanation is an outline: under each derived incompatibility stand the
two nodes that it follows from. A node with a number is spelled out once and referred to by its number
afterwards. Words are there only for what holds no number that is too long to be written.
-/

namespace DependencyResolution

open Text

/-- Labels, each with the outline below it. -/
inductive Outline where
  | node (label : String) (children : List Outline)

namespace Outline

mutual

/-- The labels with their depth, from the top down. -/
def lines (depth : Nat) : Outline → List (Nat × String)
  | node label children => (depth, label) :: linesOfList (depth + 1) children

/-- The labels of a list of outlines with their depth. -/
def linesOfList (depth : Nat) : List Outline → List (Nat × String)
  | [] => []
  | o :: rest => lines depth o ++ linesOfList depth rest

end

/-- The lines of a label on a terminal of so many columns, the first after `lead` and the others after
`below`. A label that `lead` leaves no room for has none. -/
def labelLines (columns : Nat) (lead below label : String) : List String :=
  let room := columns - width lead
  match if room = 0 then [] else layOut .fold room (drawable label) with
  | [] => []
  | first :: rest => (lead ++ first) :: rest.map (below ++ ·)

mutual

/-- The lines of a drawing on a terminal of so many columns: each label under the lines that lead to it
from the label above. The label itself follows `lead`, and what is below it `below`. -/
def draw (columns : Nat) (lead below : String) : Outline → List String
  | node label children =>
    labelLines columns lead below label ++ drawChildren columns below children

/-- The drawing of the children of a node; the last one ends the line beside them. -/
def drawChildren (columns : Nat) (lead : String) : List Outline → List String
  | [] => []
  | [o] => draw columns (lead ++ "└── ") (lead ++ "    ") o
  | o :: next :: rest =>
    draw columns (lead ++ "├── ") (lead ++ "│   ") o ++ drawChildren columns lead (next :: rest)

end

/-- The lines of the drawing of an outline on a terminal of so many columns. -/
def drawing (columns : Nat) (o : Outline) : List String := draw columns "" "" o

end Outline

variable {P V S M : Type} [Shown P] [Shown V] [Shown S] [Shown M]

/-- A fact in words. -/
def Fact.text : Fact P V S M → String
  | root p v => s!"{Shown.text p} {Shown.text v} is the package being resolved"
  | noVersions p set => s!"there is no version of {Shown.text p} in {Shown.text set}"
  | dependency p set needed allowed =>
    s!"{Shown.text p} {Shown.text set} depends on {Shown.text needed} {Shown.text allowed}"
  | unusable p set reason =>
    s!"{Shown.text p} {Shown.text set} is unavailable: {Shown.text reason}"

def Fact.isWritable : Fact P V S M → Bool
  | root p v => Shown.isWritable p && Shown.isWritable v
  | noVersions p set => Shown.isWritable p && Shown.isWritable set
  | dependency p set needed allowed =>
    Shown.isWritable p && Shown.isWritable set && Shown.isWritable needed && Shown.isWritable allowed
  | unusable p set reason => Shown.isWritable p && Shown.isWritable set && Shown.isWritable reason

def Node.isWritable : Node P V S M → Bool
  | fact f => f.isWritable
  | derived terms _ _ _ => terms.entries.all fun (p, t) => Shown.isWritable p && t.isWritable

namespace Explanation

/-- Terms that do not hold all at once, in words. -/
def termsText (terms : OrderedMap P (Term S)) : String :=
  if terms.isEmpty then "version solving failed"
  else
    let parts := terms.entries.map fun (p, t) => s!"{Shown.text p} {t.text}"
    " and ".intercalate parts ++ " are incompatible"

/-- The outline of the node at a place, and the numbers spelled out so far. Causes have smaller places,
so `depth` runs out at no node. -/
def outlineAt (e : Explanation P V S M) :
    (depth : Nat) → (shown : List Nat) → (place : Nat) → Outline × List Nat
  | 0, shown, _ => (.node "" [], shown)
  | depth + 1, shown, place =>
    match e.nodes[place]? with
    | none => (.node "" [], shown)
    | some (.fact f) => (.node f.text [], shown)
    | some (.derived terms shared first second) =>
      match shared with
      | none =>
        let (o, shown) := e.outlineAt depth shown first
        let (o', shown) := e.outlineAt depth shown second
        (.node (termsText terms) [o, o'], shown)
      | some id =>
        if id ∈ shown then (.node s!"see ({id})" [], shown)
        else
          let (o, shown) := e.outlineAt depth (id :: shown) first
          let (o', shown) := e.outlineAt depth shown second
          (.node s!"{termsText terms} ({id})" [o, o'], shown)

def outline (e : Explanation P V S M) : Outline :=
  .node "No solution" [(e.outlineAt (e.nodes.size + 1) [] e.root).1]

end Explanation

end DependencyResolution
