import DependencyResolution.Version.Ranges.Basic
import DependencyResolution.Version.Semantic

/-!
# Constraints

A constraint is a text that stands for a set of versions. Alternatives are separated by `||`, the
conditions of an alternative by commas, and a condition is `*` or an operator and a version. Without
an operator the version is meant exactly. `^` admits what keeps the major number, or the minor number
when the major one is zero, and `~` what keeps both; they need versions that have such numbers.
-/

namespace DependencyResolution

open Text

/-- Why a text is not a constraint. -/
inductive ConstraintError where
  | notSemantic (text : String)
  | empty
  /-- There is nothing on one side of `||`. -/
  | emptyAlternative (constraint : String)
  /-- There is nothing on one side of a comma. -/
  | emptyCondition (alternative : String)
  /-- The condition is neither an operator and a version nor a version. -/
  | invalidCondition (condition : String)
  /-- The version of a condition has a number that is not read. -/
  | unreadableNumber (condition : String) (cause : NumberError)
  /-- The operator needs versions that have a major and a minor number. -/
  | needsSemantic (condition : String)
  deriving DecidableEq

def ConstraintError.message : ConstraintError → String
  | notSemantic text => s!"Invalid semantic version: {quoted text}"
  | empty => "Empty constraint"
  | emptyAlternative constraint => s!"Empty alternative in constraint: {quoted constraint}"
  | emptyCondition alternative => s!"Empty atom in constraint: {quoted alternative}"
  | invalidCondition condition => s!"Invalid constraint atom: {quoted condition}"
  | unreadableNumber condition cause =>
    s!"Invalid version in atom {quoted condition}: {cause.message}"
  | needsSemantic condition => s!"{quoted condition} requires semantic versions"

/-- A kind of version that constraints may mention. -/
structure VersionKind (V : Type) where
  /-- The version that a text denotes. -/
  read : String → Except VersionError V
  /-- The least version above `v` that `^v` leaves out, for kinds that have the operator. -/
  caretEnd : Option (V → V)
  /-- The least version above `v` that `~v` leaves out, for kinds that have the operator. -/
  tildeEnd : Option (V → V)

def VersionKind.semantic : VersionKind SemanticVersion where
  read := SemanticVersion.parse
  caretEnd := some fun v => if v.major = 0 then v.nextMinor else v.nextMajor
  tildeEnd := some SemanticVersion.nextMinor

def VersionKind.integer : VersionKind Int where
  read s := (readInteger s).mapError .number
  caretEnd := none
  tildeEnd := none

namespace Constraint

inductive Operator where
  | equal
  | different
  | atLeast
  | atMost
  | above
  | below
  | caret
  | tilde
  deriving DecidableEq

/-- The spellings of the operators; of two that both begin a condition the earlier one is meant. -/
def spellings : List (List Char × Operator) :=
  [(['=', '='], .equal), (['!', '='], .different), (['>', '='], .atLeast), (['<', '='], .atMost),
    (['>'], .above), (['<'], .below), (['^'], .caret), (['~'], .tilde), (['='], .equal)]

/-- The operator that a word begins with and the rest of the word, which is not empty; a word that
begins with none is a version that is meant exactly. -/
def splitWord (word : List Char) : Operator × List Char :=
  let matching := spellings.find? fun (spelling, _) =>
    spelling.isPrefixOf word && decide (spelling.length < word.length)
  match matching with
  | some (spelling, op) => (op, word.drop spelling.length)
  | none => (.equal, word)

/-- The operator and the version of a condition: one word, or an operator and a version with blanks
between them. -/
def splitCondition? (condition : List Char) : Option (Operator × List Char) :=
  match words condition with
  | [word] => some (splitWord word)
  | [first, second] => (spellings.lookup first).map fun op => (op, second)
  | _ => none

/-- The parts of a text between the occurrences of `||`. -/
def alternatives : List Char → List (List Char)
  | [] => [[]]
  | '|' :: '|' :: rest => [] :: alternatives rest
  | c :: rest =>
    match alternatives rest with
    | [] => [[c]]
    | part :: parts => (c :: part) :: parts

variable {V : Type} [LT V] [DecidableLT V] [DecidableEq V]

/-- The versions from `v` on and below the end that an operator sets, if the kind of version has the
operator. -/
def upTo (limit : Option (V → V)) (condition : String) (v : V) :
    Except ConstraintError (Ranges V) :=
  match limit with
  | some f => .ok (Ranges.between v (f v))
  | none => .error (.needsSemantic condition)

/-- The versions that an operator and a version admit. -/
def denote (kind : VersionKind V) (condition : String) (op : Operator) (v : V) :
    Except ConstraintError (Ranges V) :=
  match op with
  | .equal => .ok (Ranges.singleton v)
  | .different => .ok (Ranges.singleton v).complement
  | .atLeast => .ok (Ranges.atLeast v)
  | .atMost => .ok (Ranges.atMost v)
  | .above => .ok (Ranges.above v)
  | .below => .ok (Ranges.below v)
  | .caret => upTo kind.caretEnd condition v
  | .tilde => upTo kind.tildeEnd condition v

/-- The versions that a trimmed condition admits. -/
def ofCondition (kind : VersionKind V) (cs : List Char) : Except ConstraintError (Ranges V) :=
  if cs = ['*'] then .ok Ranges.full
  else
    let condition := String.ofList cs
    match splitCondition? cs with
    | none => .error (.invalidCondition condition)
    | some (op, version) =>
      match kind.read (String.ofList version) with
      | .ok v => denote kind condition op v
      | .error (.notSemantic text) => .error (.notSemantic text)
      | .error (.number cause) => .error (.unreadableNumber condition cause)

/-- The versions that a trimmed alternative admits: those that all its conditions admit. -/
def ofAlternative (kind : VersionKind V) (cs : List Char) : Except ConstraintError (Ranges V) :=
  ((splitAtChar ',' cs).map trimBlanks).foldlM
    (fun r condition =>
      if condition.isEmpty then .error (.emptyCondition (String.ofList cs))
      else (ofCondition kind condition).map (Ranges.intersection r))
    Ranges.full

/-- The versions that a constraint admits: those that one of its alternatives admits. -/
def parse (kind : VersionKind V) (s : String) : Except ConstraintError (Ranges V) :=
  let cs := trimBlanks s.toList
  if cs.isEmpty then .error .empty
  else
    let parts := (alternatives cs).map trimBlanks
    if parts.any List.isEmpty then .error (.emptyAlternative s)
    else
      parts.foldlM (fun r part => (ofAlternative kind part).map (VersionSet.union r)) Ranges.empty

end Constraint

end DependencyResolution
