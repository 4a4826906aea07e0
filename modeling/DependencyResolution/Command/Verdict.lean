import DependencyResolution.Command.Arguments
import DependencyResolution.Data.Json.Writer
import DependencyResolution.Explanation.Outline
import DependencyResolution.Index.File
import DependencyResolution.Solver.Text
import DependencyResolution.Text.Table
import DependencyResolution.Version.Ranges.Text

/-!
# What solving comes to

The result of resolving a package against an index file, how it is written as text and as JSON, and the
status that tells it apart: 0 for a solution, 1 for none, 2 for input that cannot be read. Where a number
is too long to be read or written the program breaks off with status 1 and no result.
-/

namespace DependencyResolution.Command

open Text

/-- Why the input cannot be read. -/
inductive InputError where
  | index (e : IndexError)
  | version (e : ConstraintError)

def InputError.message : InputError → String
  | index e => e.message
  | version e => e.message

/-- What solving came to. -/
inductive Verdict where
  | unreadable (e : InputError)
  /-- There is no solution, as this shortened explanation shows. -/
  | unsolvable (e : Explanation String SemanticVersion (Ranges SemanticVersion) String)
  | solved (solution : OrderedMap String SemanticVersion)
  /-- The program broke off: the solver failed, or a number in the input is too long. -/
  | broken

namespace Verdict

/-! ## Solving -/

/-- What a run came to, and its log. -/
def ofOutcome (index : Index) :
    Outcome Unit String SemanticVersion (Ranges SemanticVersion) String Int Empty →
      Verdict × List LogRecord
  | (.ok solution, session) => (solved solution, logOf session.events)
  | (.error (.noSolution id), session) =>
    let explanation := Explanation.ofStore session.state.store id
    (unsolvable (explanation.collapse.simplify index.versions), logOf session.events)
  | (.error _, session) => (broken, logOf session.events)

/-- What solving a request against the contents of its index comes to, and the log of the run. -/
def ofRequest (request : Request) (contents : ByteArray) : Verdict × List LogRecord :=
  match Index.ofFile request.index (some contents) with
  | .error (.number _) => (broken, [])
  | .error e => (unreadable (.index e), [])
  | .ok index =>
    match SemanticVersion.parse request.version with
    | .error (.notSemantic text) => (unreadable (.version (.notSemantic text)), [])
    | .error (.number _) => (broken, [])
    | .ok version => ofOutcome index (resolve index.provider () request.package version)

/-! ## Writing -/

/-- The status that tells what solving came to. -/
def status : Verdict → Nat
  | unreadable _ => 2
  | unsolvable _ => 1
  | solved _ => 0
  | broken => 1

/-- The packages and versions of a solution, by the names of the packages. -/
def sorted (solution : OrderedMap String SemanticVersion) : List (String × String) :=
  let rows := solution.entries.map fun (p, v) => (p, Shown.text v)
  rows.mergeSort fun a b => !comesBefore b.1 a.1

/-- The columns of the terminal that results are drawn for. -/
def terminalColumns : Nat := 200

/-- The line that tells of an error, without the control sequences that it would bring along. -/
def errorLine (message : String) : String := withoutControlSequences s!"Error: {message}"

/-- Whether the versions of a solution can be written. -/
def isWritable (solution : OrderedMap String SemanticVersion) : Bool :=
  solution.entries.all fun (_, v) => Shown.isWritable v

/-- A result in lines of text, if it can be written. -/
def lines? : Verdict → Option (List String)
  | unreadable e => some [errorLine e.message]
  | unsolvable e =>
    if e.nodesInOrder.all Node.isWritable then some (e.outline.drawing terminalColumns) else none
  | solved solution =>
    if isWritable solution then
      some (tableLines terminalColumns "Resolved Versions" ("Package", "Version") (sorted solution) ++
        [s!"{solution.size} packages resolved"])
    else none
  | broken => none

def object (fields : List (String × Datum)) : Datum :=
  .mapping (fields.map fun (name, value) => (.text name, value))

/-- A result as JSON, if it can be written; of an explanation it has the facts only. -/
def json? : Verdict → Option String
  | unreadable e => some (Json.compact (object [("error", .ofString e.message)]))
  | unsolvable e =>
    if e.facts.all Fact.isWritable then
      some (Json.indented (object [("success", .scalar (.bool false)),
        ("facts", .list (e.facts.map fun f => .ofString f.text))]))
    else none
  | solved solution =>
    if isWritable solution then
      some (Json.indented (object [("success", .scalar (.bool true)),
        ("solution", object ((sorted solution).map fun (p, v) => (p, .ofString v)))]))
    else none
  | broken => none

def written? (format : Format) (v : Verdict) : Option String :=
  match format with
  | .text => v.lines?.map fun lines => String.join (lines.map (· ++ "\n"))
  | .json => v.json?.map (· ++ "\n")

end Verdict

end DependencyResolution.Command
