import DependencyResolution.Text.Blank
import DependencyResolution.Text.Shown

/-!
# Arguments of the command line

`solve INDEX PACKAGE VERSION` resolves a package at a version against an index. Its options may stand
anywhere among the arguments, and of a repeated one the last counts; after `--` nothing is an option.
The value of an option follows it as the next argument or after an equals sign.
-/

namespace DependencyResolution.Command

/-- How results are written. -/
inductive Format where
  | text
  | json
  deriving DecidableEq

/-- What to solve, and how to write the result. -/
structure Request where
  /-- The path of the index. -/
  index : String
  package : String
  version : String
  format : Format
  /-- Whether to write the log too. -/
  verbose : Bool
  deriving DecidableEq

/-- What arguments ask for. -/
inductive Invocation where
  | version
  | help
  | solve (request : Request)
  deriving DecidableEq

/-- Why arguments are refused. -/
inductive Rejection where
  /-- They do not fit the usage. -/
  | usage
  /-- An option stands at the end without the value that it needs. -/
  | missingValue (option : String)
  /-- A value is attached to an option that takes none. -/
  | unexpectedValue (option : String)
  deriving DecidableEq

def Rejection.message : Rejection → String
  | usage => "Usage: cli [--version] solve [--format text|json] [--verbose] INDEX PACKAGE VERSION"
  | missingValue option => s!"Error: Option {Text.quoted option} requires an argument."
  | unexpectedValue option => s!"Error: Option {Text.quoted option} does not take a value."

/-! ## Words -/

/-- Whether an argument is written as an option: a dash and at least one more character. -/
def isOption (word : String) : Bool :=
  match word.toList with
  | '-' :: _ :: _ => true
  | _ => false

/-- The name of an option and the value that is attached to it after an equals sign. -/
def splitOption (word : String) : String × Option String :=
  let cs := word.toList
  let value :=
    match cs.dropWhile (· ≠ '=') with
    | _ :: value => some (String.ofList value)
    | [] => none
  (String.ofList (cs.takeWhile (· ≠ '=')), value)

/-- Whether an argument is a dash and then the letter of `--verbose`, perhaps several times. -/
def isVerboseLetters (word : String) : Bool :=
  match word.toList with
  | '-' :: letters => !letters.isEmpty && letters.all (· = 'v')
  | _ => false

/-! ## The command `solve` -/

/-- The arguments of `solve` that have been read. -/
structure Given where
  positional : List String
  format : Option String
  verbose : Bool
  help : Bool

def readSolve : List String → Given → Except Rejection Given
  | [], g => .ok g
  | word :: rest, g =>
    if word = "--" then .ok { g with positional := g.positional ++ rest }
    else if !isOption word then readSolve rest { g with positional := g.positional ++ [word] }
    else
      match splitOption word, rest with
      | ("--format", some value), rest => readSolve rest { g with format := some value }
      | ("--format", none), value :: rest => readSolve rest { g with format := some value }
      | ("--format", none), [] => .error (.missingValue "--format")
      | ("--verbose", none), rest => readSolve rest { g with verbose := true }
      | ("--verbose", some _), _ => .error (.unexpectedValue "--verbose")
      | ("--help", none), rest => readSolve rest { g with help := true }
      | ("--help", some _), _ => .error (.unexpectedValue "--help")
      | _, rest =>
        if isVerboseLetters word then readSolve rest { g with verbose := true }
        else .error .usage

def formatOf? : Option String → Option Format
  | none => some .text
  | some "text" => some .text
  | some "json" => some .json
  | some _ => none

def ofGiven (g : Given) : Except Rejection Invocation :=
  if g.help then .ok .help
  else
    match g.positional, formatOf? g.format with
    | [index, package, version], some format =>
      .ok (.solve ⟨index, package, version, format, g.verbose⟩)
    | _, _ => .error .usage

/-! ## The command line -/

/-- What the options before the command settle, and the arguments from the command on; the first of the
options counts. -/
def readOptions (settled : Option Invocation) :
    List String → Except Rejection (Option Invocation × List String)
  | [] => .ok (settled, [])
  | word :: rest =>
    if word = "--" then .ok (settled, rest)
    else if !isOption word then .ok (settled, word :: rest)
    else
      match splitOption word with
      | ("--version", none) => readOptions (settled.orElse fun _ => some .version) rest
      | ("--help", none) => readOptions (settled.orElse fun _ => some .help) rest
      | ("--version", some _) => .error (.unexpectedValue "--version")
      | ("--help", some _) => .error (.unexpectedValue "--help")
      | _ => .error .usage

/-- What arguments ask for. Where no command stands behind `--`, options there count as well. -/
def Invocation.ofArguments (arguments : List String) : Except Rejection Invocation := do
  match ← readOptions none arguments with
  | (some invocation, _) => .ok invocation
  | (none, "solve" :: rest) => do ofGiven (← readSolve rest ⟨[], none, false, false⟩)
  | (none, words) =>
    match ← readOptions none words with
    | (some invocation, _) => .ok invocation
    | (none, _) => .error .usage

end DependencyResolution.Command
