import DependencyResolution.Command.Verdict

/-!
# Output of the command line

What the program writes, and the status that it ends with.
-/

namespace DependencyResolution.Command

open Text

/-- What the program writes, and the status that it ends with. -/
structure Output where
  status : Nat
  /-- What it writes as its result. -/
  result : String
  /-- What it writes about its work. -/
  messages : String
  deriving DecidableEq

namespace Output

/-- The answer to refused arguments. -/
def ofRejection (r : Rejection) : Output := ⟨2, "", r.message ++ "\n"⟩

/-- The answer to a request, given the contents of its index; without them its path is refused. A
surrogate is escaped in messages, and a result that holds one, or a number that is too long, is not
written. -/
def ofRequest (request : Request) (contents : Option ByteArray) : Output :=
  match contents with
  | none => ofRejection .usage
  | some bytes =>
    let (verdict, log) := Verdict.ofRequest request bytes
    let lines := log.map fun r => s!"{r.source}: {r.message}\n"
    let messages := if request.verbose then withEscapedSurrogates (String.join lines) else ""
    match verdict.written? request.format with
    | none => ⟨1, "", messages⟩
    | some result =>
      if holdsSurrogate result then ⟨1, "", messages⟩ else ⟨verdict.status, result, messages⟩

def version : Output := ⟨0, "cli, version 0.1.0\n", ""⟩

def help : Output := ⟨0, Rejection.usage.message ++ "\n", ""⟩

end Output

end DependencyResolution.Command
