import DependencyResolution.Command.Output

/-!
# The program

Reads the arguments and the index file, and writes what the library makes of them.
-/

open DependencyResolution.Command

/-- The contents of a file, if it can be read. -/
def readContents (path : String) : IO (Option ByteArray) :=
  try return some (← IO.FS.readBinFile path)
  catch _ => return none

/-- Writes an answer and gives its status. -/
def finish (output : Output) : IO UInt32 := do
  IO.eprint output.messages
  IO.print output.result
  return output.status.toUInt32

def main (arguments : List String) : IO UInt32 := do
  match Invocation.ofArguments arguments with
  | .error r => finish (.ofRejection r)
  | .ok .version => finish .version
  | .ok .help => finish .help
  | .ok (.solve request) => finish (.ofRequest request (← readContents request.index))
