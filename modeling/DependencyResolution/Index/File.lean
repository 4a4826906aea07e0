import DependencyResolution.Data.Json.Reader
import DependencyResolution.Data.Yaml.Reader
import DependencyResolution.Index.Basic

/-!
# Index files

An index file is a text in UTF-8: JSON if its name ends in `.json`, else YAML. An empty document is an
index without packages. Messages name a file by its path in plain form.
-/

namespace DependencyResolution

open Text

/-! ## Paths -/

namespace Path

/-- The names that a path consists of; empty ones and single points mean nothing. -/
def names (path : String) : List (List Char) :=
  (splitAtChar '/' path.toList).filter fun name => !name.isEmpty && decide (name ≠ ['.'])

/-- What an absolute path begins with: a slash, or two if it is written with exactly two. -/
def root (path : String) : String :=
  match (path.toList.takeWhile (· = '/')).length with
  | 0 => ""
  | 2 => "//"
  | _ => "/"

/-- The plain form of a path: its names with single slashes between them, and a point for none. -/
def plain (path : String) : String :=
  let s := root path ++ "/".intercalate ((names path).map String.ofList)
  if s.isEmpty then "." else s

/-- Whether the name of a file is an ending with something before it. -/
def hasSuffix (suffix : List Char) (path : String) : Bool :=
  let name := (names path).getLast?.getD []
  suffix.isSuffixOf name && decide (suffix.length < name.length)

end Path

/-! ## Texts -/

/-- A text with line feeds for line ends: a carriage return, alone or before a line feed, is one. -/
def withLineFeeds : List Char → List Char
  | '\r' :: '\n' :: rest => '\n' :: withLineFeeds rest
  | '\r' :: rest => '\n' :: withLineFeeds rest
  | c :: rest => c :: withLineFeeds rest
  | [] => []

/-- The text that bytes denote in UTF-8. -/
def decodedText? (bytes : ByteArray) : Option String :=
  (String.fromUTF8? bytes).map fun s => String.ofList (withLineFeeds s.toList)

namespace Index

/-- The data that the text of a file denotes. -/
def dataOf? (path text : String) : Option Datum :=
  if Path.hasSuffix ['.', 'j', 's', 'o', 'n'] path then Json.read? text else Yaml.read? text

/-- The index in a file with the given contents, if there is such a file. -/
def ofFile (path : String) (contents : Option ByteArray) : Except IndexError Index :=
  match contents.bind decodedText? with
  | none => .error (.unreadableFile (Path.plain path))
  | some text =>
    match dataOf? path text with
    | none => .error (.malformedFile (Path.plain path))
    | some (.scalar .null) => .ok PackageTable.empty
    | some data => ofDatum data

end Index

end DependencyResolution
