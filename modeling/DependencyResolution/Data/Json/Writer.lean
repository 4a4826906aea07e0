import DependencyResolution.Data.Datum
import DependencyResolution.Text.Shown

/-!
# Writing JSON

Values as JSON texts of ASCII characters: a character beyond is written by its UTF-16 units, of which a
surrogate by itself is one. `compact` writes a value on one line, `indented` every item and entry on a
line of its own.
-/

namespace DependencyResolution.Json

open Text

/-- A UTF-16 unit as an escape. -/
def unitEscape (n : Nat) : List Char := '\\' :: 'u' :: hexDigits 4 n

/-- How a character is written in a text. -/
def writtenChar (c : Char) : List Char :=
  if c = '"' ∨ c = '\\' then ['\\', c]
  else if c = '\n' then ['\\', 'n']
  else if c = '\r' then ['\\', 'r']
  else if c = '\t' then ['\\', 't']
  else if c = '\x08' then ['\\', 'b']
  else if c = '\x0c' then ['\\', 'f']
  else if 0x20 ≤ c.toNat ∧ c.toNat < 0x7f then [c]
  else if codePoint c < 0x10000 then unitEscape (codePoint c)
  else
    let n := c.toNat - 0x10000
    unitEscape (0xd800 + n / 0x400) ++ unitEscape (0xdc00 + n % 0x400)

def writtenText (s : String) : String :=
  String.ofList ('"' :: s.toList.flatMap writtenChar ++ ['"'])

def writtenScalar : Scalar → String
  | .null => "null"
  | .bool b => if b then "true" else "false"
  | .integer n => s!"{n}"
  | .float .nan => "NaN"
  | .float (.infinite negative) => if negative then "-Infinity" else "Infinity"
  | .float x => x.text
  | .text s => writtenText s

/-- A scalar as a key. -/
def writtenKey : Scalar → String
  | .text s => writtenText s
  | s => "\"" ++ writtenScalar s ++ "\""

/-! ## On one line -/

mutual

/-- A value on one line. -/
def compact : Datum → String
  | .scalar s => writtenScalar s
  | .list items => "[" ++ ", ".intercalate (compactItems items) ++ "]"
  | .mapping entries => "\x7b" ++ ", ".intercalate (compactEntries entries) ++ "\x7d"

def compactItems : List Datum → List String
  | [] => []
  | d :: rest => compact d :: compactItems rest

def compactEntries : List (Scalar × Datum) → List String
  | [] => []
  | (k, d) :: rest => (writtenKey k ++ ": " ++ compact d) :: compactEntries rest

end

/-! ## On many lines -/

/-- Parts between brackets, each on a line that is two spaces deeper than the brackets. -/
def bracketed (opening closing margin : String) (parts : List String) : String :=
  if parts.isEmpty then opening ++ closing
  else
    let lines := parts.map fun part => "\n" ++ margin ++ "  " ++ part
    opening ++ ",".intercalate lines ++ "\n" ++ margin ++ closing

mutual

/-- A value whose lines after the first begin with a margin. -/
def indentedFrom (margin : String) : Datum → String
  | .scalar s => writtenScalar s
  | .list items => bracketed "[" "]" margin (indentedItems (margin ++ "  ") items)
  | .mapping entries =>
    bracketed "\x7b" "\x7d" margin (indentedEntries (margin ++ "  ") entries)

def indentedItems (margin : String) : List Datum → List String
  | [] => []
  | d :: rest => indentedFrom margin d :: indentedItems margin rest

def indentedEntries (margin : String) : List (Scalar × Datum) → List String
  | [] => []
  | (k, d) :: rest =>
    (writtenKey k ++ ": " ++ indentedFrom margin d) :: indentedEntries margin rest

end

/-- A value on many lines. -/
def indented (d : Datum) : String := indentedFrom "" d

end DependencyResolution.Json
