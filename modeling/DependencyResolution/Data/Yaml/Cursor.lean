/-!
# Places in a text

A place in a text: what follows, and the line and column, which decide how block collections nest.
-/

namespace DependencyResolution.Yaml

/-- Whether a character ends a line. -/
def isBreak (c : Char) : Bool :=
  c = '\n' || c = '\r' || c = '\x85' || c = '\u2028' || c = '\u2029'

/-- Whether a text is at its end, a line end, a space or a tab. -/
def atBlank : List Char → Bool
  | [] => true
  | c :: _ => isBreak c || c = ' ' || c = '\t'

/-- Whether a text begins with three of a character and a blank, as a document marker does. -/
def atMarker (mark : Char) : List Char → Bool
  | a :: b :: c :: rest => a = mark && b = mark && c = mark && atBlank rest
  | _ => false

def atDocumentMarker (cs : List Char) : Bool := atMarker '-' cs || atMarker '.' cs

/-- A place in a text. -/
structure Cursor where
  rest : List Char
  /-- The number of characters before the place. -/
  index : Nat
  line : Nat
  column : Nat

namespace Cursor

def start (cs : List Char) : Cursor := ⟨cs, 0, 0, 0⟩

/-- The place after the next character. A carriage return and a line feed are one line end, and a byte
order mark takes no column. -/
def advance (c : Cursor) : Cursor :=
  match c.rest with
  | [] => c
  | '\r' :: '\n' :: rest => ⟨'\n' :: rest, c.index + 1, c.line, c.column + 1⟩
  | ch :: rest =>
    if isBreak ch then ⟨rest, c.index + 1, c.line + 1, 0⟩
    else ⟨rest, c.index + 1, c.line, if ch = '\ufeff' then c.column else c.column + 1⟩

def skip : Nat → Cursor → Cursor
  | 0, c => c
  | n + 1, c => skip n c.advance

/-- The longest run of characters that pass a test, and the place after it. -/
def span (keep : Char → Bool) (c : Cursor) : List Char × Cursor :=
  let taken := c.rest.takeWhile keep
  (taken, c.skip taken.length)

/-- The line end at a place, as the characters that it stands for, and the place after it. -/
def takeBreak (c : Cursor) : List Char × Cursor :=
  match c.rest with
  | '\r' :: '\n' :: _ => (['\n'], c.skip 2)
  | ch :: _ =>
    if ch = '\u2028' ∨ ch = '\u2029' then ([ch], c.advance)
    else if isBreak ch then (['\n'], c.advance)
    else ([], c)
  | [] => ([], c)

/-- The line ends from the start of a line on, with the blanks between them, and the place after them.
If one of the lines starts with a document marker, there is nothing but the place of the marker. -/
def takeBreaks (isBlank : Char → Bool) : (steps : Nat) → Cursor → Option (List Char) × Cursor
  | 0, c => (some [], c)
  | steps + 1, c =>
    if atDocumentMarker c.rest then (none, c)
    else
      let c := (c.span isBlank).2
      match c.takeBreak with
      | ([], _) => (some [], c)
      | (taken, next) =>
        let (more, last) := takeBreaks isBlank steps next
        (more.map (taken ++ ·), last)

/-- What the line ends between two parts of a text stand for: a single one is a space, and of several
the first is dropped. -/
def folded (first more : List Char) : List Char :=
  if first ≠ ['\n'] then first ++ more else if more.isEmpty then [' '] else more

end Cursor

end DependencyResolution.Yaml
