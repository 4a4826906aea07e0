import DependencyResolution.Text.Layout

/-!
# Tables on a terminal

A table of two columns with a title over it. A column is as wide as its widest cell and has a space on
each side; the second one is aligned to the right. A table that is wider than the terminal has narrower
columns, and a cell that is too wide for its column takes several lines.
-/

namespace DependencyResolution.Text

/-! ## Padding -/

def repeated (c : Char) (count : Nat) : String := String.ofList (List.replicate count c)

/-- A text with spaces after it that fill so many columns. -/
def padRight (columns : Nat) (s : String) : String := s ++ repeated ' ' (columns - width s)

/-- A text with spaces before it that fill so many columns. -/
def padLeft (columns : Nat) (s : String) : String := repeated ' ' (columns - width s) ++ s

/-- A text in the middle of so many columns; of an odd number of free ones the larger half is on its
right. -/
def centred (columns : Nat) (s : String) : String := repeated ' ' ((columns - width s) / 2) ++ s

/-! ## Cells -/

/-- The lines of a cell of the first column. A joiner at the end of a text takes in the space after it,
so the columns are counted once more. -/
def leftCell (columns : Nat) (s : String) : List String :=
  (layOut .ellipsis columns s).map fun line => padRight columns (padRight columns line)

/-- The lines of a cell of the second column. -/
def rightCell (columns : Nat) (s : String) : List String :=
  (layOut .ellipsis columns s).map (padLeft columns)

/-- The lines of a row, whose cells begin on its first line. -/
def rowLines (side : String) (first second : Nat) (cells : String × String) : List String :=
  let left := leftCell first cells.1
  let right := rightCell second cells.2
  (List.range (max left.length right.length)).map fun i =>
    let l := left[i]?.getD (repeated ' ' first)
    let r := right[i]?.getD (repeated ' ' second)
    s!"{side} {l} {side} {r} {side}"

/-! ## Columns -/

/-- Half of a number, and of an odd one the even neighbour of its half. -/
def halfToEven (n : Nat) : Nat := n / 2 + n / 2 % 2 * (n % 2)

/-- The widths of two columns that share some room. If they ask for more, the wider one gives way first,
down to the width of the narrower one, and then both alike. -/
def shareRoom (room first second : Nat) : Nat × Nat :=
  let narrower := min first second
  if first + second ≤ room then (first, second)
  else if 2 * narrower ≤ room then
    if first ≤ second then (first, room - first) else (room - second, second)
  else
    let first := narrower - halfToEven (2 * narrower - room)
    (first, room - first)

/-- A horizontal line of a table with columns of the given widths. -/
def rule (left line cross right : Char) (first second : Nat) : String :=
  left.toString ++ repeated line (first + 2) ++ cross.toString ++ repeated line (second + 2) ++
    right.toString

/-- The lines of a table on a terminal of so many columns. By itself a column asks for no more than the
borders of the table leave it. -/
def tableLines (columns : Nat) (title : String) (header : String × String)
    (rows : List (String × String)) : List String :=
  let rows := rows.map fun (left, right) => (drawable left, drawable right)
  let widest (cell : String × String → String) : Nat :=
    ((header :: rows).map fun row => min (widestLine (cell row)) (columns - 5)).foldl max 0
  let (first, second) := shareRoom (columns - 7) (widest Prod.fst) (widest Prod.snd)
  [centred (first + second + 7) title, rule '┏' '━' '┳' '┓' first second] ++
    rowLines "┃" first second header ++ [rule '┡' '━' '╇' '┩' first second] ++
    rows.flatMap (rowLines "│" first second) ++ [rule '└' '─' '┴' '┘' first second]

end DependencyResolution.Text
