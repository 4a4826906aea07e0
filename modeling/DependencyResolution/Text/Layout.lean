import DependencyResolution.Text.Blank
import DependencyResolution.Text.Width

/-!
# Lines of a given width

A text is laid out in lines that take at most so many columns. It breaks at its line feeds, and a tab
leads to the next multiple of eight columns. A line that is too wide breaks between its words, which
keep the blanks after them as far as there is room, and a word that is wider than a line goes on in the
next lines or is cut short.
-/

namespace DependencyResolution.Text

/-! ## Tabs -/

/-- The first of the columns with a tab stop that is not before a column. -/
def tabStop (column : Nat) : Nat := (column + 7) / 8 * 8

/-- The parts of a line between its tabs, from a column on, with spaces for the tabs: one and then as
many as lead to a tab stop. -/
def joinTabbed (column : Nat) : List (List Char) → List Char
  | [] => []
  | [part] => part
  | part :: next :: rest =>
    let reached := column + columns none (part ++ [' '])
    let spaces := List.replicate (tabStop reached - reached) ' '
    part ++ ' ' :: spaces ++ joinTabbed (tabStop reached) (next :: rest)

def expandTabs (line : List Char) : List Char := joinTabbed 0 (splitAtChar '\t' line)

/-! ## Clusters -/

/-- The clusters of a text, characters that take columns with those after them that take none, and the
columns of each. `done` are the clusters so far, newest first, and `shown` is the last character among
them that takes columns and has no selector yet. -/
def clustersFrom (shown : Option Char) :
    (done : List (List Char × Nat)) → List Char → List (List Char × Nat)
  | done, [] => done.reverse
  | [], c :: rest =>
    let w := if c = '\u200d' ∨ c = '\ufe0f' then 0 else charWidth c
    clustersFrom (if w = 0 then shown else some c) [([c], w)] rest
  | (cluster, w) :: done, ['\u200d'] => clustersFrom shown ((cluster ++ ['\u200d'], w) :: done) []
  | (cluster, w) :: done, '\u200d' :: c :: rest =>
    clustersFrom shown ((cluster ++ ['\u200d', c], w) :: done) rest
  | (cluster, w) :: done, '\ufe0f' :: rest =>
    let more := (shown.map selectorWidth).getD 0
    clustersFrom (if more = 0 then shown else none)
      ((cluster ++ ['\ufe0f'], w + more) :: done) rest
  | (cluster, w) :: done, c :: rest =>
    if charWidth c = 0 then clustersFrom shown ((cluster ++ [c], w) :: done) rest
    else clustersFrom (some c) (([c], charWidth c) :: (cluster, w) :: done) rest

def clusters (cs : List Char) : List (List Char × Nat) := clustersFrom none [] cs

/-- As much of a text as takes so many columns; a space stands for a cluster that fits only in part. -/
def cut (max : Nat) : List (List Char × Nat) → List Char
  | [] => []
  | (cluster, w) :: rest =>
    if max = 0 then []
    else if w ≤ max then cluster ++ cut (max - w) rest
    else [' ']

/-- A text in pieces that take at most so many columns each, given the piece so far and its columns. -/
def foldedFrom (max : Nat) (piece : List Char) (used : Nat) :
    List (List Char × Nat) → List (List Char)
  | [] => [piece]
  | (cluster, w) :: rest =>
    if used + w ≤ max then foldedFrom max (piece ++ cluster) (used + w) rest
    else piece :: foldedFrom max cluster w rest

/-! ## Lines -/

/-- What becomes of a text that is wider than a line and has no place to break. -/
inductive Overflow where
  /-- It goes on in the next lines. -/
  | fold
  /-- It is cut short, with an ellipsis at its end. -/
  | ellipsis
  deriving DecidableEq

/-- The pieces of a word that is wider than a line. -/
def Overflow.pieces (o : Overflow) (max : Nat) (word : List Char) : List (List Char) :=
  match o with
  | fold => foldedFrom max [] 0 (clusters word)
  | ellipsis => [word]

/-- A line, or what is left of one that is too wide. -/
def Overflow.shortened (o : Overflow) (max : Nat) (line : List Char) : List Char :=
  if columns none line ≤ max then line
  else
    match o with
    | fold => cut max (clusters line)
    | ellipsis => cut (max - 1) (clusters line) ++ ['…']

def trimEnd (cs : List Char) : List Char := (cs.reverse.dropWhile isBlank).reverse

/-- A line in runs that end where a word begins after blanks. -/
def wordRuns : List Char → List (List Char)
  | [] => []
  | [c] => [[c]]
  | c :: d :: rest =>
    match wordRuns (d :: rest) with
    | [] => [[c]]
    | run :: runs =>
      if isBlank c && !isBlank d then [c] :: run :: runs else (c :: run) :: runs

/-- The words of a line with the blanks after them, and the first also with the blanks before it. -/
def wordsAndBlanks (line : List Char) : List (List Char) :=
  match wordRuns line with
  | first :: second :: rest =>
    if first.all isBlank then (first ++ second) :: rest else first :: second :: rest
  | runs => runs

/-- The lines that words make one after the other, given the line so far and the columns that it takes.
A word goes to the next line if it does not fit, whatever blanks follow it. -/
def linesOfWords (o : Overflow) (max : Nat) (line : List Char) (used : Nat) :
    List (List Char) → List (List Char)
  | [] => [line]
  | word :: rest =>
    let bare := columns none (trimEnd word)
    if used + bare ≤ max then
      linesOfWords o max (line ++ word) (used + columns none word) rest
    else
      let pieces := if bare ≤ max then [word] else o.pieces max word
      let last := pieces.getLast?.getD []
      (if line.isEmpty then [] else [line]) ++ pieces.dropLast ++
        linesOfWords o max last (columns none last) rest

/-- A line without the blanks at its end that are beyond so many characters. -/
def dropBlanksBeyond (max : Nat) (line : List Char) : List Char :=
  let blanks := (line.reverse.takeWhile isBlank).length
  line.take (line.length - min blanks (line.length - max))

/-- The lines that a text takes at a width. -/
def layOut (o : Overflow) (max : Nat) (s : String) : List String :=
  (splitAtChar '\n' s.toList).flatMap fun line =>
    (linesOfWords o max [] 0 (wordsAndBlanks (expandTabs line))).map fun l =>
      String.ofList (o.shortened max (dropBlanksBeyond max l))

/-! ## The width that a text asks for -/

/-- Whether a character ends a line. -/
def isLineEnd (c : Char) : Bool :=
  let n := c.toNat
  (0x0a ≤ n && n ≤ 0x0d) || (0x1c ≤ n && n ≤ 0x1e) || n == 0x85 || n == 0x2028 || n == 0x2029

/-- The columns of the widest line of a text, its tabs not counted. -/
def widestLine (s : String) : Nat :=
  ((s.toList.splitBy fun a b => isLineEnd a == isLineEnd b).map (columns none)).foldl max 0

end DependencyResolution.Text
