import DependencyResolution.Data.Yaml.Cursor
import DependencyResolution.Text.Digit

/-!
# YAML tokens

The tokens of a YAML text. In a block, nesting is shown by columns: `Lexer.token?` turns it into the
tokens `mappingStart`, `sequenceStart` and `blockEnd`. A key is known as such only at the colon after
it, so the places at which a key may have started are remembered, and the token `key` is put in front
of what has been read since.

Anchors, aliases, tags, directives and block scalars are not read: a text that holds one is malformed.
-/

namespace DependencyResolution.Yaml

inductive Token where
  | documentStart
  | documentEnd
  | mappingStart
  | sequenceStart
  | blockEnd
  | key
  | value
  /-- A dash in front of an item. -/
  | item
  | openBrace
  | closeBrace
  | openBracket
  | closeBracket
  | comma
  /-- A scalar; a plain one stands without quotes. -/
  | scalar (text : String) (plain : Bool)
  deriving DecidableEq

/-- A place at which a key may have started. -/
structure Candidate where
  /-- The number of tokens before it. -/
  place : Nat
  /-- Whether nothing but a key can start here. -/
  required : Bool
  index : Nat
  line : Nat
  column : Nat

/-- A text that has been read up to a place. -/
structure Lexer where
  cursor : Cursor
  tokens : Array Token
  /-- How many brackets and braces are open. -/
  flow : Nat
  /-- The columns of the open block collections, innermost first. -/
  indents : List Int
  /-- Whether a key may start at the next token. -/
  keyAllowed : Bool
  /-- Where a key may have started, for each number of open brackets. -/
  candidates : List (Nat × Candidate)

namespace Lexer

/-! ## Parts -/

def start (cs : List Char) : Lexer := ⟨.start cs, #[], 0, [], true, []⟩

/-- The column of the innermost block collection. -/
def indent (l : Lexer) : Int := l.indents.headD (-1)

def push (l : Lexer) (t : Token) : Lexer := { l with tokens := l.tokens.push t }

/-- Adds a token of so many characters. -/
def pushMark (l : Lexer) (t : Token) (length : Nat) : Lexer :=
  { l.push t with cursor := l.cursor.skip length }

/-- Opens a block collection at a column, if it is beyond the innermost one. -/
def openBlock (l : Lexer) (column : Int) : Option Lexer :=
  if l.indent < column then some { l with indents := column :: l.indents } else none

/-- Closes the block collections beyond a column; brackets hide them. -/
def closeBlocks (l : Lexer) (column : Int) : Lexer :=
  if l.flow ≠ 0 then l
  else
    let closed := l.indents.takeWhile (column < ·)
    { l with
      indents := l.indents.drop closed.length
      tokens := l.tokens ++ Array.replicate closed.length Token.blockEnd }

/-- Gives up the place at which a key may have started between the open brackets; fails if it had to be
one. -/
def dropCandidate (l : Lexer) : Option Lexer :=
  match l.candidates.lookup l.flow with
  | some c =>
    if c.required then none
    else some { l with candidates := l.candidates.filter (·.1 ≠ l.flow) }
  | none => some l

/-- Remembers that a key may start here. -/
def saveCandidate (l : Lexer) : Option Lexer :=
  if l.keyAllowed then do
    let required := l.flow == 0 && l.indent == l.cursor.column
    let l ← l.dropCandidate
    let c : Candidate :=
      ⟨l.tokens.size, required, l.cursor.index, l.cursor.line, l.cursor.column⟩
    some { l with candidates := (l.flow, c) :: l.candidates }
  else some l

/-- Gives up the places from which a key would reach over a line end or over 1024 characters. -/
def dropStale (l : Lexer) : Option Lexer :=
  let isStale (c : Candidate) : Bool :=
    c.line ≠ l.cursor.line || c.index + 1024 < l.cursor.index
  if l.candidates.any fun (_, c) => isStale c && c.required then none
  else some { l with candidates := l.candidates.filter fun (_, c) => !isStale c }

/-- Goes on to the next token, over spaces, comments and line ends. After a line end in a block a key
may start. -/
def skipBlanks : (steps : Nat) → Lexer → Lexer
  | 0, l => l
  | steps + 1, l =>
    let cursor := (l.cursor.span (· = ' ')).2
    let cursor :=
      match cursor.rest with
      | '#' :: _ => (cursor.span fun c => !isBreak c).2
      | _ => cursor
    match cursor.takeBreak with
    | ([], _) => { l with cursor }
    | (_, cursor) =>
      skipBlanks steps { l with cursor, keyAllowed := l.keyAllowed || l.flow == 0 }

/-! ## Scalars -/

/-- The length of the part of a plain scalar that stands on one line. -/
def plainLength (inFlow : Bool) : List Char → Nat
  | [] => 0
  | c :: rest =>
    let colon := c = ':' && (atBlank rest || (inFlow && atFlowMark rest))
    if atBlank (c :: rest) || colon || (inFlow && (c = '?' || atFlowMark (c :: rest))) then 0
    else 1 + plainLength inFlow rest
where
  /-- Whether a text is at a comma, bracket or brace. -/
  atFlowMark : List Char → Bool
    | c :: _ => c = ',' || c = '[' || c = ']' || c = '\x7b' || c = '\x7d'
    | [] => false

/-- The blanks after a part of a plain scalar, if the scalar may go on behind them: what they stand
for, the place behind them, and whether they hold a line end. -/
def plainGap (c : Cursor) : Option (List Char) × Cursor × Bool :=
  let (blanks, c) := c.span (· = ' ')
  match c.takeBreak with
  | ([], _) => (if blanks.isEmpty then none else some blanks, c, false)
  | (first, next) =>
    let (more, last) := next.takeBreaks (· = ' ') next.rest.length
    (more.map (Cursor.folded first), last, true)

/-- A plain scalar and the place after it, and whether it reached over a line end; it may go on in
lines from `column` on. `gap` stands before its next part. -/
def plainFrom (inFlow : Bool) (column : Int) :
    (steps : Nat) → (gap : List Char) → Cursor → List Char × Cursor × Bool
  | 0, _, c => ([], c, false)
  | steps + 1, gap, c =>
    let length := if c.rest.head? = some '#' then 0 else plainLength inFlow c.rest
    if length = 0 then ([], c, false)
    else
      let part := gap ++ c.rest.take length
      match plainGap (c.skip length) with
      | (none, c, broken) => (part, c, broken)
      | (some next, c, broken) =>
        if c.rest.head? = some '#' ∨ (inFlow = false ∧ (c.column : Int) < column) then
          (part, c, broken)
        else
          let (more, c, broken') := plainFrom inFlow column steps next c
          (part ++ more, c, if more.isEmpty then broken else broken')

/-- The character that a backslash and one more character denote in a double-quoted scalar. -/
def escaped? : Char → Option Char
  | '0' => some '\x00'
  | 'a' => some '\x07'
  | 'b' => some '\x08'
  | 't' => some '\t'
  | '\t' => some '\t'
  | 'n' => some '\n'
  | 'v' => some '\x0b'
  | 'f' => some '\x0c'
  | 'r' => some '\r'
  | 'e' => some '\x1b'
  | ' ' => some ' '
  | '"' => some '"'
  | '\\' => some '\\'
  | '/' => some '/'
  | 'N' => some '\x85'
  | '_' => some '\xa0'
  | 'L' => some '\u2028'
  | 'P' => some '\u2029'
  | _ => none

/-- The character that so many hexadecimal digits at the front of a text denote. A surrogate stays by
itself, also next to one that would make a pair with it. -/
def hexEscape? (count : Nat) (cs : List Char) : Option Char :=
  if cs.length < count then none else (Text.ofBase? 16 (cs.take count)).bind Text.ofCodePoint?

/-- The blanks in a quoted scalar: what they stand for, and the place behind them. -/
def quotedGap (c : Cursor) : Option (List Char × Cursor) :=
  let (blanks, c) := c.span fun ch => ch = ' ' || ch = '\t'
  match c.takeBreak with
  | ([], _) => if c.rest.isEmpty then none else some (blanks, c)
  | (first, next) => (quotedBreaks next).map fun (more, last) => (Cursor.folded first more, last)
where
  /-- The line ends that follow the one before `next`, unless a document marker is among them. -/
  quotedBreaks (next : Cursor) : Option (List Char × Cursor) :=
    let (more, last) := next.takeBreaks (fun ch => ch = ' ' || ch = '\t') next.rest.length
    more.map (·, last)

/-- The rest of a quoted scalar and the place after its closing quote. -/
def quotedFrom (quote : Char) : (steps : Nat) → Cursor → Option (List Char × Cursor)
  | 0, _ => none
  | steps + 1, c =>
    match c.rest with
    | [] => none
    | ch :: rest =>
      if ch = quote then
        if quote = '\'' ∧ rest.head? = some quote then
          (quotedFrom quote steps (c.skip 2)).map fun (more, c) => (quote :: more, c)
        else some ([], c.advance)
      else if atBlank c.rest then do
        let (gap, c) ← quotedGap c
        let (more, c) ← quotedFrom quote steps c
        some (gap ++ more, c)
      else if ch = '\\' ∧ quote = '"' then
        match rest with
        | 'x' :: rest => escapedHex steps 2 rest c
        | 'u' :: rest => escapedHex steps 4 rest c
        | 'U' :: rest => escapedHex steps 8 rest c
        | e :: _ =>
          if isBreak e then do
            let next := (c.advance.takeBreak).2
            let (breaks, c) ← quotedGap.quotedBreaks next
            let (more, c) ← quotedFrom quote steps c
            some (breaks ++ more, c)
          else do
            let ch ← escaped? e
            let (more, c) ← quotedFrom quote steps (c.skip 2)
            some (ch :: more, c)
        | [] => none
      else (quotedFrom quote steps c.advance).map fun (more, c) => (ch :: more, c)
where
  /-- A character written by its code point in so many digits, and what follows. -/
  escapedHex (steps count : Nat) (rest : List Char) (c : Cursor) :
      Option (List Char × Cursor) := do
    let ch ← hexEscape? count rest
    let (more, c) ← quotedFrom quote steps (c.skip (2 + count))
    some (ch :: more, c)

/-! ## Tokens -/

def openFlow (l : Lexer) (t : Token) : Option Lexer := do
  let l ← l.saveCandidate
  some { l.pushMark t 1 with flow := l.flow + 1, keyAllowed := true }

def closeFlow (l : Lexer) (t : Token) : Option Lexer := do
  let l ← l.dropCandidate
  some { l.pushMark t 1 with flow := l.flow - 1, keyAllowed := false }

/-- Goes on to the next item between brackets. -/
def nextInFlow (l : Lexer) : Option Lexer := do
  let l ← l.dropCandidate
  some { l.pushMark .comma 1 with keyAllowed := true }

/-- A dash in front of an item. -/
def dash (l : Lexer) : Option Lexer :=
  if l.flow ≠ 0 then none
  else if !l.keyAllowed then none
  else do
    let l :=
      match l.openBlock l.cursor.column with
      | some l => l.push .sequenceStart
      | none => l
    let l ← l.dropCandidate
    some { l.pushMark .item 1 with keyAllowed := true }

/-- A question mark in front of a key. -/
def question (l : Lexer) : Option Lexer :=
  if l.flow = 0 ∧ !l.keyAllowed then none
  else do
    let l :=
      if l.flow ≠ 0 then l
      else
        match l.openBlock l.cursor.column with
        | some l => l.push .mappingStart
        | none => l
    let l ← l.dropCandidate
    some { l.pushMark .key 1 with keyAllowed := l.flow == 0 }

/-- The tokens with the token `key` put where a key started, and with the start of a mapping before it
if that opens one. -/
def insertKey (l : Lexer) (c : Candidate) : Lexer :=
  let before := l.tokens.extract 0 c.place
  let after := l.tokens.extract c.place l.tokens.size
  match if l.flow = 0 then l.openBlock c.column else none with
  | some l => { l with tokens := before ++ #[.mappingStart, .key] ++ after }
  | none => { l with tokens := before ++ #[.key] ++ after }

def colon (l : Lexer) : Option Lexer :=
  match l.candidates.lookup l.flow with
  | some c =>
    let l := { l with candidates := l.candidates.filter (·.1 ≠ l.flow) }
    some { (l.insertKey c).pushMark .value 1 with keyAllowed := false }
  | none =>
    if l.flow = 0 ∧ !l.keyAllowed then none
    else
      let l :=
        if l.flow ≠ 0 then l
        else
          match l.openBlock l.cursor.column with
          | some l => l.push .mappingStart
          | none => l
      some { l.pushMark .value 1 with keyAllowed := l.flow == 0 }

def quotedScalar (l : Lexer) (quote : Char) : Option Lexer := do
  let l ← l.saveCandidate
  let (text, cursor) ← quotedFrom quote (l.cursor.rest.length + 1) l.cursor.advance
  some { l.push (.scalar (String.ofList text) false) with cursor, keyAllowed := false }

def plainScalar (l : Lexer) : Option Lexer := do
  let l ← l.saveCandidate
  let (text, cursor, broken) :=
    plainFrom (l.flow != 0) (l.indent + 1) (l.cursor.rest.length + 1) [] l.cursor
  some { l.push (.scalar (String.ofList text) true) with cursor, keyAllowed := broken }

def marker (l : Lexer) (t : Token) : Option Lexer := do
  let l ← (l.closeBlocks (-1)).dropCandidate
  some { l.pushMark t 3 with keyAllowed := false }

/-- Whether a plain scalar can start with a character that is followed by the given text. -/
def startsPlain (inFlow : Bool) (c : Char) (rest : List Char) : Bool :=
  if c = '-' then !atBlank rest
  else if c = '?' || c = ':' then !inFlow && !atBlank rest
  else !("\t,[]#&*!|>'\"%@`".toList.contains c || c = '\x7b' || c = '\x7d')

/-- The next token of a text that is not at its end, with the tokens that columns stand for. -/
def token? (l : Lexer) : Option Lexer :=
  let inFlow := l.flow != 0
  match l.cursor.rest with
  | [] => some l
  | c :: rest =>
    if l.cursor.column = 0 ∧ atMarker '-' (c :: rest) then l.marker .documentStart
    else if l.cursor.column = 0 ∧ atMarker '.' (c :: rest) then l.marker .documentEnd
    else if c = '[' then l.openFlow .openBracket
    else if c = '\x7b' then l.openFlow .openBrace
    else if c = ']' then l.closeFlow .closeBracket
    else if c = '\x7d' then l.closeFlow .closeBrace
    else if c = ',' then l.nextInFlow
    else if c = '-' ∧ atBlank rest then l.dash
    else if c = '?' ∧ (inFlow ∨ atBlank rest) then l.question
    else if c = ':' ∧ (inFlow ∨ atBlank rest) then l.colon
    else if c = '\'' ∨ c = '"' then l.quotedScalar c
    else if startsPlain inFlow c rest then l.plainScalar
    else none

/-- All tokens from a place on. Every step takes a character at least. -/
def run : (steps : Nat) → Lexer → Option (Array Token)
  | 0, _ => none
  | steps + 1, l => do
    let l := skipBlanks (l.cursor.rest.length + 1) l
    let l ← l.dropStale
    let l := l.closeBlocks l.cursor.column
    if l.cursor.rest.isEmpty then
      let l ← (l.closeBlocks (-1)).dropCandidate
      some l.tokens
    else run steps (← l.token?)

end Lexer

/-- Whether a character may stand in a text. -/
def isAllowed (c : Char) : Bool :=
  let n := c.toNat
  n == 0x09 || n == 0x0a || n == 0x0d || (0x20 ≤ n && n ≤ 0x7e) || n == 0x85 ||
    (0xa0 ≤ n && n ≤ 0xfffd) || 0x10000 ≤ n

/-- The tokens of a text; a byte order mark at its start is dropped. -/
def Token.scan (cs : List Char) : Option (List Token) :=
  if cs.all isAllowed then
    let l := Lexer.start cs
    let l := if cs.head? = some '\ufeff' then { l with cursor := l.cursor.advance } else l
    (l.run (cs.length + 2)).map Array.toList
  else none

end DependencyResolution.Yaml
