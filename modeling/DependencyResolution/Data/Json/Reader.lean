import DependencyResolution.Data.Datum
import DependencyResolution.Text.Digit

/-!
# Reading JSON

A reader of JSON texts. Each function takes a value off the front of a list of characters and gives the
rest. Beyond the standard, `NaN`, `Infinity` and `-Infinity` are numbers. A number with a fraction or
an exponent is a floating-point number, and of several entries with one key the last value counts, in
the place of the first.
-/

namespace DependencyResolution.Json

open Text

/-! ## Scalars -/

/-- The text after blanks: spaces, tabs and line ends. -/
def skipBlanks (cs : List Char) : List Char :=
  cs.dropWhile fun c => c = ' ' || c = '\t' || c = '\n' || c = '\r'

/-- The text after a word, if it begins with it. -/
def skipWord? (word : String) (cs : List Char) : Option (List Char) :=
  if word.toList.isPrefixOf cs then some (cs.drop word.length) else none

/-- The number that four hexadecimal digits denote. -/
def hex4? (a b c d : Char) : Option Nat := ofBase? 16 [a, b, c, d]

/-- The character that a backslash and one more character denote. -/
def escaped? : Char → Option Char
  | '"' => some '"'
  | '\\' => some '\\'
  | '/' => some '/'
  | 'b' => some '\x08'
  | 'f' => some '\x0c'
  | 'n' => some '\n'
  | 'r' => some '\r'
  | 't' => some '\t'
  | _ => none

/-- The rest of a text after its opening quote, and what follows the closing one. `taken` are the
characters so far, newest first. Control characters stand in no text. -/
def takeText (taken : List Char) : List Char → Option (String × List Char)
  | '"' :: rest => some (String.ofList taken.reverse, rest)
  | '\\' :: 'u' :: a :: b :: c :: d :: '\\' :: 'u' :: e :: f :: g :: h :: rest => do
    let high ← hex4? a b c d
    let low ← hex4? e f g h
    if isHighSurrogate high && isLowSurrogate low then
      takeText (ofSurrogates high low :: taken) rest
    else do
      let ch ← ofCodePoint? high
      takeText (ch :: taken) ('\\' :: 'u' :: e :: f :: g :: h :: rest)
  | '\\' :: 'u' :: a :: b :: c :: d :: rest => do
    let ch ← ofCodePoint? (← hex4? a b c d)
    takeText (ch :: taken) rest
  | '\\' :: c :: rest => do
    let c ← escaped? c
    takeText (c :: taken) rest
  | c :: rest => if c.toNat < 0x20 then none else takeText (c :: taken) rest
  | [] => none

/-- Digits off the front, and the rest. -/
def takeDigits (cs : List Char) : List Char × List Char :=
  (cs.takeWhile Char.isDigit, cs.dropWhile Char.isDigit)

/-- The digits after a point, if there are any, and the rest. -/
def takeFraction : List Char → List Char × List Char
  | '.' :: rest =>
    match takeDigits rest with
    | ([], _) => ([], '.' :: rest)
    | (ds, rest) => (ds, rest)
  | cs => ([], cs)

/-- The exponent, if there is one, and the rest. -/
def takeExponent (cs : List Char) : Option Int × List Char :=
  match cs with
  | c :: rest =>
    if c = 'e' ∨ c = 'E' then
      let (negative, digits) :=
        match rest with
        | '-' :: r => (true, r)
        | '+' :: r => (false, r)
        | r => (false, r)
      match takeDigits digits with
      | ([], _) => (none, cs)
      | (ds, rest) =>
        let n : Int := digitsValue ds
        (some (if negative then -n else n), rest)
    else (none, cs)
  | [] => (none, cs)

/-- A number without its sign, and the rest: a whole number without leading zeros, then perhaps a
fraction and an exponent. -/
def takeUnsigned (negative : Bool) (cs : List Char) : Option (Scalar × List Char) :=
  let (whole, rest) :=
    match cs with
    | '0' :: rest => (['0'], rest)
    | _ => takeDigits cs
  if whole.isEmpty then none
  else
    let (fraction, rest) := takeFraction rest
    let (exponent, rest) := takeExponent rest
    if fraction.isEmpty && exponent.isNone then
      let n : Int := digitsValue whole
      some (.integer (if negative then -n else n), rest)
    else
      let scale := exponent.getD 0 - fraction.length
      some (.float (Double.ofDecimal negative (digitsValue (whole ++ fraction)) scale), rest)

/-- A scalar that is not a text, and the rest. -/
def takeScalar (cs : List Char) : Option (Scalar × List Char) :=
  match words.findSome? fun (word, s) => (skipWord? word cs).map (s, ·) with
  | some found => some found
  | none =>
    match cs with
    | '-' :: rest => takeUnsigned true rest
    | _ => takeUnsigned false cs
where
  /-- The words that stand for scalars. -/
  words : List (String × Scalar) :=
    [("null", .null), ("true", .bool true), ("false", .bool false), ("NaN", .float .nan),
      ("Infinity", .float (.infinite false)), ("-Infinity", .float (.infinite true))]

/-! ## Values -/

mutual

/-- A value, and the rest; `depth` bounds the calls. -/
def takeValue : (depth : Nat) → List Char → Option (Datum × List Char)
  | 0, _ => none
  | depth + 1, cs =>
    match cs with
    | '"' :: rest => (takeText [] rest).map fun (s, rest) => (.ofString s, rest)
    | '[' :: rest =>
      match skipBlanks rest with
      | ']' :: rest => some (.list [], rest)
      | rest => (takeItems depth rest).map fun (items, rest) => (.list items, rest)
    | '\x7b' :: rest =>
      match skipBlanks rest with
      | '\x7d' :: rest => some (.mapping [], rest)
      | rest => (takeEntries depth rest).map fun (entries, rest) => (.ofEntries entries, rest)
    | cs => (takeScalar cs).map fun (s, rest) => (.scalar s, rest)

/-- The items of a list up to the closing bracket, and the rest. -/
def takeItems : (depth : Nat) → List Char → Option (List Datum × List Char)
  | 0, _ => none
  | depth + 1, cs => do
    let (item, rest) ← takeValue depth cs
    match skipBlanks rest with
    | ',' :: rest =>
      let (items, rest) ← takeItems depth (skipBlanks rest)
      some (item :: items, rest)
    | ']' :: rest => some ([item], rest)
    | _ => none

/-- The entries of a mapping up to the closing brace, and the rest. -/
def takeEntries : (depth : Nat) → List Char → Option (List (Scalar × Datum) × List Char)
  | 0, _ => none
  | depth + 1, cs =>
    match cs with
    | '"' :: rest => do
      let (key, rest) ← takeText [] rest
      match skipBlanks rest with
      | ':' :: rest =>
        let (value, rest) ← takeValue depth (skipBlanks rest)
        match skipBlanks rest with
        | ',' :: rest =>
          let (entries, rest) ← takeEntries depth (skipBlanks rest)
          some ((.text key, value) :: entries, rest)
        | '\x7d' :: rest => some ([(.text key, value)], rest)
        | _ => none
      | _ => none
    | _ => none

end

/-- The value that a text denotes. Each call takes at least one character, two calls at most stand
between characters. -/
def read? (s : String) : Option Datum :=
  let cs := s.toList
  match takeValue (2 * cs.length + 2) (skipBlanks cs) with
  | some (value, rest) => if (skipBlanks rest).isEmpty then some value else none
  | none => none

end DependencyResolution.Json
