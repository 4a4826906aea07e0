import DependencyResolution.Text.Printable

/-!
# Values in messages

Messages show a value in one of two ways: as plain text, or as a literal that also tells what kind of
value it is.

The literal of a text is the text in quotes, so that a message shows exactly which characters it holds. The
quote is `'`, or `"` for a text that holds `'` and no `"`. The backslash and the quote in use are written
with a backslash, line feed, carriage return and tab as `\n`, `\r` and `\t`, and every other character that
is not printable by its code point in two, four or eight hexadecimal digits.

Characters beyond the first 65536 may be escaped as two code units, a high and a low surrogate. A
surrogate by itself is no character, but data may hold one; a text keeps it as a stand-in, a code point of
the fourteenth plane, where there are no characters.

A whole number of more than `digitLimit` digits is neither read from a text nor written as one.
-/

namespace DependencyResolution.Text

/-! ## Surrogates -/

/-- Whether a code unit is the first of a pair. -/
def isHighSurrogate (n : Nat) : Bool := 0xd800 ≤ n && n < 0xdc00

/-- Whether a code unit is the second of a pair. -/
def isLowSurrogate (n : Nat) : Bool := 0xdc00 ≤ n && n < 0xe000

/-- The character of a pair of surrogates. -/
def ofSurrogates (high low : Nat) : Char :=
  Char.ofNat (0x10000 + (high - 0xd800) * 0x400 + (low - 0xdc00))

/-- What is added to a surrogate for its stand-in. -/
def standInOffset : Nat := 0xd0000

/-- The character with a code point, if there is one; for a surrogate its stand-in. -/
def ofCodePoint? (n : Nat) : Option Char :=
  if isHighSurrogate n || isLowSurrogate n then some (Char.ofNat (standInOffset + n))
  else if n.isValidChar then some (Char.ofNat n)
  else none

/-- The surrogate that a character stands in for. -/
def surrogate? (c : Char) : Option Nat :=
  let n := c.toNat - standInOffset
  if standInOffset ≤ c.toNat && (isHighSurrogate n || isLowSurrogate n) then some n else none

/-- The code point that a character stands for. -/
def codePoint (c : Char) : Nat := (surrogate? c).getD c.toNat

/-- Whether a text holds a surrogate by itself, so that no bytes denote it. -/
def holdsSurrogate (s : String) : Bool := s.toList.any fun c => (surrogate? c).isSome

/-- Whether a text comes before another one in the order of code points. -/
def comesBefore (s t : String) : Bool :=
  decide (s.toList.map codePoint < t.toList.map codePoint)

/-! ## Quoted text -/

/-- The last `count` hexadecimal digits of a number, in lower case. -/
def hexDigits (count n : Nat) : List Char :=
  match count with
  | 0 => []
  | count + 1 => hexDigits count (n / 16) ++ [Nat.digitChar (n % 16)]

/-- The quote that a text is written in. -/
def quoteFor (cs : List Char) : Char :=
  if cs.contains '\'' && !cs.contains '"' then '"' else '\''

/-- How one character is written between the given quotes. -/
def quotedChar (quote c : Char) : List Char :=
  if c = quote ∨ c = '\\' then ['\\', c]
  else if c = '\n' then ['\\', 'n']
  else if c = '\r' then ['\\', 'r']
  else if c = '\t' then ['\\', 't']
  else if isPrintable c then [c]
  else
    let n := codePoint c
    if n ≤ 0xff then '\\' :: 'x' :: hexDigits 2 n
    else if n ≤ 0xffff then '\\' :: 'u' :: hexDigits 4 n
    else '\\' :: 'U' :: hexDigits 8 n

def quoted (s : String) : String :=
  let cs := s.toList
  let quote := quoteFor cs
  String.ofList (quote :: cs.flatMap (quotedChar quote) ++ [quote])

/-- A text in which surrogates are written as in quoted text, and all else as it is. -/
def withEscapedSurrogates (s : String) : String :=
  String.ofList (s.toList.flatMap fun c => if (surrogate? c).isSome then quotedChar '"' c else [c])

/-! ## Whole numbers -/

/-- The digits that a whole number may have at most to be read from a text or written as one. -/
def digitLimit : Nat := 4300

/-- Whether a whole number has few enough digits; the sign does not count. -/
def isShort (n : Int) : Bool := decide ((Nat.toDigits 10 n.natAbs).length ≤ digitLimit)

/-- Why a whole number is not read from a text, or not written as one. -/
inductive NumberError where
  | notInteger (text : String)
  /-- The text has so many digits, which are too many. -/
  | tooLong (digits : Nat)
  /-- The number has too many digits to be written. -/
  | unwritable
  deriving DecidableEq

/-- The text of an error. Of a quoted text it shows 200 characters at most. -/
def NumberError.message : NumberError → String
  | notInteger text =>
    let shown := String.ofList ((quoted text).toList.take 200)
    s!"invalid literal for int() with base 10: {shown}"
  | tooLong digits => s!"{limit}: value has {digits} digits; {advice}"
  | unwritable => s!"{limit}; {advice}"
where
  limit : String := s!"Exceeds the limit ({digitLimit} digits) for integer string conversion"
  advice : String := "use sys.set_int_max_str_digits() to increase the limit"

/-! ## Values -/

/-- The two ways in which messages show a value. -/
class Shown (α : Type u) where
  /-- The value as plain text. -/
  text : α → String
  /-- The value as a literal. -/
  literal : α → String
  /-- Whether the numbers in the value have few enough digits to be written. -/
  isWritable : α → Bool := fun _ => true

/-- The plain text of a value, if it can be written. -/
def Shown.written [Shown α] (a : α) : Except NumberError String :=
  if isWritable a then .ok (text a) else .error .unwritable

instance : Shown String where
  text := id
  literal := quoted

instance : Shown Empty where
  text := nofun
  literal := nofun

instance : Shown Int where
  text n := s!"{n}"
  literal n := s!"{n}"
  isWritable := isShort

instance : Shown Nat where
  text n := s!"{n}"
  literal n := s!"{n}"
  isWritable n := isShort n

end DependencyResolution.Text
