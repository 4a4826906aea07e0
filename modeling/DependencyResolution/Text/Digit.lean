import DependencyResolution.Text.Blank
import DependencyResolution.Text.Shown

/-!
# Digits and the numbers that they denote

ASCII digits denote numbers to a base. Unicode gives each script's decimal digits ten consecutive code
points, zero first: a decimal digit is a character in one of those runs, its value is the distance from
the run's zero, and a numeral may mix scripts. `readNatural` reads such digits, `readInteger` a whole number as
people type it: blanks around it, one sign, and single underscores between digits.
-/

namespace DependencyResolution.Text

/-! ## ASCII digits -/

/-- The value of a hexadecimal digit. -/
def hexValue? (c : Char) : Option Nat :=
  if '0' ≤ c ∧ c ≤ '9' then some (c.toNat - '0'.toNat)
  else if 'a' ≤ c ∧ c ≤ 'f' then some (c.toNat - 'a'.toNat + 10)
  else if 'A' ≤ c ∧ c ≤ 'F' then some (c.toNat - 'A'.toNat + 10)
  else none

/-- The number that digits to a base denote, if all are digits to that base; it is at most 16. -/
def ofBase? (base : Nat) (cs : List Char) : Option Nat :=
  cs.foldlM
    (fun n c => do
      let d ← hexValue? c
      if d < base then some (base * n + d) else none)
    0

/-- The number that ASCII decimal digits denote. -/
def digitsValue (ds : List Char) : Nat := ds.foldl (fun n c => 10 * n + (c.toNat - '0'.toNat)) 0

/-! ## Decimal digits of every script -/

/-- The code points of the digit zero in each script that has decimal digits, ascending. -/
def decimalZeros : List Nat := [
  0x30, 0x660, 0x6f0, 0x7c0, 0x966, 0x9e6, 0xa66, 0xae6, 0xb66, 0xbe6, 0xc66, 0xce6, 0xd66,
  0xde6, 0xe50, 0xed0, 0xf20, 0x1040, 0x1090, 0x17e0, 0x1810, 0x1946, 0x19d0, 0x1a80, 0x1a90,
  0x1b50, 0x1bb0, 0x1c40, 0x1c50, 0xa620, 0xa8d0, 0xa900, 0xa9d0, 0xa9f0, 0xaa50, 0xabf0,
  0xff10, 0x104a0, 0x10d30, 0x11066, 0x110f0, 0x11136, 0x111d0, 0x112f0, 0x11450, 0x114d0,
  0x11650, 0x116c0, 0x11730, 0x118e0, 0x11950, 0x11c50, 0x11d50, 0x11da0, 0x16a60, 0x16ac0,
  0x16b50, 0x1d7ce, 0x1d7d8, 0x1d7e2, 0x1d7ec, 0x1d7f6, 0x1e140, 0x1e2f0, 0x1e950, 0x1fbf0]

/-- The value of a decimal digit of any script. -/
def digitValue? (c : Char) : Option Nat :=
  (decimalZeros.find? fun first => first ≤ c.toNat && c.toNat ≤ first + 9).map (c.toNat - ·)

def isDecimalDigit (c : Char) : Bool := (digitValue? c).isSome

/-- The number that a list of digit values denotes, most significant first. -/
def ofDigits (digits : List Nat) : Nat := digits.foldl (fun n d => 10 * n + d) 0

/-- The number that a run of decimal digits denotes; other characters count as zero. -/
def decimalValue (cs : List Char) : Nat := ofDigits (cs.map fun c => (digitValue? c).getD 0)

/-- The digit values of a run of digits in which single underscores may stand between digits. -/
def groupedDigits? : List Char → Option (List Nat)
  | [] => none
  | [c] => (digitValue? c).map ([·])
  | c :: '_' :: rest => do
    let d ← digitValue? c
    let ds ← groupedDigits? rest
    some (d :: ds)
  | c :: rest => do
    let d ← digitValue? c
    let ds ← groupedDigits? rest
    some (d :: ds)

/-! ## Whole numbers -/

/-- The number that a run of decimal digits denotes, if it is not too long. -/
def readNatural (digits : List Char) : Except NumberError Nat :=
  if digits.length ≤ digitLimit then .ok (decimalValue digits) else .error (.tooLong digits.length)

/-- The whole number a text denotes: blanks around it are ignored, one sign may come first, and
single underscores may group the digits. Too many digits are an error even if other characters
follow. -/
def readInteger (s : String) : Except NumberError Int :=
  let (sign, cs) : Int × List Char :=
    match trimBlanks s.toList with
    | '-' :: rest => (-1, rest)
    | '+' :: rest => (1, rest)
    | cs => (1, cs)
  let run := cs.takeWhile fun c => isDecimalDigit c || c == '_'
  match groupedDigits? run with
  | none => .error (.notInteger s)
  | some digits =>
    if digitLimit < digits.length then .error (.tooLong digits.length)
    else if run.length < cs.length then .error (.notInteger s)
    else .ok (sign * ofDigits digits)

end DependencyResolution.Text
