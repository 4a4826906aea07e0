import DependencyResolution.Data.Datum
import DependencyResolution.Text.Digit
import DependencyResolution.Text.Blank

/-!
# Plain scalars in YAML

What a scalar without quotes stands for: a null, a truth value, a whole number, a floating-point number,
or else the text itself. Whole numbers may be written to the bases 2, 8, 10, 16 and 60, and underscores
may group digits. A floating-point number has a point, and the exponent of one has a sign, so `1e5` and
`1.0.0` are texts.
-/

namespace DependencyResolution.Yaml

open Text (hexValue? ofBase? digitsValue splitAtChar)

/-! ## Words -/

/-- The plain scalars that are a word of their own, with what they stand for. -/
def words : List (String × Scalar) :=
  (["", "~", "null", "Null", "NULL"].map (·, .null)) ++
    (["yes", "Yes", "YES", "true", "True", "TRUE", "on", "On", "ON"].map (·, .bool true)) ++
    (["no", "No", "NO", "false", "False", "FALSE", "off", "Off", "OFF"].map (·, .bool false)) ++
    ([".nan", ".NaN", ".NAN"].map (·, .float .nan)) ++
    ([".inf", ".Inf", ".INF", "+.inf", "+.Inf", "+.INF"].map (·, .float (.infinite false))) ++
    (["-.inf", "-.Inf", "-.INF"].map (·, .float (.infinite true)))

/-- The plain scalar that stands as a key for the entries of the mappings that are its value. -/
def mergeKey : String := "<<"

/-- The plain scalar that is a text as a key, and stands for nothing elsewhere. -/
def valueKey : String := "="

/-! ## Numbers -/

/-- The sign at the start of a text, whether it is a minus, and the rest. -/
def takeSign : List Char → Bool × List Char
  | '-' :: rest => (true, rest)
  | '+' :: rest => (false, rest)
  | cs => (false, cs)

/-- The number that digits to a base denote, with underscores among them. -/
def grouped? (base : Nat) (cs : List Char) : Option Nat := ofBase? base (cs.filter (· ≠ '_'))

/-- Whether a text is a digit below a bound. -/
def startsBelow (bound : Nat) : List Char → Bool
  | c :: _ => (hexValue? c).any (· < bound)
  | [] => false

/-- The number that a text denotes that starts with a decimal digit and goes on with digits and
underscores. -/
def decimal? (cs : List Char) : Option Nat := if startsBelow 10 cs then grouped? 10 cs else none

/-- The number that the part of a numeral to the base 60 denotes that stands behind a colon: one digit,
or two of which the first is below 6. -/
def sixtieth? (cs : List Char) : Option Nat :=
  match cs with
  | [_] => if cs.all Char.isDigit then some (digitsValue cs) else none
  | [_, _] =>
    if cs.all Char.isDigit && startsBelow 6 cs then some (digitsValue cs) else none
  | _ => none

/-- The places of a numeral to the base 60, least first, with at least one colon between them. -/
def sixtieths? (cs : List Char) : Option (List Nat) :=
  match splitAtChar ':' cs with
  | first :: second :: parts => do
    let n ← decimal? first
    let more ← (second :: parts).mapM sixtieth?
    some (n :: more).reverse
  | _ => none

/-- The whole number that a numeral to the base 60 denotes. -/
def sexagesimal? (cs : List Char) : Option Nat :=
  (sixtieths? cs).map (·.foldr (· + 60 * ·) 0)

/-- What the places of a numeral to the base 60 come to, least first, when the first of them counts
`weight`. Every product and every sum is rounded. -/
def sumSixtieths (weight : Nat) (sum : Double) : List Double → Double
  | [] => sum
  | place :: more =>
    let term := place.mulMagnitudes (.ofBinary false weight 0)
    sumSixtieths (60 * weight) (sum.addMagnitudes term) more

/-- The whole number that a text without a sign denotes. A zero in front makes the base 8. -/
def natural? : List Char → Option Nat
  | '0' :: 'b' :: rest => if rest.any (· ≠ '_') then grouped? 2 rest else none
  | '0' :: 'x' :: rest => if rest.any (· ≠ '_') then grouped? 16 rest else none
  | '0' :: rest => grouped? 8 rest
  | cs => (decimal? cs).orElse fun _ => sexagesimal? cs

/-- The exponent at the end of a numeral, which has a sign; zero for an empty text. -/
def exponent? : List Char → Option Int
  | [] => some 0
  | e :: sign :: digits =>
    if (e = 'e' ∨ e = 'E') ∧ (sign = '-' ∨ sign = '+') ∧ !digits.isEmpty ∧
        digits.all Char.isDigit then
      let n : Int := digitsValue digits
      some (if sign = '-' then -n else n)
    else none
  | _ => none

/-- The floating-point number that a sign and a text denote. What stands before the point may be empty
if there is no sign and a digit follows the point. -/
def fractional? (signed negative : Bool) (cs : List Char) : Option Double :=
  let whole := cs.takeWhile (· ≠ '.')
  match cs.dropWhile (· ≠ '.') with
  | '.' :: rest => do
    let places := rest.takeWhile fun c => c.isDigit || c = '_'
    let tail := rest.dropWhile fun c => c.isDigit || c = '_'
    let fraction := places.filter (· ≠ '_')
    let scale : Int := -fraction.length
    let of (n : Nat) (exponent : Int) : Double :=
      .ofDecimal negative (n * Nat.pow 10 fraction.length + digitsValue fraction) (exponent + scale)
    match whole with
    | [] => if !signed && startsBelow 10 places then (exponent? tail).map (of 0) else none
    | _ =>
      match decimal? whole, sixtieths? whole with
      | some n, _ => (exponent? tail).map (of n)
      | none, some (least :: more) =>
        if tail.isEmpty then
          let places := of least 0 :: more.map fun n => Double.ofDecimal false n 0
          some ((sumSixtieths 1 (.ofBinary false 0 0) places).withSign negative)
        else none
      | none, _ => none
  | _ => none

/-- What a plain scalar stands for where it is not a key. -/
def plain? (s : String) : Option Scalar :=
  if s = mergeKey ∨ s = valueKey then none
  else
    match words.lookup s with
    | some value => some value
    | none =>
      let (negative, cs) := takeSign s.toList
      match natural? cs with
      | some n => some (.integer (if negative then -n else n))
      | none =>
        match fractional? (cs.length < s.length) negative cs with
        | some x => some (.float x)
        | none => some (.text s)

end DependencyResolution.Yaml
