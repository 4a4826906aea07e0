/-!
# Binary floating-point numbers

Numbers of 64 bits: a sign, a mantissa below `2 ^ 53` and a power of two, or infinity, or no number.
Every finite number has one form here: the mantissa is at least `2 ^ 52`, or the exponent is the least
there is. `ofDecimal` gives the number nearest to a decimal numeral, the even neighbour on a tie.
-/

namespace DependencyResolution

/-- A binary floating-point number of 64 bits. -/
inductive Double where
  /-- The number `mantissa * 2 ^ exponent`, with a sign. -/
  | finite (negative : Bool) (mantissa : Nat) (exponent : Int)
  | infinite (negative : Bool)
  | nan
  deriving DecidableEq

namespace Double

def leastExponent : Int := -1074

def greatestExponent : Int := 971

/-- The quotient nearest to `num / den`, the even one on a tie. -/
def roundDiv (num den : Nat) : Nat :=
  let q := num / den
  let rest := num % den
  if 2 * rest < den then q
  else if den < 2 * rest then q + 1
  else if q % 2 = 0 then q
  else q + 1

/-- The fraction `num / den` divided by a power of two. -/
def scaled (num den : Nat) (exponent : Int) : Nat × Nat :=
  if 0 ≤ exponent then (num, den * Nat.pow 2 exponent.toNat)
  else (num * Nat.pow 2 (-exponent).toNat, den)

/-- The number nearest to a fraction, given an exponent at which the mantissa is below `2 ^ 53`. -/
def ofScaled (negative : Bool) (num den : Nat) (exponent : Int) : Double :=
  let (n, d) := scaled num den exponent
  let mantissa := roundDiv n d
  let (mantissa, exponent) :=
    if mantissa = Nat.pow 2 53 then (Nat.pow 2 52, exponent + 1) else (mantissa, exponent)
  if greatestExponent < exponent then infinite negative else finite negative mantissa exponent

/-- The number nearest to `num / den`, which is positive. -/
def ofFraction (negative : Bool) (num den : Nat) : Double :=
  let exponent := max ((num.log2 : Int) - (den.log2 : Int) - 53) leastExponent
  let (n, d) := scaled num den exponent
  ofScaled negative num den (if n / d < Nat.pow 2 53 then exponent else exponent + 1)

/-- The number nearest to `digits * 10 ^ exponent`. Numerals beyond every finite number, or below half
of the least one, are settled by their magnitude. -/
def ofDecimal (negative : Bool) (digits : Nat) (exponent : Int) : Double :=
  let magnitude := (digits.log2 : Int) * 3 / 10 + exponent
  if digits = 0 then finite negative 0 leastExponent
  else if 400 < magnitude then infinite negative
  else if magnitude < -400 then finite negative 0 leastExponent
  else if 0 ≤ exponent then ofFraction negative (digits * Nat.pow 10 exponent.toNat) 1
  else ofFraction negative digits (Nat.pow 10 (-exponent).toNat)

/-- The number nearest to `mantissa * 2 ^ exponent`. -/
def ofBinary (negative : Bool) (mantissa : Nat) (exponent : Int) : Double :=
  if mantissa = 0 then finite negative 0 leastExponent
  else if 0 ≤ exponent then ofFraction negative (mantissa * Nat.pow 2 exponent.toNat) 1
  else ofFraction negative mantissa (Nat.pow 2 (-exponent).toNat)

/-- The number nearest to the sum of the magnitudes of two numbers. -/
def addMagnitudes : Double → Double → Double
  | finite _ m e, finite _ n f =>
    let least := min e f
    ofBinary false (m * Nat.pow 2 (e - least).toNat + n * Nat.pow 2 (f - least).toNat) least
  | nan, _ => nan
  | _, nan => nan
  | _, _ => infinite false

/-- The number nearest to the product of the magnitudes of two numbers. -/
def mulMagnitudes : Double → Double → Double
  | finite _ m e, finite _ n f => ofBinary false (m * n) (e + f)
  | nan, _ => nan
  | _, nan => nan
  | finite _ 0 _, infinite _ => nan
  | infinite _, finite _ 0 _ => nan
  | _, _ => infinite false

/-- The number with the magnitude of a number and the given sign. -/
def withSign (negative : Bool) : Double → Double
  | finite _ mantissa exponent => finite negative mantissa exponent
  | infinite _ => infinite negative
  | nan => nan

/-- The whole number that a number is, if it is one. -/
def toInt? : Double → Option Int
  | finite negative mantissa exponent =>
    let (n, d) := scaled mantissa 1 (-exponent)
    if n % d = 0 then some (if negative then -((n / d : Nat) : Int) else (n / d : Nat)) else none
  | infinite _ => none
  | nan => none

/-- Whether two numbers are the same key: the two zeros are, and so is what is no number with
itself. -/
def sameKey : Double → Double → Bool
  | finite _ 0 _, finite _ 0 _ => true
  | x, y => decide (x = y)

end Double

end DependencyResolution
