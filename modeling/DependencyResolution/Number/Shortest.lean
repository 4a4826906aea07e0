import DependencyResolution.Number.Double

/-!
# The shortest text of a floating-point number

The decimal numeral of fewest digits that reads back as the same number, and of those the one nearest
to it. The numbers that read back as `m * 2 ^ q` are those between the points half way to its two
neighbours, ends included when `m` is even. For one digit, two digits and so on the two neighbours on
that decimal grid are tried: a grid with a point in the interval has one of them in it.

Numerals are positional when the first digit stands for at least `10 ^ -4` and less than `10 ^ 16`.
-/

namespace DependencyResolution

/-- The interval of fractions that read back as one number: its lower end, the number and its upper
end over one denominator, and whether the ends belong to it. -/
structure ReadBack where
  low : Nat
  value : Nat
  high : Nat
  den : Nat
  closed : Bool

namespace ReadBack

/-- The interval of `mantissa * 2 ^ exponent`. Below a power of two the numbers lie twice as close. -/
def ofDouble (mantissa : Nat) (exponent : Int) : ReadBack :=
  let (scale, den) := Double.scaled 1 1 (2 - exponent)
  let gap := if mantissa = Nat.pow 2 52 ∧ Double.leastExponent < exponent then 1 else 2
  ⟨(4 * mantissa - gap) * scale, 4 * mantissa * scale, (4 * mantissa + 2) * scale, den,
    mantissa % 2 == 0⟩

def powerOfTen (e : Int) : Nat × Nat := (Nat.pow 10 e.toNat, Nat.pow 10 (-e).toNat)

def powerAtMost (r : ReadBack) (e : Int) : Bool :=
  let (up, down) := powerOfTen e
  up * r.den ≤ r.value * down

/-- The exponent of the first decimal digit of the number, which is positive. -/
def firstExponent (r : ReadBack) : Int :=
  let guess := ((r.value.log2 : Int) - (r.den.log2 : Int)) * 30103 / 100000
  if r.powerAtMost (guess + 1) then guess + 1
  else if r.powerAtMost guess then guess
  else guess - 1

/-- Whether `k * 10 ^ e` reads back as the number. -/
def holds (r : ReadBack) (k : Nat) (e : Int) : Bool :=
  let (up, down) := powerOfTen e
  let point := k * up * r.den
  if r.closed then r.low * down ≤ point && point ≤ r.high * down
  else r.low * down < point && point < r.high * down

/-- The multiple of `10 ^ e` that reads back as the number, the nearer one of two. -/
def onGrid? (r : ReadBack) (e : Int) : Option Nat :=
  let (up, down) := powerOfTen e
  let k := r.value * down / (up * r.den)
  match r.holds k e, r.holds (k + 1) e with
  | true, true =>
    let below := r.value * down - k * up * r.den
    let above := (k + 1) * up * r.den - r.value * down
    some (if below < above ∨ (below = above ∧ k % 2 = 0) then k else k + 1)
  | true, false => some k
  | false, true => some (k + 1)
  | false, false => none

/-- The digits, as a number, and the exponent of the last one, for the first grid with a point that
reads back; seventeen digits always do. -/
def shortestFrom (r : ReadBack) (first : Int) : (more digits : Nat) → Nat × Int
  | 0, digits => ((r.onGrid? (first - digits)).getD 0, first - digits)
  | more + 1, digits =>
    match r.onGrid? (first - digits) with
    | some k => (k, first - digits)
    | none => shortestFrom r first more (digits + 1)

def shortest (r : ReadBack) : Nat × Int := r.shortestFrom r.firstExponent 17 0

end ReadBack

namespace Double

/-- The digits without zeros at the end. -/
def significant (digits : List Char) : List Char :=
  match (digits.reverse.dropWhile (· = '0')).reverse with
  | [] => ['0']
  | ds => ds

/-- The numeral of digits the first of which stands for `10 ^ first`. -/
def numeral (digits : List Char) (first : Int) : List Char :=
  if -4 ≤ first ∧ first < 16 then
    if first < 0 then
      ['0', '.'] ++ List.replicate (-first - 1).toNat '0' ++ digits
    else
      let whole := first.toNat + 1
      let fraction := digits.drop whole
      digits.take whole ++ List.replicate (whole - digits.length) '0' ++ ['.'] ++
        (if fraction.isEmpty then ['0'] else fraction)
  else
    let exponent := (toString first.natAbs).toList
    digits.take 1 ++ (if digits.length = 1 then [] else '.' :: digits.drop 1) ++
      ['e', if first < 0 then '-' else '+'] ++
      List.replicate (2 - exponent.length) '0' ++ exponent

/-- The shortest text that reads back as the number. -/
def text : Double → String
  | nan => "nan"
  | infinite negative => if negative then "-inf" else "inf"
  | finite negative mantissa exponent =>
    let unsigned :=
      if mantissa = 0 then ['0', '.', '0']
      else
        let (k, last) := (ReadBack.ofDouble mantissa exponent).shortest
        let digits := (toString k).toList
        numeral (significant digits) (last + digits.length - 1)
    String.ofList (if negative then '-' :: unsigned else unsigned)

end Double

end DependencyResolution
