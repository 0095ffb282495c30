/-!
# Numbers of 53 binary digits

Magnitudes of double precision, in exact arithmetic on natural numbers: a mantissa below `2 ^ 53`
times a power of two that is no smaller than `2 ^ -1074`.

* `Double.ofRatio?`    the nearest magnitude to a quotient, a tie going to the even mantissa;
* `Double.mul?`, `div?` the nearest magnitude to a product or quotient;
* `Double.shortest`    the fewest decimal digits that are nearest to the magnitude;
* `Double.render`      those digits, positional from `1e-5` up to below `1e16`.

A result that is too large is no magnitude, and `none` stands for it.
-/

namespace Collate

def twoTo (n : Nat) : Nat :=
  Nat.pow 2 n

def tenTo (n : Nat) : Nat :=
  Nat.pow 10 n

/-- the magnitude `mantissa * 2 ^ exponent` -/
structure Double where
  mantissa : Nat
  exponent : Int
  deriving DecidableEq, Repr

namespace Double

def leastExponent : Int := -1074

def greatestExponent : Int := 971

def zero : Double := ⟨0, leastExponent⟩

def isZero (x : Double) : Bool :=
  x.mantissa == 0

/-- the numerator of the magnitude over `denominator` -/
def numerator (x : Double) : Nat :=
  x.mantissa * twoTo x.exponent.toNat

def denominator (x : Double) : Nat :=
  twoTo (-x.exponent).toNat

/-- the nearest integer to a quotient, a tie going to the even one -/
def roundRatio (num den : Nat) : Nat :=
  let whole := num / den
  let part := 2 * (num % den)
  if den < part ∨ (part = den ∧ whole % 2 = 1) then whole + 1 else whole

/-- the exponent at which a quotient has 53 binary digits before the point, if that is allowed -/
def exponentFor (num den : Nat) : Int :=
  let guess : Int := (num.log2 : Int) - den.log2
  let reached :=
    if 0 ≤ guess then den * twoTo guess.toNat ≤ num else den ≤ num * twoTo (-guess).toNat
  let top := if reached then guess else guess - 1
  max (top - 52) leastExponent

/-- the nearest magnitude to a quotient -/
def ofRatio? (num den : Nat) : Option Double :=
  if num = 0 then
    some zero
  else
    let exponent := exponentFor num den
    let mantissa := roundRatio (num * twoTo (-exponent).toNat) (den * twoTo exponent.toNat)
    -- rounding up can give one binary digit too many
    let rounded : Double :=
      if mantissa = twoTo 53 then ⟨twoTo 52, exponent + 1⟩ else ⟨mantissa, exponent⟩
    if greatestExponent < rounded.exponent then none else some rounded

def mul? (x y : Double) : Option Double :=
  ofRatio? (x.numerator * y.numerator) (x.denominator * y.denominator)

def div? (x y : Double) : Option Double :=
  ofRatio? (x.numerator * y.denominator) (x.denominator * y.numerator)

/-! ## decimal digits -/

/-- a power of ten that is no larger than ten times a quotient, and no smaller than a tenth of it -/
def decimalExponent (num den : Nat) : Int :=
  if den ≤ num then
    ((Nat.toDigits 10 (num / den)).length : Int) - 1
  else
    1 - ((Nat.toDigits 10 (den / num)).length : Int)

/-- Four times the magnitude and the ends of the interval of quotients that round to it, over a
common denominator, and whether the ends belong to the interval. -/
structure Interval where
  lower : Nat
  middle : Nat
  upper : Nat
  denominator : Nat
  closed : Bool

/-- the quotients that round to a magnitude -/
def interval (x : Double) : Interval :=
  let scale := twoTo x.exponent.toNat
  -- the next magnitude below a power of two is half as far away as the one above it
  let narrow := x.mantissa = twoTo 52 ∧ leastExponent < x.exponent
  { lower := (4 * x.mantissa - if narrow then 1 else 2) * scale
    middle := 4 * x.mantissa * scale
    upper := (4 * x.mantissa + 2) * scale
    denominator := 4 * x.denominator
    closed := x.mantissa % 2 = 0 }

/-- the decimal `digits * 10 ^ exponent` lies in the interval -/
def Interval.holds (i : Interval) (digits : Nat) (exponent : Int) : Bool :=
  let value := digits * tenTo exponent.toNat * i.denominator
  let unit := tenTo (-exponent).toNat
  if i.closed then decide (i.lower * unit ≤ value) && decide (value ≤ i.upper * unit)
  else decide (i.lower * unit < value) && decide (value < i.upper * unit)

/-- the better one of the two decimals of a grid that enclose the magnitude, if one of them lies in
the interval -/
def Interval.onGrid? (i : Interval) (exponent : Int) : Option Nat :=
  let num := i.middle * tenTo (-exponent).toNat
  let den := i.denominator * tenTo exponent.toNat
  let below := num / den
  match i.holds below exponent, i.holds (below + 1) exponent with
  | true, false => some below
  | false, true => some (below + 1)
  | true, true => some (roundRatio num den)
  | false, false => none

/-- the first grid, from coarse to fine, with a decimal in the interval -/
def Interval.search (i : Interval) : Nat → Int → Nat × Int
  | 0, exponent =>
    (i.middle * tenTo (-exponent).toNat / (i.denominator * tenTo exponent.toNat), exponent)
  | fuel + 1, exponent =>
    match i.onGrid? exponent with
    | some digits => (digits, exponent)
    | none => i.search fuel (exponent - 1)

/-- the digits without the zeros at their end, in at most so many steps -/
def dropZeros : Nat → Nat × Int → Nat × Int
  | 0, decimal => decimal
  | fuel + 1, (digits, exponent) =>
    if digits ≠ 0 ∧ digits % 10 = 0 then dropZeros fuel (digits / 10, exponent + 1)
    else (digits, exponent)

/-- The fewest digits that read back as the magnitude, and among them the nearest, with the power
of ten they are multiplied with.  Seventeen digits are always enough. -/
def shortest (x : Double) : Nat × Int :=
  let i := x.interval
  dropZeros 20 (i.search 18 (decimalExponent i.middle i.denominator))

/-- a power of ten behind its mark, always with a sign -/
def exponentText (exponent : Int) : String :=
  (if exponent < 0 then "e" else "e+") ++ toString exponent

def render (x : Double) : String :=
  if x.isZero then
    "0.0"
  else
    let (value, exponent) := x.shortest
    let digits := Nat.toDigits 10 value
    let point : Int := digits.length + exponent
    if 0 ≤ exponent ∧ point ≤ 16 then
      String.ofList (digits ++ List.replicate exponent.toNat '0') ++ ".0"
    else if 0 < point ∧ point ≤ 16 then
      String.ofList (digits.take point.toNat) ++ "." ++ String.ofList (digits.drop point.toNat)
    else if -5 < point ∧ point ≤ 0 then
      "0." ++ String.ofList (List.replicate (-point).toNat '0' ++ digits)
    else
      let tail := digits.drop 1
      String.ofList (digits.take 1) ++ (if tail.isEmpty then "" else "." ++ String.ofList tail)
        ++ exponentText (point - 1)

end Double

end Collate
