/-!
# JSON — doubles

Numbers with a fraction or an exponent are binary floating-point numbers of 64 bits, kept here as
sign, mantissa and exponent, and computed with in exact arithmetic and rounded to nearest, a tie to
the even mantissa.

* `Double.ofDecimal`: the double that a decimal significand and exponent give.
* `Double.print`: the fewest decimal digits that read back.
-/

namespace SyntaxLint.Json

/-- The size of a double, `mantissa · 2 ^ exponent`. -/
structure Magnitude where
  mantissa : Nat
  exponent : Int
  deriving DecidableEq, Repr, Inhabited

/-- A finite double. -/
structure Double where
  negative : Bool
  magnitude : Magnitude
  deriving DecidableEq, Repr, Inhabited

namespace Magnitude

/-- The least exponent of a double. -/
def minExponent : Int := -1074

/-- The greatest exponent of a double. -/
def maxExponent : Int := 971

def zero : Magnitude := ⟨0, minExponent⟩

/-- `2 ^ e` as a fraction. -/
def power (e : Int) : Nat × Nat := (Nat.pow 2 e.toNat, Nat.pow 2 (-e).toNat)

/-- The size as a fraction. -/
def ratio (x : Magnitude) : Nat × Nat :=
  (x.mantissa * (power x.exponent).1, (power x.exponent).2)

/-- The quotient of two numbers rounded to nearest, a tie to the even neighbour. -/
def divideToEven (num den : Nat) : Nat :=
  let q := num / den
  let twice := 2 * (num % den)
  if twice < den then q else if den < twice then q + 1 else q + q % 2

/-- The mantissa of 53 bits, or fewer at the least exponent, nearest to a fraction. -/
def nearest (num den : Nat) : Magnitude :=
  if num = 0 then zero
  else
    let guess : Int := (num.log2 : Int) - den.log2 - 52
    let scaled (e : Int) : Nat × Nat := (num * (power e).2, den * (power e).1)
    let exact := if (scaled guess).1 < Nat.pow 2 52 * (scaled guess).2 then guess - 1 else guess
    let e := max exact minExponent
    let m := divideToEven (scaled e).1 (scaled e).2
    if m = Nat.pow 2 53 then ⟨Nat.pow 2 52, e + 1⟩ else ⟨m, e⟩

/-- Whether the size is that of a double. -/
def isFinite (x : Magnitude) : Bool := x.exponent ≤ maxExponent

/-- The product, rounded. -/
def times (x y : Magnitude) : Magnitude :=
  nearest (x.ratio.1 * y.ratio.1) (x.ratio.2 * y.ratio.2)

/-- The quotient, rounded. -/
def divided (x y : Magnitude) : Magnitude :=
  nearest (x.ratio.1 * y.ratio.2) (x.ratio.2 * y.ratio.1)

/-- The power of ten, rounded. -/
def ten (n : Nat) : Magnitude := nearest (Nat.pow 10 n) 1

/-- The size of `significand · 10 ^ exponent`, where the significand, the power of ten and the
result are each rounded; none if it is too large. -/
def ofDecimal (significand : Nat) (exponent : Int) : Option Magnitude :=
  let f := nearest significand 1
  if significand = 0 then some zero
  else if 0 ≤ exponent then
    if exponent ≤ 308 then some (f.times (ten exponent.toNat)) |>.filter isFinite else none
  else if -308 ≤ exponent then some (f.divided (ten (-exponent).toNat))
  else if -616 ≤ exponent then some ((f.divided (ten 308)).divided (ten (-exponent - 308).toNat))
  else some zero

/-- Whether the size is a whole number. -/
def isWhole (x : Magnitude) : Bool := x.ratio.1 % x.ratio.2 == 0

/-- The number of decimal places before the first digit of a fraction, at most `fuel`. -/
def leadingZeros (num den : Nat) : Nat → Nat
  | 0 => 0
  | fuel + 1 => if den ≤ num then 0 else leadingZeros (num * 10) den fuel + 1

/-- The exponent of the first decimal digit of a positive fraction. -/
def firstDigit (num den : Nat) : Int :=
  if den ≤ num then ((Nat.toDigits 10 (num / den)).length : Int) - 1
  else -(leadingZeros num den 400 : Int)

/-- `digits · 10 ^ k` is within the half-steps around a size of `mantissa · 2 ^ exponent`. -/
def readsBack (x : Magnitude) (digits : Nat) (k : Int) : Bool :=
  let unit := power (x.exponent - 2)
  let below := if x.mantissa = Nat.pow 2 52 && x.exponent != minExponent then 1 else 2
  let value := digits * Nat.pow 10 k.toNat * unit.2
  let scale := unit.1 * Nat.pow 10 (-k).toNat
  let low := (4 * x.mantissa - below) * scale
  let high := (4 * x.mantissa + 2) * scale
  if x.mantissa % 2 = 0 then low ≤ value && value ≤ high else low < value && value < high

/-- The decimal of `n` digits nearest to a size, if it reads back. -/
def decimal? (x : Magnitude) (n : Nat) : Option (Nat × Int) :=
  let r := x.ratio
  let k := firstDigit r.1 r.2 - n + 1
  let num := r.1 * Nat.pow 10 (-k).toNat
  let den := r.2 * Nat.pow 10 k.toNat
  let d := divideToEven num den
  let floor := num / den
  let other := if d = floor then floor + 1 else floor
  if x.readsBack d k then some (d, k) else if x.readsBack other k then some (other, k) else none

/-- The decimal of the fewest digits, `n` at least, that reads back. -/
def shortest (x : Magnitude) (n : Nat) : Nat → Nat × Int
  | 0 => (x.mantissa, 0)
  | fuel + 1 =>
    match x.decimal? n with
    | some d => d
    | none => x.shortest (n + 1) fuel

/-- An exponent with its sign. -/
def exponentText (e : Int) : List Char :=
  (if e < 0 then '-' else '+') :: Nat.toDigits 10 e.natAbs

/-- Digits with a point, or with an exponent where the point is far from them: positional from
`1e-5` up to `1e16`, with at least one place after the point. -/
def layout (digits : List Char) (k : Int) : List Char :=
  let point := digits.length + k
  if 0 ≤ k && point ≤ 16 then digits ++ List.replicate k.toNat '0' ++ ['.', '0']
  else if 0 < point && point ≤ 16 then
    digits.take point.toNat ++ '.' :: digits.drop point.toNat
  else if -5 < point && point ≤ 0 then
    ['0', '.'] ++ List.replicate (-point).toNat '0' ++ digits
  else
    digits.take 1 ++ (if digits.length = 1 then [] else '.' :: digits.drop 1) ++
      'e' :: exponentText (point - 1)

/-- The decimal with trailing zeros moved into the exponent. -/
def trim (digits : Nat) (k : Int) : Nat → Nat × Int
  | 0 => (digits, k)
  | fuel + 1 => if digits % 10 = 0 then trim (digits / 10) (k + 1) fuel else (digits, k)

/-- The fewest digits that read back. -/
def print (x : Magnitude) : List Char :=
  if x.mantissa = 0 then ['0', '.', '0']
  else
    let d := x.shortest 1 17
    let d := trim d.1 d.2 20
    layout (Nat.toDigits 10 d.1) d.2

end Magnitude

namespace Double

/-- The double of a decimal, unless it is too large. -/
def ofDecimal (negative : Bool) (significand : Nat) (exponent : Int) : Option Double :=
  (Magnitude.ofDecimal significand exponent).map (⟨negative, ·⟩)

/-- Whether a double is a whole number. -/
def isWhole (x : Double) : Bool := x.magnitude.isWhole

/-- The text of a double. -/
def print (x : Double) : List Char :=
  if x.negative then '-' :: x.magnitude.print else x.magnitude.print

end Double

end SyntaxLint.Json
