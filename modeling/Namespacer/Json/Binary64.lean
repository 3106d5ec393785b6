import Namespacer.Text.Basic

/-!
# Binary floating-point numbers

Numbers with 53 binary digits, kept as `mantissa · 2 ^ exponent`. All work is
done in exact arithmetic on natural numbers.

* `ofDecimal` rounds a decimal to the nearest number, a tie going to the even
  mantissa.
* `shortest` gives the fewest decimal digits that round back to a number, and
  among those the digits nearest to it.
-/

namespace Namespacer

/-- A binary floating-point number of 64 bits. -/
inductive Binary64 where
  | nan
  | infinite (negative : Bool)
  /-- The number `± mantissa · 2 ^ exponent`, with a mantissa of 53 bits unless
  the exponent is the least one. -/
  | finite (negative : Bool) (mantissa : Nat) (exponent : Int)
deriving DecidableEq, Repr

namespace Binary64

/-- The least exponent of a number. -/
def minExponent : Int := -1074

/-- The greatest exponent of a finite number. -/
def maxExponent : Int := 971

/-- `numerator / denominator` divided by a power of two or ten, as a fraction
again. -/
def divPower (base : Nat) (fraction : Nat × Nat) : Int → Nat × Nat
  | .ofNat n => (fraction.1, fraction.2 * base.pow n)
  | .negSucc n => (fraction.1 * base.pow (n + 1), fraction.2)

/-- The quotient rounded to the nearest natural number, a tie going to the
even one. -/
def roundDiv (fraction : Nat × Nat) : Nat :=
  let quotient := fraction.1 / fraction.2
  let rest := fraction.1 % fraction.2
  if 2 * rest < fraction.2 then quotient
  else if 2 * rest = fraction.2 then quotient + quotient % 2
  else quotient + 1

/-- The exponent of the number nearest to a positive fraction: the one that
leaves a quotient of 53 bits, or the least one. -/
def exponentOf (fraction : Nat × Nat) : Int :=
  let guess : Int := (Nat.log2 fraction.1 : Int) - (Nat.log2 fraction.2 : Int) - 52
  let (n, d) := divPower 2 fraction guess
  let exponent := if n / d < Nat.pow 2 52 then guess - 1 else guess
  max exponent minExponent

/-- The number nearest to a positive fraction. -/
def ofFraction (negative : Bool) (fraction : Nat × Nat) : Binary64 :=
  let exponent := exponentOf fraction
  let mantissa := roundDiv (divPower 2 fraction exponent)
  let (mantissa, exponent) :=
    if mantissa = Nat.pow 2 53 then (Nat.pow 2 52, exponent + 1) else (mantissa, exponent)
  if exponent > maxExponent then infinite negative else finite negative mantissa exponent

/-- The number of decimal digits of a natural number; none for zero. -/
def digitCount (n : Nat) : Nat := if n = 0 then 0 else (Text.ofNat n).length

/-- The number nearest to `± digits · 10 ^ exponent`. -/
def ofDecimal (negative : Bool) (digits : Nat) (exponent : Int) : Binary64 :=
  let magnitude := (digitCount digits : Int) + exponent
  if digits = 0 || magnitude < -330 then finite negative 0 minExponent
  else if magnitude > 310 then infinite negative
  else ofFraction negative (divPower 10 (digits, 1) (-exponent))

/-- Whether `a` is less than `b`, as fractions. -/
def fractionLt (a b : Nat × Nat) : Bool := a.1 * b.2 < b.1 * a.2

/-- The fractions that bound the decimals rounding to `mantissa · 2 ^ exponent`. -/
def bounds (mantissa : Nat) (exponent : Int) : (Nat × Nat) × (Nat × Nat) :=
  let below := if mantissa = Nat.pow 2 52 && exponent > minExponent then 1 else 2
  (divPower 2 (4 * mantissa - below, 4) (-exponent), divPower 2 (4 * mantissa + 2, 4) (-exponent))

/-- Whether a fraction rounds to `mantissa · 2 ^ exponent`. The bounds
themselves do if the mantissa is even. -/
def roundsTo (mantissa : Nat) (exponent : Int) (fraction : Nat × Nat) : Bool :=
  let (low, high) := bounds mantissa exponent
  if mantissa % 2 = 0 then !fractionLt fraction low && !fractionLt high fraction
  else fractionLt low fraction && fractionLt fraction high

/-- The power of ten just above a positive fraction, found by trying the
given number of candidates upward. -/
def magnitudeFrom (fraction : Nat × Nat) : Nat → Int → Int
  | 0, candidate => candidate
  | steps + 1, candidate =>
    let (n, d) := divPower 10 fraction candidate
    if n < d then candidate else magnitudeFrom fraction steps (candidate + 1)

/-- The decimal exponent `k` with `10 ^ (k - 1) ≤ fraction < 10 ^ k`. -/
def magnitude (fraction : Nat × Nat) : Int :=
  let bits : Int := (Nat.log2 fraction.1 : Int) - (Nat.log2 fraction.2 : Int)
  magnitudeFrom fraction 6 (bits * 30103 / 100000 - 2)

/-- The `count` digits nearest to a number that round to it, if there are any:
the two neighbours on the grid of that many digits are tried. -/
def digitsOf? (mantissa : Nat) (exponent scale : Int) (count : Nat) : Option Nat :=
  let value := divPower 2 (mantissa, 1) (-exponent)
  let unit := scale - count
  let (n, d) := divPower 10 value unit
  let low := n / d
  let fits := fun digits : Nat => roundsTo mantissa exponent (divPower 10 (digits, 1) (-unit))
  match fits low, fits (low + 1) with
  | true, true =>
    if 2 * (n % d) < d then some low
    else if 2 * (n % d) = d then some (low + low % 2)
    else some (low + 1)
  | true, false => some low
  | false, true => some (low + 1)
  | false, false => none

/-- The first digit count from `count` on whose grid holds a decimal that
rounds to the number. -/
def shortestFrom (mantissa : Nat) (exponent scale : Int) : Nat → Nat → Nat × Int
  | 0, count => ((digitsOf? mantissa exponent scale count).getD 0, scale - count)
  | steps + 1, count =>
    match digitsOf? mantissa exponent scale count with
    | some digits => (digits, scale - count)
    | none => shortestFrom mantissa exponent scale steps (count + 1)

/-- The shortest decimal `digits · 10 ^ power` that rounds to
`mantissa · 2 ^ exponent`, the nearest one where there are several. -/
def shortest (mantissa : Nat) (exponent : Int) : Nat × Int :=
  let scale := magnitude (divPower 2 (mantissa, 1) (-exponent))
  shortestFrom mantissa exponent scale 16 1

/-- How the values without digits are spelled. -/
structure Spelling where
  nan : Text
  infinite : Text

/-- An exponent with its sign and at least two digits. -/
def exponentText (exponent : Int) : Text :=
  let digits := Text.ofNat exponent.natAbs
  (if exponent < 0 then ['-'] else ['+']) ++ List.replicate (2 - digits.length) '0' ++ digits

/-- Digits with a decimal point after the first `point` of them. Outside of
`-4 < point ≤ 16` an exponent is written instead. -/
def pointed (digits : Text) (point : Int) : Text :=
  if point ≤ -4 || 16 < point then
    let fraction := digits.drop 1
    digits.take 1 ++ (if fraction.isEmpty then [] else '.' :: fraction) ++
      'e' :: exponentText (point - 1)
  else if point ≤ 0 then "0." ++ List.replicate point.natAbs '0' ++ digits
  else if digits.length ≤ point.toNat then
    digits ++ List.replicate (point.toNat - digits.length) '0' ++ ".0"
  else digits.take point.toNat ++ '.' :: digits.drop point.toNat

/-- The text of a number: the fewest digits that read back, positional where
the number has at most sixteen digits before the point and at most three
zeros behind it. -/
def toText (spelling : Spelling) : Binary64 → Text
  | nan => spelling.nan
  | infinite negative => (if negative then ['-'] else []) ++ spelling.infinite
  | finite negative mantissa exponent =>
    let body : Text :=
      if mantissa = 0 then "0.0"
      else
        let (digits, power) := shortest mantissa exponent
        let text := Text.ofNat digits
        pointed (Text.dropEndWhile (· == '0') text) (text.length + power)
    (if negative then ['-'] else []) ++ body

end Binary64

end Namespacer
