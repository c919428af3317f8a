/-!
Numbers of 64-bit floating point, as read from decimal text. A decimal goes to the nearest number,
and to the one with an even significand where two are equally near. Settings rely on this rounding,
which is that of IEEE 754, and on which texts are taken for numbers.
-/
namespace SchemaPack

-- the powers of the core library, also where Mathlib has its own
attribute [local instance (high)] instPowNat

/-- A finite number is its significand times two to its exponent. -/
inductive Double
  | nan
  | infinity (negative : Bool)
  | finite (negative : Bool) (significand : Nat) (exponent : Int)
  deriving DecidableEq, Repr

namespace Double

def minExponent : Int := -1074

def significandBits : Nat := 53

/-- The exponent from which on a power of two is too great. -/
def overflowExponent : Nat := 1024

/-- Quotient and remainder of a fraction over a power of two, and the divisor that was used. -/
def divideByPower (n d : Nat) (exponent : Int) : Nat × Nat × Nat :=
  let n := n * 2 ^ (-exponent).toNat
  let d := d * 2 ^ exponent.toNat
  (n / d, n % d, d)

def ofFraction (negative : Bool) (n d : Nat) : Double :=
  let guess := max minExponent ((n.log2 : Int) - d.log2 - significandBits)
  let exponent := if (divideByPower n d guess).1 < 2 ^ significandBits then guess else guess + 1
  let (quotient, remainder, divisor) := divideByPower n d exponent
  let up := divisor < 2 * remainder || (2 * remainder == divisor && quotient % 2 == 1)
  let significand := if up then quotient + 1 else quotient
  if 2 ^ overflowExponent ≤ significand * 2 ^ exponent.toNat then infinity negative
  else finite negative significand exponent

def ofDecimal (negative : Bool) (mantissa : Nat) (exponent : Int) : Double :=
  let magnitude := ((Nat.toDigits 10 mantissa).length : Int) + exponent
  if mantissa = 0 ∨ magnitude < -330 then finite negative 0 0
  else if 310 < magnitude then infinity negative
  else ofFraction negative (mantissa * 10 ^ exponent.toNat) (10 ^ (-exponent).toNat)

/-- Rounds to a whole number, a half away from zero, and keeps within `0` and the bound; what is no
number counts as zero. -/
def toNatBelow (bound : Nat) : Double → Nat
  | nan => 0
  | infinity negative => if negative then 0 else bound - 1
  | finite negative significand exponent =>
    if negative then 0
    else
      let half := 2 ^ (-exponent).toNat
      min (bound - 1) ((2 * significand * 2 ^ exponent.toNat + half) / (2 * half))

def splitPoint (text : List Char) : Option (Nat × Nat) :=
  let whole := text.takeWhile Char.isDigit
  match text.dropWhile Char.isDigit with
  | [] => if whole.isEmpty then none else some (Nat.ofDigitChars 10 whole 0, 0)
  | '.' :: decimals =>
    if decimals.all Char.isDigit && !(whole.isEmpty && decimals.isEmpty) then
      some (Nat.ofDigitChars 10 (whole ++ decimals) 0, decimals.length)
    else
      none
  | _ => none

def signed? (text : List Char) : Option Int :=
  let (negative, digits) := match text with
    | '-' :: rest => (true, rest)
    | '+' :: rest => (false, rest)
    | _ => (false, text)
  if digits.isEmpty || !digits.all Char.isDigit then none
  else
    let n : Int := Nat.ofDigitChars 10 digits 0
    some (if negative then -n else n)

/-- Reads a number: an optional sign, digits with an optional point and an optional exponent, or the
name of an infinity or of what is no number, in any case of letters. -/
def parse? (text : List Char) : Option Double :=
  let (negative, body) := match text with
    | '-' :: rest => (true, rest)
    | '+' :: rest => (false, rest)
    | _ => (false, text)
  let lowered := body.map Char.toLower
  if lowered = "inf".toList ∨ lowered = "infinity".toList then some (infinity negative)
  else if lowered = "nan".toList then some nan
  else
    let base := lowered.takeWhile (· ≠ 'e')
    match splitPoint base, lowered.dropWhile (· ≠ 'e') with
    | some (mantissa, decimals), [] => some (ofDecimal negative mantissa (-decimals))
    | some (mantissa, decimals), _ :: exponent =>
      (signed? exponent).map fun e => ofDecimal negative mantissa (e - decimals)
    | none, _ => none

end Double

end SchemaPack
