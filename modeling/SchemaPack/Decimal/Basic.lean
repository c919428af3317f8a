/-!
Decimal numbers: an integer mantissa of at most 96 bits over a power of ten of at most 28. The
scale belongs to the value, so `1.5` and `1.50` are two decimals that are numerically equal. The
bounds and the text of a decimal are those of the library (rust_decimal) that decimals come from.
-/
namespace SchemaPack

-- the powers of the core library, also where Mathlib has its own
attribute [local instance (high)] instPowNat

/-- The number `mantissa / 10 ^ scale`. -/
structure Decimal where
  mantissa : Int
  scale : Nat
  mantissa_lt : mantissa.natAbs < 0x1000000000000000000000000 := by decide
  scale_le : scale ≤ 28 := by decide
  deriving DecidableEq, Repr

namespace Decimal

def mantissaBound : Nat := 0x1000000000000000000000000

def maxScale : Nat := 28

def ofParts? (mantissa : Int) (scale : Nat) : Option Decimal :=
  if h : mantissa.natAbs < 0x1000000000000000000000000 ∧ scale ≤ 28 then
    some ⟨mantissa, scale, h.1, h.2⟩
  else
    none

def sameNumber (a b : Decimal) : Bool :=
  a.mantissa * 10 ^ b.scale == b.mantissa * 10 ^ a.scale

/-- Digits of a magnitude, with zeros in front up to the given count. -/
def paddedDigits (count n : Nat) : List Char :=
  let digits := Nat.toDigits 10 n
  List.replicate (count - digits.length) '0' ++ digits

theorem le_length_paddedDigits (count n : Nat) : count ≤ (paddedDigits count n).length := by
  simp [paddedDigits]
  omega

/-- Plain digits with exactly `scale` decimals and at least one digit before the point. -/
def chars (d : Decimal) : List Char :=
  let digits := paddedDigits (d.scale + 1) d.mantissa.natAbs
  let whole := digits.take (digits.length - d.scale)
  let decimals := digits.drop (digits.length - d.scale)
  let sign := if d.mantissa < 0 then ['-'] else []
  sign ++ whole ++ if d.scale = 0 then [] else '.' :: decimals

def text (d : Decimal) : String := String.ofList d.chars

instance : ToString Decimal := ⟨text⟩

end Decimal

end SchemaPack
