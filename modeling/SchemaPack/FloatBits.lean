/-!
Floating point numbers as the words that carry them. A value keeps its exact bits; comparison is
the IEEE one, so a NaN differs from itself and the two zeros are equal.
-/
namespace SchemaPack.FloatBits

def isNaN32 (bits : UInt32) : Bool := 0x7f800000 < bits &&& 0x7fffffff

def isNaN64 (bits : UInt64) : Bool := 0x7ff0000000000000 < bits &&& 0x7fffffffffffffff

def isZero32 (bits : UInt32) : Bool := bits &&& 0x7fffffff == 0

def isZero64 (bits : UInt64) : Bool := bits &&& 0x7fffffffffffffff == 0

def equal32 (a b : UInt32) : Bool :=
  !isNaN32 a && !isNaN32 b && (a == b || (isZero32 a && isZero32 b))

def equal64 (a b : UInt64) : Bool :=
  !isNaN64 a && !isNaN64 b && (a == b || (isZero64 a && isZero64 b))

/-- The double of the same number. A NaN keeps its payload and becomes quiet. -/
def widen (bits : UInt32) : UInt64 :=
  let sign := (bits >>> 31).toUInt64 <<< 63
  let exponent := ((bits >>> 23) &&& 0xff).toUInt64
  let fraction := (bits &&& 0x7fffff).toUInt64
  let magnitude : UInt64 :=
    if exponent == 255 then
      let quiet : UInt64 := if fraction == 0 then 0 else 0x8000000000000
      (0x7ff0000000000000 : UInt64) ||| quiet ||| (fraction <<< 29)
    else if exponent == 0 then
      if fraction == 0 then 0
      else
        let top := UInt64.ofNat fraction.toNat.log2
        ((top + 874) <<< 52) ||| ((fraction <<< (52 - top)) &&& 0xfffffffffffff)
    else
      ((exponent + 896) <<< 52) ||| (fraction <<< 29)
  sign ||| magnitude

end SchemaPack.FloatBits
