/-!
Encodings of scalars and headers, each the shortest its family has. Numbers stand with their most
significant byte first. A length that does not fit 32 bits has no encoding.

The families are those of MessagePack. That the shortest form is chosen is relied on: codecs leave
the choice to the library (rmp) by which they append. The limit of 32 bits is their own.
-/
namespace SchemaPack

def utf8 (s : String) : List UInt8 := s.toUTF8.data.toList

end SchemaPack

namespace SchemaPack.Wire

-- the powers of the core library, also where Mathlib has its own
attribute [local instance (high)] instPowNat

structure LengthOverflow where
  length : Nat
  deriving DecidableEq, Repr

def LengthOverflow.message (e : LengthOverflow) : String :=
  s!"collection of {e.length} items exceeds the MsgPack length limit"

/-- One more than the greatest length. -/
def lengthBound : Nat := 0x100000000

def bigEndian : (width : Nat) → Nat → List UInt8
  | 0, _ => []
  | width + 1, n => UInt8.ofNat (n / 256 ^ width) :: bigEndian width n

def bigEndianValue (bytes : List UInt8) : Nat :=
  bytes.foldl (fun n b => n * 256 + b.toNat) 0

theorem length_bigEndian (width n : Nat) : (bigEndian width n).length = width := by
  induction width with
  | zero => rfl
  | succ width ih => simp [bigEndian, ih]

def signedValue (width : Nat) (word : Nat) : Int :=
  if word < 2 ^ (8 * width - 1) then word else (word : Int) - 2 ^ (8 * width)

def signedWord (width : Nat) (n : Int) : Nat := (n % 2 ^ (8 * width)).toNat

namespace Encoding

def nil : List UInt8 := [0xc0]

def bool (b : Bool) : List UInt8 := [if b then 0xc3 else 0xc2]

def uint (n : Nat) : List UInt8 :=
  if n < 0x80 then [UInt8.ofNat n]
  else if n < 0x100 then 0xcc :: bigEndian 1 n
  else if n < 0x10000 then 0xcd :: bigEndian 2 n
  else if n < 0x100000000 then 0xce :: bigEndian 4 n
  else 0xcf :: bigEndian 8 n

def int (n : Int) : List UInt8 :=
  if 0 ≤ n then uint n.toNat
  else if -0x20 ≤ n then bigEndian 1 (signedWord 1 n)
  else if -0x80 ≤ n then 0xd0 :: bigEndian 1 (signedWord 1 n)
  else if -0x8000 ≤ n then 0xd1 :: bigEndian 2 (signedWord 2 n)
  else if -0x80000000 ≤ n then 0xd2 :: bigEndian 4 (signedWord 4 n)
  else 0xd3 :: bigEndian 8 (signedWord 8 n)

def f32 (bits : UInt32) : List UInt8 := 0xca :: bigEndian 4 bits.toNat

def f64 (bits : UInt64) : List UInt8 := 0xcb :: bigEndian 8 bits.toNat

def strHeader (n : Nat) : List UInt8 :=
  if n < 0x20 then [UInt8.ofNat (0xa0 + n)]
  else if n < 0x100 then 0xd9 :: bigEndian 1 n
  else if n < 0x10000 then 0xda :: bigEndian 2 n
  else 0xdb :: bigEndian 4 n

def binHeader (n : Nat) : List UInt8 :=
  if n < 0x100 then 0xc4 :: bigEndian 1 n
  else if n < 0x10000 then 0xc5 :: bigEndian 2 n
  else 0xc6 :: bigEndian 4 n

def arrayHeader (n : Nat) : List UInt8 :=
  if n < 0x10 then [UInt8.ofNat (0x90 + n)]
  else if n < 0x10000 then 0xdc :: bigEndian 2 n
  else 0xdd :: bigEndian 4 n

def mapHeader (n : Nat) : List UInt8 :=
  if n < 0x10 then [UInt8.ofNat (0x80 + n)]
  else if n < 0x10000 then 0xde :: bigEndian 2 n
  else 0xdf :: bigEndian 4 n

/-- Something of a length, if the length can be written. -/
def sized (length : Nat) (bytes : List UInt8) : Except LengthOverflow (List UInt8) :=
  if length < lengthBound then .ok bytes else .error ⟨length⟩

def array (n : Nat) : Except LengthOverflow (List UInt8) := sized n (arrayHeader n)

def map (n : Nat) : Except LengthOverflow (List UInt8) := sized n (mapHeader n)

def binary (data : List UInt8) : Except LengthOverflow (List UInt8) :=
  sized data.length (binHeader data.length ++ data)

def string (s : String) : Except LengthOverflow (List UInt8) :=
  sized s.utf8ByteSize (strHeader s.utf8ByteSize ++ utf8 s)

end Encoding

end SchemaPack.Wire
