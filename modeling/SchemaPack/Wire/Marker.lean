/-!
The first byte of an encoded value. A marker tells the family of the value and where its length or
its payload size stands; every byte is one marker. The coarse class of a marker is what error
messages name. The markers are those of MessagePack, by its specification.
-/
namespace SchemaPack.Wire

/-- A length that the marker holds itself, or that follows it in so many bytes. -/
inductive Length
  | inline (n : Nat)
  | following (width : Nat)
  deriving DecidableEq, Repr

inductive Marker
  | fixint (n : Int)
  | uint (width : Nat)
  | sint (width : Nat)
  | nil
  | bool (b : Bool)
  | f32
  | f64
  | str (length : Length)
  | bin (length : Length)
  | array (length : Length)
  | map (length : Length)
  | ext (length : Length)
  | reserved
  deriving DecidableEq, Repr

inductive Format
  | nil
  | boolean
  | integer
  | float
  | string
  | binary
  | array
  | map
  | extension
  | reserved
  | endOfInput
  deriving DecidableEq, Repr

namespace Format

def name : Format → String
  | nil => "Nil"
  | boolean => "Boolean"
  | integer => "Integer"
  | float => "Float"
  | string => "String"
  | binary => "Binary"
  | array => "Array"
  | map => "Map"
  | extension => "Extension"
  | reserved => "Reserved"
  | endOfInput => "end of input"

instance : ToString Format := ⟨name⟩

end Format

namespace Marker

def ofCode : Nat → Marker
  | 0xc0 => nil
  | 0xc2 => bool false
  | 0xc3 => bool true
  | 0xc4 => bin (.following 1)
  | 0xc5 => bin (.following 2)
  | 0xc6 => bin (.following 4)
  | 0xc7 => ext (.following 1)
  | 0xc8 => ext (.following 2)
  | 0xc9 => ext (.following 4)
  | 0xca => f32
  | 0xcb => f64
  | 0xcc => uint 1
  | 0xcd => uint 2
  | 0xce => uint 4
  | 0xcf => uint 8
  | 0xd0 => sint 1
  | 0xd1 => sint 2
  | 0xd2 => sint 4
  | 0xd3 => sint 8
  | 0xd4 => ext (.inline 1)
  | 0xd5 => ext (.inline 2)
  | 0xd6 => ext (.inline 4)
  | 0xd7 => ext (.inline 8)
  | 0xd8 => ext (.inline 16)
  | 0xd9 => str (.following 1)
  | 0xda => str (.following 2)
  | 0xdb => str (.following 4)
  | 0xdc => array (.following 2)
  | 0xdd => array (.following 4)
  | 0xde => map (.following 2)
  | 0xdf => map (.following 4)
  | _ => reserved

def ofByte (byte : UInt8) : Marker :=
  let n := byte.toNat
  if n < 0x80 then fixint n
  else if n < 0x90 then map (.inline (n - 0x80))
  else if n < 0xa0 then array (.inline (n - 0x90))
  else if n < 0xc0 then str (.inline (n - 0xa0))
  else if n < 0xe0 then ofCode n
  else fixint (n - 0x100)

def format : Marker → Format
  | fixint _ | uint _ | sint _ => .integer
  | nil => .nil
  | bool _ => .boolean
  | f32 | f64 => .float
  | str _ => .string
  | bin _ => .binary
  | array _ => .array
  | map _ => .map
  | ext _ => .extension
  | reserved => .reserved

end Marker

end SchemaPack.Wire
