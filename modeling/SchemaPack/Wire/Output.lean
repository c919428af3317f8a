import SchemaPack.Wire.Encoding

/-!
An output buffer that encodings are appended to. What has no encoding is refused, and the buffer
then stays as it was.
-/
namespace SchemaPack.Wire

structure Output where
  buffer : Array UInt8 := #[]

namespace Output

def empty : Output := {}

def bytes (out : Output) : List UInt8 := out.buffer.toList

def size (out : Output) : Nat := out.buffer.size

def append (out : Output) (bytes : List UInt8) : Output := ⟨out.buffer ++ bytes⟩

@[simp]
theorem bytes_empty : empty.bytes = [] := rfl

@[simp]
theorem bytes_append (out : Output) (bytes : List UInt8) :
    (out.append bytes).bytes = out.bytes ++ bytes := by
  simp [append, Output.bytes]

def nil (out : Output) : Output := out.append Encoding.nil

def bool (out : Output) (b : Bool) : Output := out.append (Encoding.bool b)

def int (out : Output) (n : Int) : Output := out.append (Encoding.int n)

def f32 (out : Output) (bits : UInt32) : Output := out.append (Encoding.f32 bits)

def f64 (out : Output) (bits : UInt64) : Output := out.append (Encoding.f64 bits)

def arrayHeader (out : Output) (n : Nat) : Except LengthOverflow Output :=
  (Encoding.array n).map out.append

def mapHeader (out : Output) (n : Nat) : Except LengthOverflow Output :=
  (Encoding.map n).map out.append

def binary (out : Output) (data : List UInt8) : Except LengthOverflow Output :=
  (Encoding.binary data).map out.append

def string (out : Output) (s : String) : Except LengthOverflow Output :=
  (Encoding.string s).map out.append

end Output

end SchemaPack.Wire
