import SchemaPack.Codec.Read
import SchemaPack.Codec.Write

/-!
Handles: a published codec together with the way its holder wants to read. A handle keeps the
library it came from, so it goes on working when the context that served it is gone.
-/
namespace SchemaPack

open Wire

structure Handle where
  codec : CompiledCodec
  /-- The place of the codec among the published ones; two handles with one place share a codec. -/
  serial : Nat
  policy : Policy
  maxDepth : Nat
  library : Library

namespace Handle

def type (h : Handle) : Ty := h.codec.type

def provider (h : Handle) : String := h.codec.provider

def withPolicy (h : Handle) (policy : Policy) : Handle := { h with policy }

def sameCodec (a b : Handle) : Bool := a.serial == b.serial

def edge (h : Handle) : Edge := ⟨h.type, .ready⟩

/-- Appends a value; what has been appended stays when the value is refused further in. -/
def write (h : Handle) (v : Value) : Write Unit := h.library.write v h.edge

def encode (h : Handle) (v : Value) : Except CodecError (List UInt8) :=
  match h.write v Output.empty with
  | .ok () p => .ok p.bytes
  | .error e _ => .error e

def readWith (h : Handle) (policy : Policy) : Read Value :=
  let scope := Scope.root policy h.maxDepth
  h.library.read scope.room h.edge scope

def read (h : Handle) : Read Value := h.readWith h.policy

def decode (h : Handle) (bytes : List UInt8) : Except CodecError Value :=
  match h.read (Cursor.ofBytes bytes) with
  | .error e _ => .error e
  | .ok v after =>
    if after.rest.isEmpty then
      .ok v
    else
      .error ((Scope.root h.policy h.maxDepth).fail h.type (.trailingBytes after.remaining))

end Handle

end SchemaPack
