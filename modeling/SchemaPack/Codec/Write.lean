import SchemaPack.Codec.Routine

/-!
Writing values. A value is appended piece by piece, and what has been appended stays when a later
piece fails. The recursion is on the value, so it ends whatever the codecs are.
-/
namespace SchemaPack

open Wire

/-- Appending that may fail and then keeps what it has appended. -/
abbrev Write := EStateM CodecError Output

namespace Write

def fail {α : Type} (fault : WriteFault) : Write α := throw (.ofWriteFault fault)

def append (bytes : List UInt8) : Write Unit := modify (·.append bytes)

def encoded (encoding : Except LengthOverflow (List UInt8)) : Write Unit :=
  match encoding with
  | .ok bytes => append bytes
  | .error e => fail (.lengthOverflow e)

def arrayHeader (n : Nat) : Write Unit := encoded (Encoding.array n)

def mapHeader (n : Nat) : Write Unit := encoded (Encoding.map n)

def string (s : String) : Write Unit := encoded (Encoding.string s)

def binary (data : List UInt8) : Write Unit := encoded (Encoding.binary data)

def within {α : Type} (s : Segment) (step : Write α) : Write α :=
  EStateM.adaptExcept (·.within s) step

end Write

namespace Primitive

/-- Appends a scalar; nothing for a value of another type. -/
def write : Primitive → Value → Option (Write Unit)
  | .bool, .bool b => some (Write.append (Encoding.bool b))
  | .int t, .int u n => if t = u then some (Write.append (Encoding.int n.val)) else none
  | .f32, .f32 bits => some (Write.append (Encoding.f32 bits))
  | .f64, .f64 bits => some (Write.append (Encoding.f64 bits))
  | .string, .string s => some (Write.string s)
  | _, _ => none

end Primitive

namespace Routine

/-- Appends a value with no values inside, or refuses a value of the wrong shape. -/
def writeAtom (type : Ty) (routine : Routine) (v : Value) : Write Unit :=
  match routine, v with
  | .primitive p, v =>
    match p.write v with
    | some step => step
    | none => Write.fail (.mismatch type v)
  | .bytes, .bytes data => Write.binary data
  | .decimal, .decimal d => Write.string d.text
  | .version, .version number =>
    match number.checkRange with
    | .ok () => Write.string number.text
    | .error e => Write.fail (.invalidValue type e)
  | .union true _, .null => Write.append Encoding.nil
  | .leaf codec, v =>
    match codec.write v with
    | .ok output => Write.append output
    | .error fault => Write.fail fault
  | _, v => Write.fail (.mismatch type v)

end Routine

def writeFields (record : TypeName) (writers : List (String × (Edge → Write Unit))) :
    List FieldPlan → Write Unit
  | [] => pure ()
  | f :: rest => do
    match Fields.get? f.name writers with
    | none => Write.fail (.missingField record f.name)
    | some write =>
      Write.string f.name
      Write.within (.field f.name) (write f.edge)
      writeFields record writers rest

/-- Appends a record; a field that is not declared is reported before anything is appended. -/
def writeRecord (record : TypeName) (fields : List FieldPlan)
    (writers : List (String × (Edge → Write Unit))) : Write Unit :=
  match writers.find? fun w => !fields.any (·.name == w.1) with
  | some (undeclared, _) => Write.fail (.unexpectedField record undeclared)
  | none => do
    Write.mapHeader fields.length
    writeFields record writers fields

namespace Library

def writeAt (lib : Library) (edge : Edge) (isNull : Bool) (step : CompiledCodec → Write Unit) :
    Write Unit :=
  match lib.land CompiledCodec.writer isNull edge.type edge.link with
  | .absent => Write.append Encoding.nil
  | .codec c => step c
  | .broken e => throw (.internal e)

def writeAtom (lib : Library) (edge : Edge) (v : Value) : Write Unit :=
  lib.writeAt edge v.isNull fun c => c.writer.writeAtom c.type v

mutual

def write (lib : Library) : Value → Edge → Write Unit
  | .null, edge => lib.writeAtom edge .null
  | .bool b, edge => lib.writeAtom edge (.bool b)
  | .int t n, edge => lib.writeAtom edge (.int t n)
  | .f32 bits, edge => lib.writeAtom edge (.f32 bits)
  | .f64 bits, edge => lib.writeAtom edge (.f64 bits)
  | .string s, edge => lib.writeAtom edge (.string s)
  | .bytes data, edge => lib.writeAtom edge (.bytes data)
  | .decimal d, edge => lib.writeAtom edge (.decimal d)
  | .version v, edge => lib.writeAtom edge (.version v)
  | .tuple values, edge =>
    lib.writeAt edge false fun c =>
      match c.writer with
      | .tuple style items =>
        if values.length = items.length then do
          Write.arrayHeader items.length
          writeItems lib values style 0 items
        else
          Write.fail (style.wrongCount c.type values)
      | routine => routine.writeAtom c.type (.tuple values)
  | .union alternative held, edge =>
    lib.writeAt edge false fun c =>
      match c.writer with
      | .union _ alternatives =>
        match alternatives.find? (·.type == alternative) with
        | none => throw (.internal (.unionAlternativeNotDeclared c.type alternative))
        | some a => do
          Write.arrayHeader 2
          Write.string a.tag
          Write.within (.alternative a.tag) (write lib held a.edge)
      | routine => routine.writeAtom c.type (.union alternative held)
  | .list values, edge =>
    lib.writeAt edge false fun c =>
      match c.writer with
      | .list element => do
        Write.arrayHeader values.length
        writeAll lib values element 0
      | routine => routine.writeAtom c.type (.list values)
  | .map entries, edge =>
    lib.writeAt edge false fun c =>
      match c.writer with
      | .map key value => do
        Write.mapHeader entries.length
        writeEntries lib entries key value 0
      | routine => routine.writeAtom c.type (.map entries)
  | .record fields, edge =>
    lib.writeAt edge false fun c =>
      match c.writer with
      | .record name plans => writeRecord name plans (fieldWriters lib fields)
      | routine => routine.writeAtom c.type (.record fields)
termination_by structural v => v

def writeItems (lib : Library) : List Value → TupleStyle → Nat → List Edge → Write Unit
  | v :: values, style, i, edge :: edges => do
    Write.within (style.segment i) (write lib v edge)
    writeItems lib values style (i + 1) edges
  | _, _, _, _ => pure ()
termination_by structural values => values

def writeAll (lib : Library) : List Value → Edge → Nat → Write Unit
  | [], _, _ => pure ()
  | v :: values, edge, i => do
    Write.within (.index i) (write lib v edge)
    writeAll lib values edge (i + 1)
termination_by structural values => values

def writeEntries (lib : Library) : List (Value × Value) → Edge → Edge → Nat → Write Unit
  | [], _, _, _ => pure ()
  | (k, v) :: entries, key, value, i => do
    Write.within (.mapKey i) (write lib k key)
    Write.within (.mapValue i) (write lib v value)
    writeEntries lib entries key value (i + 1)
termination_by structural entries => entries

def fieldWriters (lib : Library) : List (String × Value) → List (String × (Edge → Write Unit))
  | [] => []
  | (name, v) :: fields => (name, write lib v) :: fieldWriters lib fields
termination_by structural fields => fields

end

end Library

end SchemaPack
