import SchemaPack.Codec.Read
import SchemaPack.Codec.Write
import SchemaPack.Provider.Builtin

/-!
The plain interpreter of types. It goes by the type alone: nothing is compiled, nothing is kept, and
every record is looked up in the catalog whenever a value of it is met. It is what the compiled
codecs are measured against.
-/
namespace SchemaPack

/-- The type without the nullables that wrap it for null. A nullable union keeps its own. -/
def Ty.unwrapped : Ty → Ty
  | .nullable (.union alternatives) => .nullable (.union alternatives)
  | .nullable inner => unwrapped inner
  | t => t

/-- The value that a payload without the field stands for: the declared default, or null for a
nullable field without one. -/
def Field.fallback (f : Field) : Option Value :=
  match f.default with
  | some v => some v
  | none => if f.type.isNullable then some .null else none

def CodecError.ofUnknownRecord (name : TypeName) : CodecError :=
  .compile (.single (.unknownRecord name))

namespace Plain

open Wire (Cursor Encoding.nil)

/-! ## Writing -/

/-- Appends a value with no values inside, or refuses a value of the wrong shape. -/
def writeAtom : Ty → Value → Write Unit
  | .primitive p, v =>
    match p.write v with
    | some step => step
    | none => Write.fail (.mismatch (.primitive p) v)
  | .bytes, .bytes data => Write.binary data
  | .decimal, .decimal d => Write.string d.text
  | .version, .version number =>
    match number.checkRange with
    | .ok () => Write.string number.text
    | .error e => Write.fail (.invalidValue .version e)
  | t, v => Write.fail (.mismatch t v)

def writeFields (record : TypeName) (writers : List (String × (Ty → Write Unit))) :
    List Field → Write Unit
  | [] => pure ()
  | f :: rest => do
    match Fields.get? f.name writers with
    | none => Write.fail (.missingField record f.name)
    | some write =>
      Write.string f.name
      Write.within (.field f.name) (write f.type)
      writeFields record writers rest

/-- Appends a record, given for every field of the value how it is written as a type. -/
def writeRecord (c : Catalog) (name : TypeName) (writers : List (String × (Ty → Write Unit))) :
    Write Unit :=
  match c.find? name with
  | none => throw (.ofUnknownRecord name)
  | some r =>
    match writers.find? fun w => !r.declares w.1 with
    | some (undeclared, _) => Write.fail (.unexpectedField name undeclared)
    | none => do
      Write.mapHeader r.fields.length
      writeFields name writers r.fields

mutual

def write (c : Catalog) : Value → Ty → Write Unit
  | .null, t =>
      if t.isNullable then Write.append Wire.Encoding.nil else Write.fail (.mismatch t .null)
  | .bool b, t => writeAtom t.unwrapped (.bool b)
  | .int u n, t => writeAtom t.unwrapped (.int u n)
  | .f32 bits, t => writeAtom t.unwrapped (.f32 bits)
  | .f64 bits, t => writeAtom t.unwrapped (.f64 bits)
  | .string s, t => writeAtom t.unwrapped (.string s)
  | .bytes data, t => writeAtom t.unwrapped (.bytes data)
  | .decimal d, t => writeAtom t.unwrapped (.decimal d)
  | .version v, t => writeAtom t.unwrapped (.version v)
  | .tuple values, t =>
    match t.unwrapped with
    | .tuple items =>
      if values.length = items.length then do
        Write.arrayHeader items.length
        writeItems c values 0 items
      else
        Write.fail (.tupleArity (.tuple items) values.length)
    | u => Write.fail (.mismatch u (.tuple values))
  | .union alternative held, t =>
    match Provider.unionShape? t.unwrapped with
    | some (_, alternatives) =>
      if alternative ∈ alternatives then do
        Write.arrayHeader 2
        Write.string alternative.tag
        Write.within (.alternative alternative.tag) (write c held alternative)
      else
        throw (.internal (.unionAlternativeNotDeclared t.unwrapped alternative))
    | none => Write.fail (.mismatch t.unwrapped (.union alternative held))
  | .list values, t =>
    match t.unwrapped with
    | .list element => do
      Write.arrayHeader values.length
      writeAll c values element 0
    | u => Write.fail (.mismatch u (.list values))
  | .map entries, t =>
    match t.unwrapped with
    | .map key value => do
      Write.mapHeader entries.length
      writeEntries c entries key value 0
    | u => Write.fail (.mismatch u (.map entries))
  | .record fields, t =>
    match t.unwrapped with
    | .record name => writeRecord c name (fieldWriters c fields)
    | u => Write.fail (.mismatch u (.record fields))
termination_by structural v => v

def writeItems (c : Catalog) : List Value → Nat → List Ty → Write Unit
  | v :: values, i, t :: types => do
    Write.within (.item i) (write c v t)
    writeItems c values (i + 1) types
  | _, _, _ => pure ()
termination_by structural values => values

def writeAll (c : Catalog) : List Value → Ty → Nat → Write Unit
  | [], _, _ => pure ()
  | v :: values, t, i => do
    Write.within (.index i) (write c v t)
    writeAll c values t (i + 1)
termination_by structural values => values

def writeEntries (c : Catalog) : List (Value × Value) → Ty → Ty → Nat → Write Unit
  | [], _, _, _ => pure ()
  | (k, v) :: entries, key, value, i => do
    Write.within (.mapKey i) (write c k key)
    Write.within (.mapValue i) (write c v value)
    writeEntries c entries key value (i + 1)
termination_by structural entries => entries

def fieldWriters (c : Catalog) : List (String × Value) → List (String × (Ty → Write Unit))
  | [] => []
  | (name, v) :: fields => (name, write c v) :: fieldWriters c fields
termination_by structural fields => fields

end

/-! ## Reading, given how to read a value inside -/

variable (inside : Ty → Scope → Read Value)

def readItems (scope : Scope) : Nat → List Ty → Read (List Value)
  | _, [] => pure []
  | i, t :: types => do
    let v ← Read.within (.item i) (inside t (scope.child s!"Item{i + 1}"))
    let rest ← readItems scope (i + 1) types
    return v :: rest

def readFields (scope : Scope) (target : Ty) (fields : List Field) :
    Nat → List (String × Value) → Read (List (String × Value))
  | 0, filled => pure filled
  | count + 1, filled => do
    let name ← Read.demand Cursor.string? scope target (.unexpectedFormat "field name" ·)
    match fields.find? (·.name == name) with
    | none =>
      if scope.policy = .throw then
        throw (scope.fail target (.unexpectedField name))
      else
        Read.skip scope target
        readFields scope target fields count filled
    | some f =>
      if Fields.contains name filled then
        throw (scope.fail target (.duplicateField name))
      else
        let v ← Read.within (.field name) (inside f.type (scope.child name))
        readFields scope target fields count ((name, v) :: filled)

def completeRecord (filled : List (String × Value)) :
    List Field → List (String × Value) → Except ReadFault (List (String × Value))
  | [], record => .ok record
  | f :: rest, record =>
    match (Fields.get? f.name filled).or f.fallback with
    | some v => completeRecord filled rest (Fields.insert f.name v record)
    | none => .error (.missingField f.name)

def readRecord (c : Catalog) (name : TypeName) (scope : Scope) : Read Value :=
  match c.find? name with
  | none => throw (.ofUnknownRecord name)
  | some r => do
    let target := Ty.record name
    let count ← Read.demand Cursor.mapHeader? scope target .expectedMapEncoding
    let filled ← readFields inside scope target r.fields count []
    match completeRecord filled r.fields [] with
    | .ok complete => return .record complete
    | .error fault => throw (scope.fail target fault)

def readTuple (items : List Ty) (scope : Scope) : Read Value := do
  let target := Ty.tuple items
  let count ← Read.demand Cursor.arrayHeader? scope target .expectedArrayEncoding
  if count = items.length then
    return .tuple (← readItems inside scope 0 items)
  else
    throw (scope.fail target (.arityMismatch items.length count))

/-- The value of a union whose tag has been read. An unknown tag of a nullable union is null where
the unexpected is ignored. -/
def readAlternative (scope : Scope) (target : Ty) (isNullable : Bool) (alternatives : List Ty)
    (tag : String) : Read Value :=
  match alternatives.find? (·.tag == tag) with
  | some t => do
    let held ← Read.within (.alternative t.tag) (inside t (scope.child scope.name))
    return .union t held
  | none =>
    if isNullable ∧ scope.policy = .ignore then do
      Read.skip scope target
      return .null
    else
      throw (scope.fail target (.unmatchedUnionTag tag))

/-- A union that is not null. -/
def readUnion (target : Ty) (isNullable : Bool) (alternatives : List Ty) (scope : Scope) :
    Read Value := do
  let count ← Read.demand Cursor.arrayHeader? scope target .expectedUnionArray
  if count = 2 then
    let tag ← Read.demand Cursor.string? scope target .unionTagNotString
    readAlternative inside scope target isNullable alternatives tag
  else
    throw (scope.fail target (.unionArityMismatch count))

/-- Reads a value of a type without wrappers that is not null. -/
def readPresent (c : Catalog) (scope : Scope) : Ty → Read Value
  | .primitive p => scope.run (.primitive p) p.read
  | .bytes => scope.run .bytes readBytes
  | .decimal => scope.run .decimal (readText Decimal.read)
  | .version => scope.run .version (readText Version.read)
  | .tuple items => readTuple inside items scope
  | .union alternatives => readUnion inside (.union alternatives) false alternatives scope
  | .list element => do
    let count ← Read.demand Cursor.arrayHeader? scope (.list element) (.unexpectedFormat "Array" ·)
    return .list (← readAll (inside element (scope.child scope.name)) count 0 [])
  | .map key value => do
    let count ← Read.demand Cursor.mapHeader? scope (.map key value) (.unexpectedFormat "Map" ·)
    let within := scope.child scope.name
    return .map (← readEntries (inside key within) (inside value within) count 0 [])
  | .nullable (.union alternatives) =>
    readUnion inside (.nullable (.union alternatives)) true alternatives scope
  | .nullable inner => readPresent c scope inner
  | .record name => readRecord inside c name scope

/-- Null where nil stands for it, and otherwise what the step reads. -/
def orNull (isNullable : Bool) (step : Read Value) : Read Value := fun cursor =>
  match if isNullable then cursor.nil? else none with
  | some after => .ok .null after
  | none => step cursor

/-- Reads a value of a type, with room for so many levels, this one included. -/
def read (c : Catalog) : (room : Nat) → Ty → Scope → Read Value
  | 0, t, scope => throw (scope.fail t (.depthLimitExceeded scope.maxDepth))
  | room + 1, t, scope => orNull t.isNullable (readPresent (read c room) c scope t)

end Plain

end SchemaPack
