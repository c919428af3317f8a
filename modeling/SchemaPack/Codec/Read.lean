import SchemaPack.Codec.Routine

/-!
Reading values. Every failure names the field, the type and the place at which it arose, and leaves
the cursor where the failing step found it. The recursion goes one level deeper at every container,
and the limit on the depth is what ends it, whatever the input.
-/
namespace SchemaPack

open Wire

/-- Taking from an input; a failure keeps the cursor. -/
abbrev Read := EStateM CodecError Cursor

namespace Read

/-- A step inside a container: its failure is seen from the container. -/
def within {α : Type} (s : Segment) (step : Read α) : Read α :=
  EStateM.adaptExcept (·.within s) step

/-- A take that moves the cursor only if it succeeds. -/
def attempt {α : Type} (take : Cursor → Option (α × Cursor)) : Read (Option α) := fun c =>
  match take c with
  | some (a, after) => .ok (some a) after
  | none => .ok none c

def peek : Read Format := fun c => .ok c.peek c

/-- A take that has to succeed; the fault may name the class of what stands there instead. -/
def demand {α : Type} (take : Cursor → Option (α × Cursor)) (scope : Scope) (target : Ty)
    (fault : Format → ReadFault) : Read α := fun c =>
  match take c with
  | some (a, after) => .ok a after
  | none => .error (scope.fail target (fault c.peek)) c

def skip (scope : Scope) (target : Ty) : Read Unit := fun c =>
  match c.skip with
  | .ok after => .ok () after
  | .error e => .error (scope.fail target (.malformed e)) c

end Read

/-! ## Values with no values inside -/

namespace IntType

/-- The numbers that a read of the type takes off the input. A number of these outside the range of
the type is consumed before it is refused. -/
def readLow (t : IntType) : Int := if t.signed then IntType.i64.min else 0

def readHigh (t : IntType) : Int := if t.signed then IntType.i64.max else IntType.u64.max

def read (t : IntType) (c : Cursor) : Except ReadFault Value × Cursor :=
  match c.intWithin? t.readLow t.readHigh with
  | some (n, after) =>
    match t.ofInt? n with
    | some v => (.ok (.int t v), after)
    | none => (.error (.integerOutOfRange t), after)
  | none =>
    if c.peek = .integer then (.error (.integerOutOfRange t), c)
    else (.error (.unexpectedFormat "Integer" c.peek), c)

end IntType

namespace Primitive

def read (p : Primitive) (c : Cursor) : Except ReadFault Value × Cursor :=
  match p with
  | .bool =>
    match c.bool? with
    | some (b, after) => (.ok (.bool b), after)
    | none => (.error (.unexpectedFormat "Boolean" c.peek), c)
  | .int t => t.read c
  | .f32 =>
    match c.f32? with
    | some (bits, after) => (.ok (.f32 bits), after)
    | none => (.error (.unexpectedFormat "Float" c.peek), c)
  | .f64 =>
    match c.f64? with
    | some (bits, after) => (.ok (.f64 bits), after)
    | none =>
      match c.f32? with
      | some (bits, after) => (.ok (.f64 (FloatBits.widen bits)), after)
      | none => (.error (.unexpectedFormat "Float" c.peek), c)
  | .string =>
    match c.string? with
    | some (s, after) => (.ok (.string s), after)
    | none =>
      if c.peek = .string then (.error .invalidUtf8, c)
      else (.error (.unexpectedFormat "String" c.peek), c)

end Primitive

/-- A value that travels as a text; the text is consumed even if it is not one of a value. -/
def readText (parse : String → Except TextError Value) (c : Cursor) :
    Except ReadFault Value × Cursor :=
  match c.string? with
  | none => (.error (.unexpectedFormat "String" c.peek), c)
  | some (text, after) =>
    match parse text with
    | .ok v => (.ok v, after)
    | .error reason => (.error (.parseFailure text reason), after)

def Decimal.read (text : String) : Except TextError Value :=
  match Decimal.parse text with
  | .ok d => .ok (.decimal d)
  | .error e => .error (.decimal e)

def Version.read (text : String) : Except TextError Value :=
  match Version.parse text with
  | .ok v => .ok (.version v)
  | .error e => .error (.version e)

def readBytes (c : Cursor) : Except ReadFault Value × Cursor :=
  match c.binary? with
  | some (data, after) => (.ok (.bytes data), after)
  | none => (.error (.unexpectedFormat "byte segment" c.peek), c)

def Scope.run (scope : Scope) (target : Ty) (step : Cursor → Except ReadFault Value × Cursor) :
    Read Value := fun c =>
  match step c with
  | (.ok v, after) => .ok v after
  | (.error fault, after) => .error (scope.fail target fault) after

/-! ## Containers, given how to read through an edge -/

def readAll (item : Read Value) : (count index : Nat) → List Value → Read (List Value)
  | 0, _, items => pure items.reverse
  | count + 1, i, items => do
    let v ← Read.within (.index i) item
    readAll item count (i + 1) (v :: items)

def readEntries (key value : Read Value) :
    (count index : Nat) → List (Value × Value) → Read (List (Value × Value))
  | 0, _, entries => pure entries.reverse
  | count + 1, i, entries => do
    let k ← Read.within (.mapKey i) key
    let v ← Read.within (.mapValue i) value
    readEntries key value count (i + 1) ((k, v) :: entries)

def readItems (through : Edge → Scope → Read Value) (scope : Scope) (style : TupleStyle) :
    Nat → List Edge → Read (List Value)
  | _, [] => pure []
  | i, edge :: edges => do
    let v ← Read.within (style.segment i) (through edge (scope.child (style.itemName i)))
    let rest ← readItems through scope style (i + 1) edges
    return v :: rest

def readFields (through : Edge → Scope → Read Value) (scope : Scope) (target : Ty)
    (fields : List FieldPlan) : Nat → List (String × Value) → Read (List (String × Value))
  | 0, filled => pure filled
  | count + 1, filled => do
    let name ← Read.demand Cursor.string? scope target (.unexpectedFormat "field name" ·)
    match fields.find? (·.name == name) with
    | none =>
      if scope.policy = .throw then
        throw (scope.fail target (.unexpectedField name))
      else
        Read.skip scope target
        readFields through scope target fields count filled
    | some f =>
      if Fields.contains name filled then
        throw (scope.fail target (.duplicateField name))
      else
        let v ← Read.within (.field name) (through f.edge (scope.child name))
        readFields through scope target fields count ((name, v) :: filled)

/-- A record from the fields that were read: a field that was not takes its default, and the first
one without a default is missing. -/
def completeRecord (filled : List (String × Value)) :
    List FieldPlan → List (String × Value) → Except ReadFault (List (String × Value))
  | [], record => .ok record
  | f :: rest, record =>
    match (Fields.get? f.name filled).or f.default with
    | some v => completeRecord filled rest (Fields.insert f.name v record)
    | none => .error (.missingField f.name)

/-- The value of a union whose tag has been read. An unknown tag of a nullable union is null where
the unexpected is ignored. -/
def readAlternative (through : Edge → Scope → Read Value) (scope : Scope) (target : Ty)
    (nullable : Bool) (alternatives : List Alternative) (tag : String) : Read Value :=
  match alternatives.find? (·.tag == tag) with
  | some a => do
    let held ← Read.within (.alternative a.tag) (through a.edge (scope.child scope.name))
    return .union a.type held
  | none =>
    if nullable ∧ scope.policy = .ignore then do
      Read.skip scope target
      return .null
    else
      throw (scope.fail target (.unmatchedUnionTag tag))

namespace Routine

def read (through : Edge → Scope → Read Value) (target : Ty) (scope : Scope) :
    Routine → Read Value
  | primitive p => scope.run target p.read
  | bytes => scope.run target readBytes
  | decimal => scope.run target (readText Decimal.read)
  | version => scope.run target (readText Version.read)
  | leaf codec => scope.run target (codec.read scope)
  | list element => do
    let count ← Read.demand Cursor.arrayHeader? scope target (.unexpectedFormat "Array" ·)
    let items ← readAll (through element (scope.child scope.name)) count 0 []
    return .list items
  | map key value => do
    let count ← Read.demand Cursor.mapHeader? scope target (.unexpectedFormat "Map" ·)
    let inside := scope.child scope.name
    let entries ← readEntries (through key inside) (through value inside) count 0 []
    return .map entries
  | tuple style items => do
    let actual ← Read.peek
    let count ← Read.demand Cursor.arrayHeader? scope target .expectedArrayEncoding
    if count = items.length then
      return .tuple (← readItems through scope style 0 items)
    else
      throw (scope.fail target (style.wrongLength items.length count actual))
  | union isNullable alternatives => do
    match ← (if isNullable then Read.attempt (fun c => c.nil?.map ((), ·)) else pure none) with
    | some () => return .null
    | none =>
      let count ← Read.demand Cursor.arrayHeader? scope target .expectedUnionArray
      if count = 2 then
        let tag ← Read.demand Cursor.string? scope target .unionTagNotString
        readAlternative through scope target isNullable alternatives tag
      else
        throw (scope.fail target (.unionArityMismatch count))
  | record _ fields => do
    let count ← Read.demand Cursor.mapHeader? scope target .expectedMapEncoding
    let filled ← readFields through scope target fields count []
    match completeRecord filled fields [] with
    | .ok complete => return .record complete
    | .error fault => throw (scope.fail target fault)
  | nullable inner => throw (.internal (.unresolvedDeferredCodec inner.type))

end Routine

namespace Library

/-- Reads through an edge, with room for so many levels, this one included. An edge that leads
nowhere is reported before the limit on the depth. -/
def read (lib : Library) : (room : Nat) → Edge → Scope → Read Value
  | 0, edge, scope =>
    match lib.resolve edge.type edge.link with
    | .ok _ => throw (scope.fail edge.type (.depthLimitExceeded scope.maxDepth))
    | .error e => throw (.internal e)
  | room + 1, edge, scope => fun c =>
    match lib.land CompiledCodec.reader c.nil?.isSome edge.type edge.link with
    | .absent =>
      match c.nil? with
      | some after => .ok .null after
      | none => .ok .null c
    | .codec compiled => compiled.reader.read (lib.read room) compiled.type scope c
    | .broken e => .error (.internal e) c

end Library

end SchemaPack
