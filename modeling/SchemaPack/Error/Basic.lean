import SchemaPack.Decimal.Parse
import SchemaPack.Error.Compile
import SchemaPack.Path
import SchemaPack.Value
import SchemaPack.Wire.Output
import SchemaPack.Wire.Skip

/-!
Failures of writing and reading. A failure of the data carries the place where it arose; a failure
of the codec itself does not, and no data can cause it.
-/
namespace SchemaPack

open Wire (Format LengthOverflow SkipError)

inductive TextError
  | decimal (e : DecimalError)
  | version (e : VersionError)
  deriving DecidableEq

def TextError.message : TextError → String
  | decimal e => e.message
  | version e => e.message

inductive ReadFault
  | unexpectedFormat (expected : String) (actual : Format)
  | expectedArrayEncoding (actual : Format)
  | arityMismatch (expected actual : Nat)
  | expectedUnionArray (actual : Format)
  | unionArityMismatch (actual : Nat)
  | unionTagNotString (actual : Format)
  | unmatchedUnionTag (received : String)
  | parseFailure (input : String) (reason : TextError)
  | expectedMapEncoding (actual : Format)
  | unexpectedField (field : String)
  | duplicateField (field : String)
  | missingField (field : String)
  | integerOutOfRange (target : IntType)
  | invalidUtf8
  | malformed (reason : SkipError)
  | trailingBytes (remaining : Nat)
  | depthLimitExceeded (limit : Nat)
  deriving DecidableEq

namespace ReadFault

def message : ReadFault → String
  | unexpectedFormat expected actual =>
    s!"Unexpected MsgPack format: expected {expected}, got {actual}"
  | expectedArrayEncoding actual =>
    s!"Expecting tuple data to be encoded as array, got {actual}"
  | arityMismatch expected actual =>
    s!"Received array must have length {expected}, got {actual}"
  | expectedUnionArray actual => s!"Union values must be encoded as an array, got {actual}"
  | unionArityMismatch actual => s!"Union array should have 2 elements, not {actual}"
  | unionTagNotString actual => s!"Unable to read union type tag: expected String, got {actual}"
  | unmatchedUnionTag received => s!"No union alternative matches received tag \"{received}\""
  | parseFailure input reason => s!"Unable to parse \"{input}\": {reason.message}"
  | expectedMapEncoding actual => s!"Complex types must be encoded as a map, got {actual}"
  | unexpectedField field => s!"Encountered unexpected field \"{field}\""
  | duplicateField field => s!"Encountered duplicate field \"{field}\""
  | missingField field => s!"Missing required field \"{field}\""
  | integerOutOfRange target => s!"Integer does not fit in {target.name}"
  | invalidUtf8 => "String payload is not valid UTF-8"
  | malformed reason => s!"Malformed MsgPack data: {reason.message}"
  | trailingBytes remaining => s!"{remaining} bytes remain after the value"
  | depthLimitExceeded limit => s!"Nesting depth limit {limit} exceeded"

end ReadFault

/-- A failed read: the name and the type of what was being read, where, and why. -/
structure ReadError where
  name : String
  target : Ty
  path : Path := .root
  fault : ReadFault
  deriving DecidableEq

def ReadError.message (e : ReadError) : String :=
  s!"Cannot deserialise \"{e.name}\" as {e.target} at {e.path}: {e.fault.message}"

inductive WriteFault
  | valueMismatch (expected : Ty) (found : String)
  | tupleArity (expected : Ty) (actual : Nat)
  | missingField (record : TypeName) (field : String)
  | unexpectedField (record : TypeName) (field : String)
  | invalidValue (expected : Ty) (reason : VersionError)
  | lengthOverflow (e : LengthOverflow)
  | output (reason : String)
  deriving DecidableEq

namespace WriteFault

def mismatch (expected : Ty) (found : Value) : WriteFault := valueMismatch expected found.kind

def message : WriteFault → String
  | valueMismatch expected found => s!"expected a value of type {expected}, found {found}"
  | tupleArity expected actual =>
    s!"tuple {expected} has {expected.arguments.length} items, value has {actual}"
  | missingField record field => s!"record {record} value is missing field \"{field}\""
  | unexpectedField record field => s!"record {record} does not declare field \"{field}\""
  | invalidValue expected reason =>
    s!"value of type {expected} has no canonical encoding: {reason.message}"
  | lengthOverflow e => e.message
  | output reason => s!"write failed: {reason}"

end WriteFault

structure WriteError where
  path : Path := .root
  fault : WriteFault
  deriving DecidableEq

def WriteError.message (e : WriteError) : String :=
  s!"Cannot serialise value at {e.path}: {e.fault.message}"

/-- Failures of a codec that no data causes. -/
inductive InternalError
  | unionAlternativeNotDeclared (union alternative : Ty)
  | unresolvedDeferredCodec (type : Ty)
  | poisonedRoutine (type : Ty)
  deriving DecidableEq

namespace InternalError

def message : InternalError → String
  | unionAlternativeNotDeclared union alternative =>
    s!"No match on union type: {union} does not declare alternative {alternative}"
  | unresolvedDeferredCodec type =>
    s!"Deferred codec for {type} was invoked before compilation finished"
  | poisonedRoutine type => s!"Routine for {type} belongs to a failed compilation"

end InternalError

inductive CodecError
  | compile (e : CompileError)
  | write (e : WriteError)
  | read (e : ReadError)
  | internal (e : InternalError)
  deriving DecidableEq

namespace CodecError

/-- The failure as the container one step further out sees it. -/
def within (e : CodecError) (s : Segment) : CodecError :=
  match e with
  | write e => write { e with path := e.path.within s }
  | read e => read { e with path := e.path.within s }
  | compile _ | internal _ => e

def isDataError : CodecError → Bool
  | write _ | read _ => true
  | compile _ | internal _ => false

def isInternal : CodecError → Bool
  | internal _ => true
  | _ => false

def write? : CodecError → Option WriteError
  | write e => some e
  | _ => none

def read? : CodecError → Option ReadError
  | read e => some e
  | _ => none

def ofWriteFault (fault : WriteFault) : CodecError := write { fault }

def ofReadFault (name : String) (target : Ty) (fault : ReadFault) : CodecError :=
  read { name, target, fault }

def message : CodecError → String
  | compile e => e.message
  | write e => e.message
  | read e => e.message
  | internal e => e.message

end CodecError

end SchemaPack
