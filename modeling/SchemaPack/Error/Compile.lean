import SchemaPack.Ty

/-!
Why a type cannot be compiled. A session gathers every problem it meets, each with the chain of
types that led to it, so one failed request reports them all.
-/
namespace SchemaPack

inductive Problem
  | unsupportedType (type : Ty)
  | unknownRecord (name : TypeName)
  | invalidDefault (record : TypeName) (field : String) (expected : Ty)
  /-- The chain runs from the type back to itself, with no list, map, nullable or union between, so
  the type has no finite value. -/
  | unresolvableRecursion (type : Ty) (chain : List Ty)
  | depthLimitExceeded (type : Ty) (limit : Nat)
  deriving DecidableEq

/-- A problem, and the types from the requested one down to it. -/
structure Diagnostic where
  chain : List Ty
  problem : Problem
  deriving DecidableEq

/-- The outcome of a failed request: its one problem, or all of several. -/
inductive CompileError
  | single (problem : Problem)
  | composition (type : Ty) (diagnostics : List Diagnostic)
  deriving DecidableEq

def chainText (chain : List Ty) : String := String.intercalate " → " (chain.map Ty.text)

namespace Problem

def message : Problem → String
  | unsupportedType type => s!"Unsupported type {type}: no registered provider can encode it"
  | unknownRecord name =>
    s!"Unknown record {name}: declare it in the type catalog before compiling"
  | invalidDefault record field expected =>
    s!"Record {record} field \"{field}\" has a default that is not a valid {expected} value"
  | unresolvableRecursion type chain =>
    s!"Unresolvable recursive type {type}: {chainText chain} contains itself without an indirection point"
  | depthLimitExceeded type limit => s!"Compile depth limit {limit} exceeded at {type}"

end Problem

namespace Diagnostic

def message (d : Diagnostic) : String := chainText d.chain ++ " → " ++ d.problem.message

def numbered (first : Nat) : List Diagnostic → List String
  | [] => []
  | d :: rest => (toString first ++ ") " ++ d.message) :: numbered (first + 1) rest

end Diagnostic

namespace CompileError

def ofDiagnostics (type : Ty) : List Diagnostic → CompileError
  | [] => single (.unsupportedType type)
  | [d] => single d.problem
  | diagnostics => composition type diagnostics

def problems : CompileError → List Problem
  | single problem => [problem]
  | composition _ diagnostics => diagnostics.map (·.problem)

def message : CompileError → String
  | single problem => problem.message
  | composition type diagnostics =>
    let count := diagnostics.length
    let listed := String.intercalate "; " (Diagnostic.numbered 1 diagnostics)
    s!"Unable to compile {type}: {count} problems: {listed}"

end CompileError

end SchemaPack
