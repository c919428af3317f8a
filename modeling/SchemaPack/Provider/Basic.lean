import SchemaPack.Catalog.Declare
import SchemaPack.Codec.Routine

/-!
Providers. A provider is a strategy for a family of types: it says which types it takes, and for
each of them what has to be compiled first and what routine follows from that. It never compiles
anything itself; a compile session carries out its plan. The first provider of a registry that
takes a type is the one that serves it.
-/
namespace SchemaPack

inductive Step
  /-- An edge to a type inside. It is indirect where the value may be absent or repeated no times,
  so that a type may contain itself through it. -/
  | request (type : Ty) (isIndirect : Bool)
  /-- A problem to put on record, which may depend on how many are on record already. -/
  | report (problem : Nat → Problem)

/-- What a provider asks for, and the routine it makes of the edges it is given, one for every
request in order. -/
structure Blueprint where
  steps : List Step := []
  finish : List Edge → Except Problem Routine

namespace Blueprint

def constant (routine : Routine) : Blueprint where
  finish _ := .ok routine

def failure (problem : Problem) : Blueprint where
  finish _ := .error problem

def requests (b : Blueprint) : List (Ty × Bool) :=
  b.steps.filterMap fun
    | .request type isIndirect => some (type, isIndirect)
    | .report _ => none

end Blueprint

structure Provider where
  name : String
  accepts : Ty → Catalog → Bool
  /-- Whether the nullable of a type is left to the general wrapper. A provider that says no encodes
  null itself, or does not serve the nullable at all. -/
  wrapsNull : Ty → Bool := fun _ => true
  writer : Ty → Catalog → Blueprint
  reader : Ty → Catalog → Blueprint := writer

structure Registry where
  providers : List Provider

namespace Registry

def resolve (r : Registry) (type : Ty) (c : Catalog) : Except Problem Provider :=
  match r.providers.find? (·.accepts type c) with
  | some p => .ok p
  | none => .error (.unsupportedType type)

def names (r : Registry) : List String := r.providers.map (·.name)

def size (r : Registry) : Nat := r.providers.length

end Registry

end SchemaPack
