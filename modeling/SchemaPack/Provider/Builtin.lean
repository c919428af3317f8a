import SchemaPack.Provider.Basic

/-!
The providers for the types of the data model.
-/
namespace SchemaPack.Provider

def scalar (name : String) (routine? : Ty → Option Routine) : Provider where
  name
  accepts type _ := (routine? type).isSome
  writer type _ :=
    match routine? type with
    | some routine => .constant routine
    | none => .failure (.unsupportedType type)

def primitive : Provider := scalar "Primitive" fun
  | .primitive p => some (.primitive p)
  | _ => none

def buffer : Provider := scalar "Buffer" fun
  | .bytes => some .bytes
  | _ => none

def decimal : Provider := scalar "Decimal" fun
  | .decimal => some .decimal
  | _ => none

def version : Provider := scalar "Version" fun
  | .version => some .version
  | _ => none

/-- Tuples with more items have no provider. -/
def maxTupleArity : Nat := 7

/-- A tuple asks for its items directly, so it cannot contain itself. Nullable tuples have no
provider. -/
def tuple : Provider where
  name := "Tuple"
  accepts type _ :=
    match type with
    | .tuple items => 1 ≤ items.length && items.length ≤ maxTupleArity
    | _ => false
  wrapsNull _ := false
  writer type _ :=
    match type with
    | .tuple items =>
      { steps := items.map (.request · false)
        finish := fun edges => .ok (.tuple .standard edges) }
    | _ => .failure (.unsupportedType type)

/-- The alternatives of a union, nullable or not. -/
def unionShape? : Ty → Option (Bool × List Ty)
  | .union alternatives => some (false, alternatives)
  | .nullable (.union alternatives) => some (true, alternatives)
  | _ => none

/-- A union has at least two alternatives and encodes its own null. -/
def union : Provider where
  name := "Union"
  accepts type _ :=
    match unionShape? type with
    | some (_, alternatives) => 2 ≤ alternatives.length
    | none => false
  wrapsNull _ := false
  writer type _ :=
    match unionShape? type with
    | some (isNullable, alternatives) =>
      { steps := alternatives.map (.request · true)
        finish := fun edges =>
          .ok (.union isNullable (alternatives.zipWith (fun t edge => ⟨t, t.tag, edge⟩) edges)) }
    | none => .failure (.unsupportedType type)

def list : Provider where
  name := "List"
  accepts type _ :=
    match type with
    | .list _ => true
    | _ => false
  writer type _ :=
    match type with
    | .list element =>
      { steps := [.request element true]
        finish := fun
          | [edge] => .ok (.list edge)
          | _ => .error (.unsupportedType type) }
    | _ => .failure (.unsupportedType type)

def map : Provider where
  name := "Map"
  accepts type _ :=
    match type with
    | .map _ _ => true
    | _ => false
  writer type _ :=
    match type with
    | .map key value =>
      { steps := [.request key true, .request value true]
        finish := fun
          | [keyEdge, valueEdge] => .ok (.map keyEdge valueEdge)
          | _ => .error (.unsupportedType type) }
    | _ => .failure (.unsupportedType type)

/-- What a payload without a field stands for. A default that is no complete value of the type of
the field does not count; a nullable field without a default is null. -/
def effectiveDefault (c : Catalog) (f : Field) : Option Value :=
  match f.default with
  | some v => if f.type.admitsIn c v then some v else none
  | none => if f.type.isNullable then some .null else none

/-- The steps of a field: its bad default is reported before its type is asked for. -/
def fieldSteps (c : Catalog) (record : TypeName) (f : Field) : List Step :=
  let request := Step.request f.type false
  match f.default with
  | some v =>
    if f.type.admitsIn c v then [request]
    else [.report fun _ => .invalidDefault record f.name f.type, request]
  | none => [request]

/-- Every record name is taken, and a name that the catalog lacks fails with an error of its own. -/
def record : Provider where
  name := "Record"
  accepts type _ :=
    match type with
    | .record _ => true
    | _ => false
  writer type c :=
    match type with
    | .record name =>
      match c.find? name with
      | none => .failure (.unknownRecord name)
      | some r =>
        { steps := r.fields.flatMap (fieldSteps c name)
          finish := fun edges =>
            .ok (.record name (r.fields.zipWith
              (fun f edge => ⟨f.name, edge, effectiveDefault c f⟩) edges)) }
    | _ => .failure (.unsupportedType type)

def builtin : List Provider :=
  [primitive, buffer, decimal, version, tuple, union, list, map, record]

end SchemaPack.Provider

namespace SchemaPack.Registry

def standard : Registry := ⟨Provider.builtin⟩

/-- Providers ahead of the built-in ones, which may be left out. -/
def withProviders (providers : List Provider) (includeBuiltin : Bool) : Registry :=
  ⟨providers ++ if includeBuiltin then Provider.builtin else []⟩

end SchemaPack.Registry
