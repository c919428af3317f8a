import SchemaPack.Admits

/-!
Declaring records. A refused declaration leaves the catalog as it was.
-/
namespace SchemaPack

inductive CatalogError
  | duplicateRecord (name : TypeName)
  | duplicateField (record : TypeName) (field : String)
  | defaultMismatch (record : TypeName) (field : String) (expected : Ty) (found : String)
  deriving DecidableEq

namespace CatalogError

def message : CatalogError → String
  | duplicateRecord name => s!"Record {name} is already declared in this catalog"
  | duplicateField record field => s!"Record {record} declares field \"{field}\" more than once"
  | defaultMismatch record field expected found =>
    s!"Record {record} field \"{field}\" of type {expected} has a {found} default"

end CatalogError

namespace RecordDef

/-- A field after the fields of the given names: a repeated name comes before a bad default. -/
def fieldProblem? (record : TypeName) (earlier : List String) (f : Field) : Option CatalogError :=
  if earlier.contains f.name then
    some (.duplicateField record f.name)
  else
    match f.default with
    | none => none
    | some v =>
      if f.type.admits v then none else some (.defaultMismatch record f.name f.type v.kind)

def firstProblem? (record : TypeName) (earlier : List String) : List Field → Option CatalogError
  | [] => none
  | f :: rest =>
    match fieldProblem? record earlier f with
    | some problem => some problem
    | none => firstProblem? record (f.name :: earlier) rest

end RecordDef

namespace Catalog

def declare (c : Catalog) (r : RecordDef) : Except CatalogError Catalog :=
  if c.contains r.name then
    .error (.duplicateRecord r.name)
  else
    match RecordDef.firstProblem? r.name [] r.fields with
    | some problem => .error problem
    | none => .ok { records := c.records ++ [r] }

/-- Declares records in turn, passing over those that are refused. -/
def declareAll (c : Catalog) : List RecordDef → Catalog
  | [] => c
  | r :: rest =>
    match c.declare r with
    | .ok next => next.declareAll rest
    | .error _ => c.declareAll rest

/-- The catalogs that declarations can build. -/
inductive Declared : Catalog → Prop
  | empty : Declared {}
  | declare {c next : Catalog} {r : RecordDef} : Declared c → c.declare r = .ok next → Declared next

end Catalog

end SchemaPack
