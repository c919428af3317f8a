import SchemaPack.Catalog.Basic

/-!
When a value has the shape of a type. The shallow check takes any record value for a record type;
the deep check looks the record up in a catalog and asks for every declared field, each with a
value of its type, and for no other field. A nullable type takes null and whatever its inner type
takes, so a value other than null is checked against the type without its outer nullables.
-/
namespace SchemaPack

namespace Primitive

def admits : Primitive → Value → Bool
  | .bool, .bool _ => true
  | .int t, .int u _ => t == u
  | .f32, .f32 _ => true
  | .f64, .f64 _ => true
  | .string, .string _ => true
  | _, _ => false

end Primitive

namespace Ty

/-- A value without values inside, against a type that is not nullable. -/
def admitsAtom : Ty → Value → Bool
  | .primitive p, v => p.admits v
  | .bytes, .bytes _ => true
  | .decimal, .decimal _ => true
  | .version, .version _ => true
  | _, _ => false

end Ty

/-- A record whose fields are given by their checks: all of them declared, and every declared field
there with a value of its type. -/
def RecordDef.admitsFields (r : RecordDef) (checks : List (String × (Ty → Bool))) : Bool :=
  checks.all (fun c => r.declares c.1) &&
    r.fields.all fun f =>
      match Fields.get? f.name checks with
      | some check => check f.type
      | none => false

namespace Value

/-- Without a catalog every record value is taken. -/
def fitsRecord (catalog : Option Catalog) (name : TypeName)
    (checks : List (String × (Ty → Bool))) : Bool :=
  match catalog with
  | none => true
  | some c =>
    match c.find? name with
    | some r => r.admitsFields checks
    | none => false

mutual

/-- A value against a type; without a catalog the fields of a record are not looked at. -/
def fits (catalog : Option Catalog) : Value → Ty → Bool
  | .null, t => t.isNullable
  | .bool b, t => t.required.admitsAtom (.bool b)
  | .int u n, t => t.required.admitsAtom (.int u n)
  | .f32 bits, t => t.required.admitsAtom (.f32 bits)
  | .f64 bits, t => t.required.admitsAtom (.f64 bits)
  | .string s, t => t.required.admitsAtom (.string s)
  | .bytes data, t => t.required.admitsAtom (.bytes data)
  | .decimal d, t => t.required.admitsAtom (.decimal d)
  | .version v, t => t.required.admitsAtom (.version v)
  | .tuple items, t =>
    match t.required with
    | .tuple types => items.length == types.length && fitsEach catalog items types
    | _ => false
  | .union alternative held, t =>
    match t.required with
    | .union alternatives => alternatives.contains alternative && fits catalog held alternative
    | _ => false
  | .list items, t =>
    match t.required with
    | .list element => fitsAll catalog items element
    | _ => false
  | .map entries, t =>
    match t.required with
    | .map key value => fitsEntries catalog entries key value
    | _ => false
  | .record fields, t =>
    match t.required with
    | .record name => fitsRecord catalog name (fieldChecks catalog fields)
    | _ => false
termination_by structural v => v

def fitsEach (catalog : Option Catalog) : List Value → List Ty → Bool
  | v :: rest, t :: types => fits catalog v t && fitsEach catalog rest types
  | _, _ => true
termination_by structural items => items

def fitsAll (catalog : Option Catalog) : List Value → Ty → Bool
  | [], _ => true
  | v :: rest, t => fits catalog v t && fitsAll catalog rest t
termination_by structural items => items

def fitsEntries (catalog : Option Catalog) : List (Value × Value) → Ty → Ty → Bool
  | [], _, _ => true
  | (k, v) :: rest, key, value =>
    fits catalog k key && fits catalog v value && fitsEntries catalog rest key value
termination_by structural entries => entries

/-- For every field, the check of its value against a type yet to be given. -/
def fieldChecks (catalog : Option Catalog) : List (String × Value) → List (String × (Ty → Bool))
  | [] => []
  | (name, v) :: rest => (name, fits catalog v) :: fieldChecks catalog rest
termination_by structural fields => fields

end

theorem fits_null (catalog : Option Catalog) (t : Ty) : fits catalog .null t = t.isNullable := by
  rw [fits]

end Value

namespace Ty

/-- The shallow check. -/
def admits (t : Ty) (v : Value) : Bool := v.fits none t

/-- The deep check. -/
def admitsIn (t : Ty) (c : Catalog) (v : Value) : Bool := v.fits (some c) t

end Ty

end SchemaPack
