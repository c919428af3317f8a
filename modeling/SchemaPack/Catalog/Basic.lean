import SchemaPack.Value

/-!
The catalog of record types, in the order in which they were declared. A declaration is refused
whole: a name may be declared once, a record may not name two fields alike, and a default has to
fit the type of its field. Records nested in a default are not looked into here, since they may
be declared later; a codec checks them when it is compiled.
-/
namespace SchemaPack

/-- A field of a record; the default is the value of a field that a payload leaves out. -/
structure Field where
  name : String
  type : Ty
  default : Option Value := none

structure RecordDef where
  name : TypeName
  fields : List Field

namespace RecordDef

def type (r : RecordDef) : Ty := .record r.name

def findField? (r : RecordDef) (name : String) : Option (Nat × Field) :=
  match r.fields.findIdx? (·.name == name) with
  | some i => (r.fields[i]?).map (i, ·)
  | none => none

def declares (r : RecordDef) (name : String) : Bool := r.fields.any (·.name == name)

end RecordDef

/-- The declared records, the first declaration first. -/
structure Catalog where
  records : List RecordDef := []

namespace Catalog

def find? (c : Catalog) (name : TypeName) : Option RecordDef :=
  c.records.find? (·.name == name)

def contains (c : Catalog) (name : TypeName) : Bool := c.records.any (·.name == name)

def size (c : Catalog) : Nat := c.records.length

theorem contains_eq_isSome (c : Catalog) (name : TypeName) :
    c.contains name = (c.find? name).isSome := by
  rw [Bool.eq_iff_iff]
  simp [contains, find?]

theorem name_of_find? {c : Catalog} {name : TypeName} {r : RecordDef}
    (h : c.find? name = some r) : r.name = name := by
  simpa using List.find?_some h

theorem mem_of_find? {c : Catalog} {name : TypeName} {r : RecordDef}
    (h : c.find? name = some r) : r ∈ c.records := List.mem_of_find?_eq_some h

end Catalog

end SchemaPack
