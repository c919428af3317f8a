/-!
Names of record types. A name is any text; the part before its last dot is its namespace, and a
name without a dot has none.
-/
namespace SchemaPack

/-- Splits at the last occurrence of a character, which belongs to neither part. -/
def splitAtLast (mark : Char) : List Char → Option (List Char × List Char)
  | [] => none
  | c :: rest =>
    match splitAtLast mark rest with
    | some (before, after) => some (c :: before, after)
    | none => if c = mark then some ([], rest) else none

/-- The full name of a record type, such as `Acme.Inventory.Item`. -/
structure TypeName where
  text : String
  deriving DecidableEq, Repr

namespace TypeName

instance : ToString TypeName := ⟨text⟩

def qualifier (name : TypeName) : Option String :=
  (splitAtLast '.' name.text.toList).map fun parts => String.ofList parts.1

def simple (name : TypeName) : String :=
  match splitAtLast '.' name.text.toList with
  | some (_, after) => String.ofList after
  | none => name.text

end TypeName

end SchemaPack
