import SchemaPack.Double

/-!
TOML documents as trees. A table remembers how it came to be, since that decides whether it may
still be extended.

Configurations rely on the library (toml) that parses them to accept the documents of TOML 1.0 and
no others, with its own limits for nesting and for numbers. What it reads a document as is spelled
out in the modules on the lexical level, numbers, values and documents.
-/
namespace SchemaPack.Toml

/-- A table was named only on the way to another by a header, or by a dotted key, or has a header
of its own. -/
inductive Origin
  | implied
  | dotted
  | defined
  deriving DecidableEq, Repr

inductive Node
  | string (s : String)
  | integer (n : Int)
  | float (x : Double)
  | boolean (b : Bool)
  | moment
  | array (items : List Node)
  | inlineTable (entries : List (String × Node))
  | table (origin : Origin) (entries : List (String × Node))
  /-- The tables of an array of tables, the latest first. -/
  | tables (items : List (List (String × Node)))

abbrev Entries := List (String × Node)

namespace Entries

def get? (entries : Entries) (key : String) : Option Node :=
  (entries.find? (·.1 == key)).map (·.2)

def erase (entries : Entries) (key : String) : Entries := entries.filter (·.1 != key)

/-- Puts a value at a key; an entry of that key keeps its place. -/
def put (entries : Entries) (key : String) (value : Node) : Entries :=
  if entries.any (·.1 == key) then
    entries.map fun e => if e.1 == key then (key, value) else e
  else
    entries ++ [(key, value)]

end Entries

def Node.entries? : Node → Option Entries
  | inlineTable entries => some entries
  | table _ entries => some entries
  | _ => none

end SchemaPack.Toml
