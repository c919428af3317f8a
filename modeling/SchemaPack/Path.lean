/-!
Where a value stands inside another: the steps from the outer value inwards. A failure starts with
no step, and every enclosing value puts its own step in front.
-/
namespace SchemaPack

inductive Segment
  | field (name : String)
  | index (n : Nat)
  | mapKey (n : Nat)
  | mapValue (n : Nat)
  | alternative (tag : String)
  deriving DecidableEq, Repr

namespace Segment

def text : Segment → String
  | field name => "." ++ name
  | index n => s!"[{n}]"
  | mapKey n => s!"[{n}].key"
  | mapValue n => s!"[{n}].value"
  | alternative tag => "<" ++ tag ++ ">"

/-- The items of a tuple are called Item1, Item2 and so on. -/
def item (index : Nat) : Segment := field s!"Item{index + 1}"

end Segment

/-- Steps with the outermost first. -/
structure Path where
  segments : List Segment := []
  deriving DecidableEq, Repr

namespace Path

def root : Path := {}

def within (p : Path) (s : Segment) : Path := ⟨s :: p.segments⟩

def isRoot (p : Path) : Bool := p.segments.isEmpty

def length (p : Path) : Nat := p.segments.length

def text (p : Path) : String := p.segments.foldl (fun out s => out ++ s.text) "$"

instance : ToString Path := ⟨text⟩

end Path

end SchemaPack
