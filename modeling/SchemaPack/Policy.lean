/-!
What a read does with a field that the payload has and the record does not declare.
-/
namespace SchemaPack

/-- Refuse the payload, or pass over the field and its value. -/
inductive Policy
  | throw
  | ignore
  deriving DecidableEq, Repr, Inhabited

structure UnknownPolicy where
  text : String
  deriving DecidableEq

def UnknownPolicy.message (e : UnknownPolicy) : String :=
  s!"unknown unexpected-field behaviour \"{e.text}\", expected throw or ignore"

namespace Policy

def standard : Policy := throw

def name : Policy → String
  | throw => "throw"
  | ignore => "ignore"

def ofName? (text : String) : Option Policy :=
  if text = "throw" then some throw
  else if text = "ignore" then some ignore
  else none

/-- Reads a policy; the case of ASCII letters does not matter. -/
def parse (text : String) : Except UnknownPolicy Policy :=
  let lowered := String.ofList (text.toList.map Char.toLower)
  match ofName? lowered with
  | some p => .ok p
  | none => .error ⟨lowered⟩

end Policy

end SchemaPack
