import SchemaPack.Ty

/-!
Type tags. A union value travels as its alternative's tag and the value, so the tag of every type
is part of the format that peers share. Type arguments are joined by a comma without a blank, and
a record of the namespace `System` goes by its short name.
-/
namespace SchemaPack

def Primitive.tag : Primitive → String
  | .bool => "Boolean"
  | .int .u8 => "Byte"
  | .int .i8 => "SByte"
  | .int .i16 => "Int16"
  | .int .u16 => "UInt16"
  | .int .i32 => "Int32"
  | .int .u32 => "UInt32"
  | .int .i64 => "Int64"
  | .int .u64 => "UInt64"
  | .f32 => "Single"
  | .f64 => "Double"
  | .string => "String"

def TypeName.tag (name : TypeName) : String :=
  if name.qualifier = some "System" then name.simple else name.text

namespace Ty

mutual

def tag : Ty → String
  | primitive p => p.tag
  | bytes => "System.ArraySegment<Byte>"
  | decimal => "Decimal"
  | version => "Version"
  | tuple items => "System.Tuple<" ++ tags items ++ ">"
  | union alternatives => "Union<" ++ tags alternatives ++ ">"
  | list element => "[" ++ tag element ++ "]"
  | map key value => "(" ++ tag key ++ "=>" ++ tag value ++ ")"
  | nullable inner => "System.Nullable<" ++ tag inner ++ ">"
  | record name => name.tag
termination_by structural t => t

def tags : List Ty → String
  | [] => ""
  | t :: rest => tag t ++ moreTags rest
termination_by structural types => types

def moreTags : List Ty → String
  | [] => ""
  | t :: rest => "," ++ tag t ++ moreTags rest
termination_by structural types => types

end

end Ty

end SchemaPack
