import SchemaPack.Policy

/-!
The limits and defaults of a codec context. The standard ones suit input that is not trusted.
-/
namespace SchemaPack

structure Config where
  /-- The policy of codecs that are requested without one. -/
  defaultPolicy : Policy := .standard
  /-- How deep containers may nest in what is read. -/
  maxDepth : Nat := 128
  /-- How deep types may nest in one compile session. -/
  maxCompileDepth : Nat := 64
  deriving DecidableEq, Repr

inductive ConfigError
  | unparsable
  | unbuildable
  | undeserializable
  | zeroDepth
  | zeroCompileDepth
  deriving DecidableEq, Repr

namespace ConfigError

def message : ConfigError → String
  | unparsable => "Failed to parse codec configuration"
  | unbuildable => "Failed to build codec configuration"
  | undeserializable => "Failed to deserialize codec configuration"
  | zeroDepth => "max_depth must be at least 1"
  | zeroCompileDepth => "max_compile_depth must be at least 1"

end ConfigError

namespace Config

/-- A limit of zero would admit nothing. -/
def validate (c : Config) : Except ConfigError Config :=
  if c.maxDepth = 0 then .error .zeroDepth
  else if c.maxCompileDepth = 0 then .error .zeroCompileDepth
  else .ok c

/-- One more than the greatest limit. -/
def limitBound : Nat := UInt64.size

end Config

end SchemaPack
