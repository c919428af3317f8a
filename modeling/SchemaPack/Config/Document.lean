import SchemaPack.Config.Basic
import SchemaPack.Toml.Document

/-!
A configuration from one TOML document. Keys that are absent keep their standard values, and keys of
other names are passed over.
-/
namespace SchemaPack.Config

open Toml (Node Entries)

def isEmptyNode : Node → Bool
  | .array [] | .inlineTable [] | .table _ [] | .tables [] => true
  | _ => false

/-- A policy is given by its name, or by a table with its name as the only key and nothing in it. -/
def policyOfNode? : Node → Option Policy
  | .string s => Policy.ofName? s
  | node =>
    match node.entries? with
    | some [(name, inner)] => if isEmptyNode inner then Policy.ofName? name else none
    | _ => none

def limitOfNode? : Node → Option Nat
  | .integer n => if 0 ≤ n then some n.toNat else none
  | _ => none

def field? {α : Type} (entries : Entries) (key : String) (standard : α) (read : Node → Option α) :
    Option α :=
  match entries.get? key with
  | none => some standard
  | some node => read node

def ofEntries? (policy : Node → Option Policy) (limit : Node → Option Nat) (entries : Entries) :
    Option Config := do
  let standard : Config := {}
  return {
    defaultPolicy := ← field? entries "default_behaviour" standard.defaultPolicy policy
    maxDepth := ← field? entries "max_depth" standard.maxDepth limit
    maxCompileDepth := ← field? entries "max_compile_depth" standard.maxCompileDepth limit }

def ofToml (text : String) : Except ConfigError Config :=
  match (Toml.parse text).bind (ofEntries? policyOfNode? limitOfNode?) with
  | some c => c.validate
  | none => .error .unparsable

end SchemaPack.Config
