import SchemaPack.Error.Basic
import SchemaPack.Policy
import SchemaPack.Tag

/-!
Compiled codecs. The codec of a type holds a routine for writing and one for reading; a routine
reaches the codecs of the types inside through edges, and an edge finds its codec by its type in
the library of published codecs. So a codec is plain data, and recursive types need no cycle.
-/
namespace SchemaPack

open Wire (Cursor Format)

/-- How an edge came about. A deferred edge leads back to a type that was still being compiled, a
poisoned one to a type that failed. -/
inductive Link
  | ready
  | deferred
  | poisoned
  deriving DecidableEq, Repr

structure Edge where
  type : Ty
  link : Link
  deriving DecidableEq

/-- What a read knows of the value it is about to take: the name of the field it stands in, how
deep it lies, and what the caller asked for. -/
structure Scope where
  name : String
  depth : Nat
  policy : Policy
  maxDepth : Nat
  deriving DecidableEq, Repr

namespace Scope

def rootName : String := "<root>"

def root (policy : Policy) (maxDepth : Nat) : Scope := ⟨rootName, 0, policy, maxDepth⟩

def child (s : Scope) (name : String) : Scope := { s with name, depth := s.depth + 1 }

/-- How many levels, this one included, the limit leaves. -/
def room (s : Scope) : Nat := s.maxDepth + 1 - s.depth

def fail (s : Scope) (target : Ty) (fault : ReadFault) : CodecError :=
  .ofReadFault s.name target fault

end Scope

/-- How a kind of tuple names its items and reports a wrong number of them. -/
structure TupleStyle where
  wrongCount : Ty → (values : List Value) → WriteFault
  wrongLength : (expected actual : Nat) → Format → ReadFault
  itemName : Nat → String
  segment : Nat → Segment

def TupleStyle.standard : TupleStyle where
  wrongCount type values := .tupleArity type values.length
  wrongLength expected actual _ := .arityMismatch expected actual
  itemName i := s!"Item{i + 1}"
  segment i := .item i

structure Alternative where
  type : Ty
  tag : String
  edge : Edge
  deriving DecidableEq

/-- One field of a record. The default is what a payload without the field stands for. -/
structure FieldPlan where
  name : String
  edge : Edge
  default : Option Value

/-- A type whose values hold no others, with an encoding of its own. -/
structure Leaf where
  write : Value → Except WriteFault (List UInt8)
  read : Scope → Cursor → Except ReadFault Value × Cursor

/-- What the values of a type are made of. The same plan serves for writing and for reading. -/
inductive Routine
  | primitive (p : Primitive)
  | bytes
  | decimal
  | version
  | tuple (style : TupleStyle) (items : List Edge)
  | union (nullable : Bool) (alternatives : List Alternative)
  | list (element : Edge)
  | map (key value : Edge)
  | record (name : TypeName) (fields : List FieldPlan)
  /-- Nil stands for null, and all else goes to the codec of the inner type. -/
  | nullable (inner : Edge)
  | leaf (codec : Leaf)

def Routine.edges : Routine → List Edge
  | tuple _ items => items
  | union _ alternatives => alternatives.map (·.edge)
  | list element => [element]
  | map key value => [key, value]
  | record _ fields => fields.map (·.edge)
  | nullable inner => [inner]
  | primitive _ | bytes | decimal | version | leaf _ => []

structure CompiledCodec where
  type : Ty
  /-- The provider that planned the routines. -/
  provider : String
  writer : Routine
  reader : Routine

/-- The published codecs, the first published first. -/
structure Library where
  codecs : List CompiledCodec := []

namespace Library

def find? (lib : Library) (type : Ty) : Option CompiledCodec :=
  lib.codecs.find? (·.type == type)

def contains (lib : Library) (type : Ty) : Bool := lib.codecs.any (·.type == type)

def size (lib : Library) : Nat := lib.codecs.length

def serial? (lib : Library) (type : Ty) : Option Nat := lib.codecs.findIdx? (·.type == type)

/-- The codec that an edge leads to. A deferred edge was given while its type was being compiled.
The session that publishes the codec with the edge publishes the one of the type as well, and no
type is published twice, so the codec that is found is the one that came of that work, whatever has
been published since (`Handover.resolve_deferred`). -/
def resolve (lib : Library) (type : Ty) (link : Link) : Except InternalError CompiledCodec :=
  match link with
  | .poisoned => .error (.poisonedRoutine type)
  | .ready | .deferred =>
    match lib.find? type with
    | some c => .ok c
    | none => .error (.unresolvedDeferredCodec type)

end Library

/-- Where a value goes that enters at an edge: it is null, it is for a codec that is no mere wrapper
for null, or the way is broken. -/
inductive Landing
  | absent
  | codec (c : CompiledCodec)
  | broken (e : InternalError)

/-- Follows an edge through wrappers for null. Each wrapper takes one nullable off the type. -/
def Library.land (lib : Library) (routine : CompiledCodec → Routine) (isAbsent : Bool) :
    Ty → Link → Landing
  | .nullable inner, link =>
    match lib.resolve (.nullable inner) link with
    | .error e => .broken e
    | .ok c =>
      match routine c with
      | .nullable edge => if isAbsent then .absent else land lib routine isAbsent inner edge.link
      | _ => .codec c
  | t, link =>
    match lib.resolve t link with
    | .error e => .broken e
    | .ok c => .codec c

end SchemaPack
