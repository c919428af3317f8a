import SchemaPack.Name

/-!
Types of the data model. A type is a finite tree compared structurally; records are leaves that
carry only a name, so a record may refer to itself through the catalog that declares it.
-/
namespace SchemaPack

inductive IntType
  | u8 | i8 | i16 | u16 | i32 | u32 | i64 | u64
  deriving DecidableEq, Repr

namespace IntType

def signed : IntType → Bool
  | i8 | i16 | i32 | i64 => true
  | u8 | u16 | u32 | u64 => false

def bits : IntType → Nat
  | u8 | i8 => 8
  | i16 | u16 => 16
  | i32 | u32 => 32
  | i64 | u64 => 64

def min : IntType → Int
  | u8 | u16 | u32 | u64 => 0
  | i8 => -128
  | i16 => -32768
  | i32 => -2147483648
  | i64 => -9223372036854775808

def max : IntType → Int
  | u8 => 255
  | i8 => 127
  | i16 => 32767
  | u16 => 65535
  | i32 => 2147483647
  | u32 => 4294967295
  | i64 => 9223372036854775807
  | u64 => 18446744073709551615

def name : IntType → String
  | u8 => "u8"
  | i8 => "i8"
  | i16 => "i16"
  | u16 => "u16"
  | i32 => "i32"
  | u32 => "u32"
  | i64 => "i64"
  | u64 => "u64"

end IntType

inductive Primitive
  | bool
  | int (type : IntType)
  | f32
  | f64
  | string
  deriving DecidableEq, Repr

namespace Primitive

def all : List Primitive :=
  [bool, int .u8, int .i8, int .i16, int .u16, int .i32, int .u32, int .i64, int .u64,
    f32, f64, string]

def name : Primitive → String
  | bool => "bool"
  | int t => t.name
  | f32 => "f32"
  | f64 => "f64"
  | string => "string"

def isInteger : Primitive → Bool
  | int _ => true
  | _ => false

end Primitive

/-- The shapes a codec can be compiled for. -/
inductive Ty
  | primitive (p : Primitive)
  | bytes
  | decimal
  | version
  | tuple (items : List Ty)
  | union (alternatives : List Ty)
  | list (element : Ty)
  | map (key value : Ty)
  | nullable (inner : Ty)
  | record (name : TypeName)

namespace Ty

/-- Induction on types, with one hypothesis for every type inside. -/
@[induction_eliminator]
theorem induction {motive : Ty → Prop}
    (primitive : ∀ p, motive (.primitive p)) (bytes : motive .bytes)
    (decimal : motive .decimal) (version : motive .version)
    (tuple : ∀ items, (∀ t ∈ items, motive t) → motive (.tuple items))
    (union : ∀ alternatives, (∀ t ∈ alternatives, motive t) → motive (.union alternatives))
    (list : ∀ element, motive element → motive (.list element))
    (map : ∀ key value, motive key → motive value → motive (.map key value))
    (nullable : ∀ inner, motive inner → motive (.nullable inner))
    (record : ∀ name, motive (.record name)) : ∀ t, motive t :=
  @Ty.rec motive (fun ts => ∀ t ∈ ts, motive t)
    primitive bytes decimal version tuple union list map nullable record
    (fun _ h => nomatch h)
    (fun _ _ head tail t h => (List.mem_cons.mp h).elim (fun e => e ▸ head) (tail t))

mutual

def decEq : (a b : Ty) → Decidable (a = b)
  | .primitive p, b =>
    match b with
    | .primitive q => decidable_of_iff (p = q) (by simp)
    | .bytes | .decimal | .version | .tuple _ | .union _ | .list _ | .map _ _ | .nullable _
    | .record _ => isFalse nofun
  | .bytes, b =>
    match b with
    | .bytes => isTrue rfl
    | .primitive _ | .decimal | .version | .tuple _ | .union _ | .list _ | .map _ _
    | .nullable _ | .record _ => isFalse nofun
  | .decimal, b =>
    match b with
    | .decimal => isTrue rfl
    | .primitive _ | .bytes | .version | .tuple _ | .union _ | .list _ | .map _ _
    | .nullable _ | .record _ => isFalse nofun
  | .version, b =>
    match b with
    | .version => isTrue rfl
    | .primitive _ | .bytes | .decimal | .tuple _ | .union _ | .list _ | .map _ _
    | .nullable _ | .record _ => isFalse nofun
  | .tuple xs, b =>
    match b with
    | .tuple ys =>
      match decEqList xs ys with
      | isTrue h => isTrue (congrArg tuple h)
      | isFalse h => isFalse fun e => h (tuple.inj e)
    | .primitive _ | .bytes | .decimal | .version | .union _ | .list _ | .map _ _ | .nullable _
    | .record _ => isFalse nofun
  | .union xs, b =>
    match b with
    | .union ys =>
      match decEqList xs ys with
      | isTrue h => isTrue (congrArg union h)
      | isFalse h => isFalse fun e => h (union.inj e)
    | .primitive _ | .bytes | .decimal | .version | .tuple _ | .list _ | .map _ _ | .nullable _
    | .record _ => isFalse nofun
  | .list x, b =>
    match b with
    | .list y =>
      match decEq x y with
      | isTrue h => isTrue (congrArg list h)
      | isFalse h => isFalse fun e => h (list.inj e)
    | .primitive _ | .bytes | .decimal | .version | .tuple _ | .union _ | .map _ _ | .nullable _
    | .record _ => isFalse nofun
  | .map k x, b =>
    match b with
    | .map l y =>
      match decEq k l, decEq x y with
      | isTrue hk, isTrue hx => isTrue (by rw [hk, hx])
      | isFalse h, _ => isFalse fun e => h (map.inj e).1
      | _, isFalse h => isFalse fun e => h (map.inj e).2
    | .primitive _ | .bytes | .decimal | .version | .tuple _ | .union _ | .list _ | .nullable _
    | .record _ => isFalse nofun
  | .nullable x, b =>
    match b with
    | .nullable y =>
      match decEq x y with
      | isTrue h => isTrue (congrArg nullable h)
      | isFalse h => isFalse fun e => h (nullable.inj e)
    | .primitive _ | .bytes | .decimal | .version | .tuple _ | .union _ | .list _ | .map _ _
    | .record _ => isFalse nofun
  | .record n, b =>
    match b with
    | .record m => decidable_of_iff (n = m) (by simp)
    | .primitive _ | .bytes | .decimal | .version | .tuple _ | .union _ | .list _ | .map _ _
    | .nullable _ => isFalse nofun
termination_by structural t => t

def decEqList : (xs ys : List Ty) → Decidable (xs = ys)
  | [], [] => isTrue rfl
  | [], _ :: _ => isFalse nofun
  | _ :: _, [] => isFalse nofun
  | x :: xs, y :: ys =>
    match decEq x y, decEqList xs ys with
    | isTrue hx, isTrue hxs => isTrue (by rw [hx, hxs])
    | isFalse h, _ => isFalse fun e => h (List.cons.inj e).1
    | _, isFalse h => isFalse fun e => h (List.cons.inj e).2
termination_by structural t => t

end

instance : DecidableEq Ty := decEq

def isTuple : Ty → Bool
  | tuple _ => true
  | _ => false

def isUnion : Ty → Bool
  | union _ => true
  | _ => false

def isNullable : Ty → Bool
  | nullable _ => true
  | _ => false

/-- The type without its outer nullables. -/
def required : Ty → Ty
  | nullable inner => required inner
  | t => t

/-- The types a type is built from, in order; a record has none. -/
def arguments : Ty → List Ty
  | tuple items => items
  | union alternatives => alternatives
  | list element => [element]
  | nullable inner => [inner]
  | map key value => [key, value]
  | primitive _ | bytes | decimal | version | record _ => []

mutual

/-- The spelling used in messages. A tuple of one item keeps a comma, as in `(i32,)`. -/
def text : Ty → String
  | primitive p => p.name
  | bytes => "bytes"
  | decimal => "decimal"
  | version => "version"
  | tuple [item] => "(" ++ text item ++ ",)"
  | tuple items => "(" ++ String.intercalate ", " (texts items) ++ ")"
  | union alternatives => "union<" ++ String.intercalate ", " (texts alternatives) ++ ">"
  | list element => "list<" ++ text element ++ ">"
  | map key value => "map<" ++ text key ++ ", " ++ text value ++ ">"
  | nullable inner => text inner ++ "?"
  | record name => name.text
termination_by structural t => t

def texts : List Ty → List String
  | [] => []
  | t :: rest => text t :: texts rest
termination_by structural t => t

end

instance : ToString Ty := ⟨text⟩

end Ty

end SchemaPack
