import SchemaPack.Decimal.Basic
import SchemaPack.FloatBits
import SchemaPack.Ty
import SchemaPack.Version

/-!
Values that codecs write and read. Every type has one shape of value. A record value is a finite
map from field names to values; its entries are kept in strictly increasing order of the names,
which `insert` maintains and `Canonical` states.
-/
namespace SchemaPack

abbrev IntType.Range (t : IntType) : Type := { n : Int // t.min ≤ n ∧ n ≤ t.max }

def IntType.ofInt? (t : IntType) (n : Int) : Option t.Range :=
  if h : t.min ≤ n ∧ n ≤ t.max then some ⟨n, h⟩ else none

inductive Value
  | null
  | bool (b : Bool)
  | int (type : IntType) (n : type.Range)
  | f32 (bits : UInt32)
  | f64 (bits : UInt64)
  | string (s : String)
  | bytes (data : List UInt8)
  | decimal (d : Decimal)
  | version (v : Version)
  | tuple (items : List Value)
  | union (alternative : Ty) (held : Value)
  | list (items : List Value)
  | map (entries : List (Value × Value))
  | record (fields : List (String × Value))

namespace Value

/-- Induction on values, with one hypothesis for every value inside. -/
@[induction_eliminator]
theorem induction {motive : Value → Prop}
    (null : motive .null) (bool : ∀ b, motive (.bool b)) (int : ∀ t n, motive (.int t n))
    (f32 : ∀ bits, motive (.f32 bits)) (f64 : ∀ bits, motive (.f64 bits))
    (string : ∀ s, motive (.string s)) (bytes : ∀ data, motive (.bytes data))
    (decimal : ∀ d, motive (.decimal d)) (version : ∀ v, motive (.version v))
    (tuple : ∀ items, (∀ x ∈ items, motive x) → motive (.tuple items))
    (union : ∀ alternative held, motive held → motive (.union alternative held))
    (list : ∀ items, (∀ x ∈ items, motive x) → motive (.list items))
    (map : ∀ entries, (∀ e ∈ entries, motive e.1 ∧ motive e.2) → motive (.map entries))
    (record : ∀ fields, (∀ f ∈ fields, motive f.2) → motive (.record fields)) :
    ∀ v, motive v :=
  @Value.rec motive (fun xs => ∀ x ∈ xs, motive x) (fun es => ∀ e ∈ es, motive e.1 ∧ motive e.2)
    (fun fs => ∀ f ∈ fs, motive f.2) (fun e => motive e.1 ∧ motive e.2) (fun f => motive f.2)
    null bool int f32 f64 string bytes decimal version tuple union list map record
    (fun _ h => nomatch h)
    (fun _ _ head tail x h => (List.mem_cons.mp h).elim (fun e => e ▸ head) (tail x))
    (fun _ h => nomatch h)
    (fun _ _ head tail x h => (List.mem_cons.mp h).elim (fun e => e ▸ head) (tail x))
    (fun _ h => nomatch h)
    (fun _ _ head tail x h => (List.mem_cons.mp h).elim (fun e => e ▸ head) (tail x))
    (fun _ _ hk hv => ⟨hk, hv⟩)
    (fun _ _ hv => hv)

def kind : Value → String
  | null => "null"
  | bool _ => "bool"
  | int t _ => t.name
  | f32 _ => "f32"
  | f64 _ => "f64"
  | string _ => "string"
  | bytes _ => "bytes"
  | decimal _ => "decimal"
  | version _ => "version"
  | tuple _ => "tuple"
  | union _ _ => "union"
  | list _ => "list"
  | map _ => "map"
  | record _ => "record"

def isNull : Value → Bool
  | null => true
  | _ => false

def string? : Value → Option String
  | string s => some s
  | _ => none

def list? : Value → Option (List Value)
  | list items => some items
  | _ => none

def record? : Value → Option (List (String × Value))
  | record fields => some fields
  | _ => none

end Value

/-! ## Fields of a record value -/

namespace Fields

variable {α : Type}

/-- Puts a field in its place; a field of that name is replaced. -/
def insert (name : String) (value : α) : List (String × α) → List (String × α)
  | [] => [(name, value)]
  | (n, v) :: rest =>
    if name < n then (name, value) :: (n, v) :: rest
    else if name = n then (name, value) :: rest
    else (n, v) :: insert name value rest

def get? (name : String) (fields : List (String × α)) : Option α :=
  (fields.find? (·.1 == name)).map (·.2)

def contains (name : String) (fields : List (String × α)) : Bool :=
  fields.any (·.1 == name)

def names (fields : List (String × α)) : List String := fields.map (·.1)

def Sorted (fields : List (String × α)) : Prop := (names fields).Pairwise (· < ·)

theorem mem_insert {name n : String} {value v : α} {fields : List (String × α)}
    (h : (n, v) ∈ insert name value fields) : (n, v) = (name, value) ∨ (n, v) ∈ fields := by
  induction fields with
  | nil => exact .inl (List.mem_singleton.mp h)
  | cons f rest ih =>
    obtain ⟨m, w⟩ := f
    simp only [insert] at h
    split at h
    · exact List.mem_cons.mp h
    · split at h
      · exact (List.mem_cons.mp h).imp_right (List.mem_cons_of_mem _)
      · rcases List.mem_cons.mp h with e | h
        · exact .inr (e ▸ List.mem_cons_self)
        · exact (ih h).imp_right (List.mem_cons_of_mem _)

theorem sorted_nil : Sorted ([] : List (String × α)) := List.Pairwise.nil

theorem sorted_cons {n : String} {v : α} {rest : List (String × α)} :
    Sorted ((n, v) :: rest) ↔ (∀ f ∈ rest, n < f.1) ∧ Sorted rest := by
  simp [Sorted, names, List.pairwise_cons]

theorem sorted_insert {name : String} {value : α} {fields : List (String × α)}
    (h : Sorted fields) : Sorted (insert name value fields) := by
  induction fields with
  | nil => simp [insert, Sorted, names]
  | cons f rest ih =>
    obtain ⟨n, v⟩ := f
    obtain ⟨hn, hrest⟩ := sorted_cons.mp h
    simp only [insert]
    split
    · rename_i hlt
      refine sorted_cons.mpr ⟨fun g hg => ?_, h⟩
      rcases List.mem_cons.mp hg with rfl | hg
      · exact hlt
      · exact String.lt_trans hlt (hn g hg)
    · split
      · rename_i heq
        subst heq
        exact sorted_cons.mpr ⟨hn, hrest⟩
      · rename_i hnlt hne
        refine sorted_cons.mpr ⟨fun g hg => ?_, ih hrest⟩
        rcases mem_insert (n := g.1) (v := g.2) hg with e | hg
        · have hname : g.1 = name := congrArg Prod.fst e
          rw [hname]
          exact Std.lt_of_le_of_ne (String.not_lt.mp hnlt) (Ne.symm hne)
        · exact hn g hg

end Fields

/-! ## Canonical values -/

namespace Value

mutual

/-- Every record inside has its fields in order. -/
def Canonical : Value → Prop
  | .null | .bool _ | .int _ _ | .f32 _ | .f64 _ | .string _ | .bytes _ | .decimal _
  | .version _ => True
  | .tuple items => AllCanonical items
  | .union _ held => Canonical held
  | .list items => AllCanonical items
  | .map entries => EntriesCanonical entries
  | .record fields => Fields.Sorted fields ∧ FieldsCanonical fields
termination_by structural v => v

def AllCanonical : List Value → Prop
  | [] => True
  | x :: rest => Canonical x ∧ AllCanonical rest
termination_by structural v => v

def EntriesCanonical : List (Value × Value) → Prop
  | [] => True
  | (k, v) :: rest => Canonical k ∧ Canonical v ∧ EntriesCanonical rest
termination_by structural v => v

def FieldsCanonical : List (String × Value) → Prop
  | [] => True
  | (_, v) :: rest => Canonical v ∧ FieldsCanonical rest
termination_by structural v => v

end

/-! ## Equality -/

mutual

/-- Equality of data: floats compare as numbers, decimals regardless of their scale, map entries
in order, and all else by structure. -/
def same : Value → Value → Bool
  | .null, .null => true
  | .bool a, .bool b => a == b
  | .int s a, .int t b => s == t && a.val == b.val
  | .f32 a, .f32 b => FloatBits.equal32 a b
  | .f64 a, .f64 b => FloatBits.equal64 a b
  | .string a, .string b => a == b
  | .bytes a, .bytes b => a == b
  | .decimal a, .decimal b => a.sameNumber b
  | .version a, .version b => decide (a = b)
  | .tuple xs, .tuple ys => sameItems xs ys
  | .union s x, .union t y => decide (s = t) && same x y
  | .list xs, .list ys => sameItems xs ys
  | .map xs, .map ys => sameEntries xs ys
  | .record xs, .record ys => sameFields xs ys
  | _, _ => false
termination_by structural x => x

def sameItems : List Value → List Value → Bool
  | [], [] => true
  | x :: xs, y :: ys => same x y && sameItems xs ys
  | _, _ => false
termination_by structural x => x

def sameEntries : List (Value × Value) → List (Value × Value) → Bool
  | [], [] => true
  | (k, x) :: xs, (l, y) :: ys => same k l && same x y && sameEntries xs ys
  | _, _ => false
termination_by structural x => x

def sameFields : List (String × Value) → List (String × Value) → Bool
  | [], [] => true
  | (n, x) :: xs, (m, y) :: ys => n == m && same x y && sameFields xs ys
  | _, _ => false
termination_by structural x => x

end

end Value

end SchemaPack
