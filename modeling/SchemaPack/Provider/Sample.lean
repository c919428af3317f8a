import SchemaPack.Provider.Basic

/-!
Providers for types that the built-in ones do not serve, or serve in another way. Each can be put
ahead of the built-in providers.
-/
namespace SchemaPack.Provider

open Wire

def readWith {α : Type} (take : Cursor → Option (α × Cursor)) (value : α → Value)
    (expected : String) (c : Cursor) : Except ReadFault Value × Cursor :=
  match take c with
  | some (a, after) => (.ok (value a), after)
  | none => (.error (.unexpectedFormat expected c.peek), c)

def ofLeaf (name : String) (type : Ty) (wraps : Bool) (leaf : Leaf) : Provider where
  name
  accepts t _ := t == type
  wrapsNull _ := wraps
  writer _ _ := .constant (.leaf leaf)

def celsiusType : Ty := .record ⟨"Acme.Celsius"⟩

def celsius : Provider := ofLeaf "Celsius" celsiusType true
  { write := fun
      | .f64 bits => .ok (Encoding.f64 bits)
      | v => .error (.mismatch celsiusType v)
    read := fun _ => readWith Cursor.f64? .f64 "Double" }

/-- Digits after an optional sign, as a number of 32 bits. -/
def decimalText? (text : List Char) : Option IntType.i32.Range :=
  let (negative, digits) := match text with
    | '-' :: rest => (true, rest)
    | '+' :: rest => (false, rest)
    | _ => (false, text)
  if digits.isEmpty || !digits.all Char.isDigit then none
  else
    let n := Nat.ofDigitChars 10 digits 0
    IntType.i32.ofInt? (if negative then -(n : Int) else n)

def textIntType : Ty := .primitive (.int .i32)

/-- A number as its decimal text. The text is consumed even if it is not a number. -/
def textInt : Provider := ofLeaf "TextInt" textIntType true
  { write := fun
      | .int .i32 n =>
        let text := toString n.val
        .ok (Encoding.strHeader text.utf8ByteSize ++ utf8 text)
      | v => .error (.mismatch textIntType v)
    read := fun _ c =>
      match c.string? with
      | none => (.error (.unexpectedFormat "decimal text" c.peek), c)
      | some (text, after) =>
        match decimalText? text.toList with
        | some n => (.ok (.int .i32 n), after)
        | none => (.error (.unexpectedFormat "decimal text" c.peek), after) }

def noNullType : Ty := .record ⟨"Acme.NoNull"⟩

def noNull : Provider := ofLeaf "NoNull" noNullType false
  { write := fun
      | .bool b => .ok (Encoding.bool b)
      | v => .error (.mismatch noNullType v)
    read := fun _ => readWith Cursor.bool? .bool "Boolean" }

/-- Takes the records of the namespace `Broken` that are not declared, and fails on each of them
with two problems. -/
def broken : Provider where
  name := "Broken"
  accepts type c :=
    match type with
    | .record name => name.qualifier == some "Broken" && !c.contains name
    | _ => false
  writer type _ :=
    { steps := [.report (.depthLimitExceeded type ·)]
      finish := fun _ => .error (.unsupportedType type) }

def wideStyle : TupleStyle where
  wrongCount type values := .mismatch type (.tuple values)
  wrongLength _ _ actual := .expectedArrayEncoding actual
  itemName _ := "slot"
  segment i := .index i

/-- The tuples that are too long for the built-in provider, and the empty one. Their items are asked
for indirectly. -/
def wide : Provider where
  name := "Wide"
  accepts type _ :=
    match type with
    | .tuple items => items.length = 0 || 7 < items.length
    | _ => false
  writer type _ :=
    match type with
    | .tuple items =>
      { steps := items.map (.request · true)
        finish := fun edges => .ok (.tuple wideStyle edges) }
    | _ => .failure (.unsupportedType type)

/-- The codec of a type that writes nil for every value, and reads a text that tells in which scope
it was asked. -/
def constantCodec (type : Ty) : CompiledCodec :=
  let routine := Routine.leaf
    { write := fun _ => .ok Encoding.nil
      read := fun scope c =>
        (.ok (.string s!"{scope.name}@{scope.depth} {type}"), (c.nil?).getD c) }
  ⟨type, "Constant", routine, routine⟩

end SchemaPack.Provider
