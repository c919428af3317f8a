import SchemaPack.Toml.Number

/-!
The values of TOML. Arrays may go over several lines; inline tables may not, and neither may be
nested too deep. An inline table is closed: no key is set in it twice, and only tables that its own
dotted keys made may be extended by them.
-/
namespace SchemaPack.Toml

/-- The items of an array from behind its bracket, at most so many. A comma may stand behind the
last one. -/
def arrayItems (value : Scan Node) : (fuel : Nat) → List Node → Scan (List Node)
  | 0, _, _ => none
  | fuel + 1, items, text =>
    match skipFiller false text with
    | ']' :: rest => some (items.reverse, rest)
    | start =>
      match value start with
      | none => none
      | some (item, rest) =>
        match skipFiller false rest with
        | ',' :: more => arrayItems value fuel (item :: items) more
        | ']' :: more => some ((item :: items).reverse, more)
        | _ => none

def setInline (value : Node) : List String → Entries → Option Entries
  | [], _ => none
  | [last], entries =>
    match entries.get? last with
    | none => some (entries.put last value)
    | some _ => none
  | part :: parts, entries =>
    match entries.get? part with
    | none => (setInline value parts []).map fun inner => entries.put part (.table .dotted inner)
    | some (.table .dotted inner) =>
      (setInline value parts inner).map fun inner => entries.put part (.table .dotted inner)
    | some _ => none

def keyValue (value : Scan Node) : Scan (List String × Node) := fun text => do
  let (path, rest) ← key text
  match rest with
  | '=' :: more =>
    let (v, behind) ← value (skipBlanks more)
    return ((path, v), behind)
  | _ => none

def inlineEntries (value : Scan Node) : (fuel : Nat) → Entries → Scan Entries
  | 0, _, _ => none
  | fuel + 1, entries, text =>
    match keyValue value text with
    | none => none
    | some ((path, v), rest) =>
      match setInline v path entries with
      | none => none
      | some entries =>
        match skipBlanks rest with
        | ',' :: more => inlineEntries value fuel entries more
        | '}' :: more => some (entries, more)
        | _ => none

/-- A value, with room for so many levels of arrays and inline tables. -/
def valueWithin : (room : Nat) → Scan Node
  | 0, _ => none
  | room + 1, text =>
    match text with
    | '[' :: rest =>
      if room = 0 then none
      else
        (arrayItems (valueWithin room) (rest.length + 1) [] rest).map fun (items, behind) =>
          (.array items, behind)
    | '{' :: rest =>
      if room = 0 then none
      else
        match skipBlanks rest with
        | '}' :: more => some (.inlineTable [], more)
        | start =>
          (inlineEntries (valueWithin room) (start.length + 1) [] start).map
            fun (entries, behind) => (.inlineTable entries, behind)
    | 't' :: 'r' :: 'u' :: 'e' :: rest => some (.boolean true, rest)
    | 'f' :: 'a' :: 'l' :: 's' :: 'e' :: rest => some (.boolean false, rest)
    | '"' :: _ | '\'' :: _ => (string? text).map fun (s, rest) => (.string s, rest)
    | _ => numeric text

def value : Scan Node := valueWithin nestingLimit

end SchemaPack.Toml
