import SchemaPack.Toml.Value

/-!
TOML documents: lines that set keys, and headers that open tables. A table may be opened once, and a
table that a dotted key made may not be opened at all; a header may name a table whose inner tables
have been opened before it.
-/
namespace SchemaPack.Toml

structure Table where
  origin : Origin
  entries : Entries

/-- Changes the table at the end of a path. Tables missing on the way are made, dotted ones for a
dotted key and implied ones for a header. A dotted key may not go into a table with a header of its
own; an array of tables stands for its latest table. -/
def changeAt (isDotted : Bool) (change : Table → Option Table) : List String → Table → Option Table
  | [], t => change t
  | part :: parts, t =>
    match t.entries.get? part with
    | none => do
      let inner ← changeAt isDotted change parts ⟨if isDotted then .dotted else .implied, []⟩
      return { t with entries := t.entries.put part (.table inner.origin inner.entries) }
    | some (.table origin entries) =>
      if isDotted && origin = .defined then none
      else do
        let inner ← changeAt isDotted change parts ⟨origin, entries⟩
        return { t with entries := t.entries.put part (.table inner.origin inner.entries) }
    | some (.tables (latest :: earlier)) => do
      let inner ← changeAt isDotted change parts ⟨.defined, latest⟩
      return { t with entries := t.entries.put part (.tables (inner.entries :: earlier)) }
    | some _ => none

/-- Sets the value of a key. A dotted key sets it in a table that dotted keys made. -/
def setKey (path : List String) (v : Node) (t : Table) : Option Table :=
  match path.getLast? with
  | none => none
  | some last =>
    let parents := path.dropLast
    changeAt true (fun parent =>
      if !parents.isEmpty && parent.origin ≠ .dotted then none
      else
        match parent.entries.get? last with
        | none => some { parent with entries := parent.entries.put last v }
        | some _ => none) parents t

/-- A document being read: the tables closed so far, and the table that keys are set in, with its
path and whether it is one of an array. -/
structure Draft where
  root : Table := ⟨.defined, []⟩
  path : List String := []
  isItem : Bool := false
  current : Table := ⟨.defined, []⟩

namespace Draft

def close (d : Draft) : Option Table :=
  match d.path.getLast? with
  | none => some d.current
  | some last =>
    changeAt false (fun parent =>
      if d.isItem then
        match parent.entries.get? last with
        | none =>
          some { parent with entries := parent.entries.put last (.tables [d.current.entries]) }
        | some (.tables items) =>
          some { parent with
            entries := parent.entries.put last (.tables (d.current.entries :: items)) }
        | some _ => none
      else
        match parent.entries.get? last with
        | none =>
          some { parent with
            entries := parent.entries.put last (.table .defined d.current.entries) }
        | some _ => none) d.path.dropLast d.root

/-- Opens a table by its header. A table that was only implied is taken up again. -/
def openTable (d : Draft) (path : List String) : Option Draft :=
  match d.close, path.getLast? with
  | some root, some last => do
    let root ← changeAt false some path.dropLast root
    let parent ← lookup path.dropLast root.entries
    match parent.get? last with
    | none => return { root, path, current := ⟨.defined, []⟩ }
    | some (.table .implied entries) => do
      let root ← changeAt false
        (fun t => some { t with entries := t.entries.erase last }) path.dropLast root
      return { root, path, current := ⟨.defined, entries⟩ }
    | some _ => none
  | _, _ => none
where
  /-- The entries of the table at the end of a path. -/
  lookup : List String → Entries → Option Entries
    | [], entries => some entries
    | part :: parts, entries =>
      match entries.get? part with
      | some (.table _ inner) => lookup parts inner
      | some (.tables (latest :: _)) => lookup parts latest
      | _ => none

def openItem (d : Draft) (path : List String) : Option Draft :=
  match d.close, path.getLast? with
  | some root, some last => do
    let root ← changeAt false
      (fun parent =>
        match parent.entries.get? last with
        | none => some { parent with entries := parent.entries.put last (.tables []) }
        | some (.tables _) => some parent
        | some _ => none) path.dropLast root
    return { root, path, isItem := true, current := ⟨.defined, []⟩ }
  | _, _ => none

end Draft

def header (d : Draft) : List Char → Option (Draft × List Char)
  | '[' :: text => do
    match ← key text with
    | (path, ']' :: ']' :: rest) => return (← d.openItem path, ← endOfLine? rest)
    | _ => none
  | text => do
    match ← key text with
    | (path, ']' :: rest) => return (← d.openTable path, ← endOfLine? rest)
    | _ => none

def lines : (fuel : Nat) → Draft → List Char → Option Draft
  | 0, _, _ => none
  | fuel + 1, d, text =>
    match skipBlanks text with
    | [] => some d
    | '[' :: rest =>
      match header d rest with
      | some (d, behind) => lines fuel d behind
      | none => none
    | start =>
      match endOfLine? start with
      | some behind => lines fuel d behind
      | none =>
        match keyValue value start with
        | none => none
        | some ((path, v), rest) =>
          match setKey path v d.current, endOfLine? rest with
          | some current, some behind => lines fuel { d with current } behind
          | _, _ => none

/-- Reads a document; a byte order mark may stand in front. -/
def parse (text : String) : Option Entries :=
  let body := match text.toList with
    | '\uFEFF' :: rest => rest
    | chars => chars
  match lines (body.length + 1) {} body with
  | some d => d.close.map (·.entries)
  | none => none

end SchemaPack.Toml
