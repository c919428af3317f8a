import SchemaPack.Config.Document

/-!
A configuration from layers: the standard values, a file, and the environment, the later ones over
the earlier. The case of letters in keys does not matter. A table is merged into what is there:
it adds to a table and replaces anything else, but without entries it changes nothing. Values are
taken generously: a limit may be a float, a truth value or a text. The merging and the conversions
are those of the library (config) that builds configurations from layers; the layers, the names of
the settings and the final check are the codecs' own.
-/
namespace SchemaPack.Config

open Toml (Node Entries)

/-- The lower case of a letter. Outside ASCII only the Kelvin sign has an ASCII letter for its lower
case, and no other such character can be part of a known name. -/
def lowerChar (c : Char) : Char := if c = '\u212a' then 'k' else c.toLower

def lowered (text : String) : String := String.ofList (text.toList.map lowerChar)

/-! ## Setting values -/

mutual

/-- A value as it becomes when it is set where another may stand. -/
def merge (present : Option Node) : Node → Node
  | .inlineTable entries => mergeTable present entries
  | .table _ entries => mergeTable present entries
  | node => node
termination_by structural node => node

def mergeTable (present : Option Node) : List (String × Node) → Node
  | [] => present.getD (.inlineTable [])
  | (name, node) :: rest =>
    let entries : Entries := (present.bind Node.entries?).getD []
    mergeTable
      (some (.inlineTable (entries.put (lowered name) (merge (entries.get? (lowered name)) node))))
      rest
termination_by structural entries => entries

end

/-- A step into a setting: to an entry of a table, or to an item of a list. -/
inductive Step
  | entry (name : String)
  | item

/-- Sets a value some steps further in. What stands in the way is replaced. -/
def place (v : Node) : List Step → Option Node → Node
  | [], present => merge present v
  | .entry name :: steps, present =>
    let entries : Entries := (present.bind Node.entries?).getD []
    .inlineTable (entries.put name (place v steps (entries.get? name)))
  | .item :: steps, _ => .array [place v steps none]

def isNameChar (c : Char) : Bool := c.isAlphanum || c == '_' || c == '-' || c == ' '

/-- The steps behind the first name of a key: `.name` and `[number]`. -/
def steps? : (fuel : Nat) → List Char → Option (List Step)
  | _, [] => some []
  | 0, _ => none
  | fuel + 1, '.' :: rest =>
    let name := rest.takeWhile isNameChar
    if name.isEmpty then none
    else (steps? fuel (rest.dropWhile isNameChar)).map (.entry (String.ofList name) :: ·)
  | fuel + 1, '[' :: rest =>
    let digits := if rest.head? = some '-' then rest.tail else rest
    match digits.takeWhile Char.isDigit, digits.dropWhile Char.isDigit with
    | _ :: _, ']' :: behind => (steps? fuel behind).map (.item :: ·)
    | _, _ => none
  | _, _ => none

/-- A key as its first name and the steps from there. What is no such path is one name. -/
def keyPath (key : String) : String × List Step :=
  let chars := (lowered key).toList
  let name := chars.takeWhile isNameChar
  if name.isEmpty then (lowered key, [])
  else
    match steps? chars.length (chars.dropWhile isNameChar) with
    | some steps => (String.ofList name, steps)
    | none => (lowered key, [])

def set (settings : Entries) (key : String) (v : Node) : Entries :=
  let (name, steps) := keyPath key
  settings.put name (place v steps (settings.get? name))

def setAll (settings : Entries) (layer : Entries) : Entries :=
  layer.foldl (fun settings (key, v) => set settings key v) settings

/-! ## The environment -/

/-- Variables whose names start with this, in any case of letters, are settings. -/
def environmentStart : String := "packwright_"

def dotted : List Char → List Char
  | '_' :: '_' :: rest => '.' :: dotted rest
  | c :: rest => c :: dotted rest
  | [] => []

def variableKey? (name : String) : Option String :=
  let start := environmentStart.toList
  let chars := name.toList
  if (chars.take start.length).map lowerChar = start then
    some (String.ofList (dotted (chars.drop start.length)))
  else
    none

/-- The value of a variable: a truth value, an integer of 64 bits, a float, or else a text. -/
def variableValue (text : String) : Node :=
  let word := lowered text
  if word = "true" then .boolean true
  else if word = "false" then .boolean false
  else
    let number : Node := match Double.parse? text.toList with
      | some x => .float x
      | none => .string text
    match Double.signed? text.toList with
    | some n => if -0x8000000000000000 ≤ n ∧ n < 0x8000000000000000 then .integer n else number
    | none => number

def ofEnvironment (bindings : List (String × String)) : Entries :=
  bindings.filterMap fun (name, text) =>
    (variableKey? name).map fun key => (key, variableValue text)

/-! ## Loading -/

def settings (c : Config) : Entries :=
  [("default_behaviour", .string c.defaultPolicy.name), ("max_depth", .integer c.maxDepth),
    ("max_compile_depth", .integer c.maxCompileDepth)]

/-- A policy is given by its name, or by a table with its name as the only key; case does not
matter. -/
def generousPolicy? : Node → Option Policy
  | .string s => Policy.ofName? (lowered s)
  | node =>
    match node.entries? with
    | some [(name, _)] => Policy.ofName? (lowered name)
    | _ => none

/-- The words that stand for one and for zero, and else digits after an optional plus sign. -/
def wordLimit? (word : String) : Option Nat :=
  if word = "true" ∨ word = "on" ∨ word = "yes" then some 1
  else if word = "false" ∨ word = "off" ∨ word = "no" then some 0
  else
    let digits := match word.toList with
      | '+' :: rest => rest
      | chars => chars
    if digits.isEmpty || !digits.all Char.isDigit then none
    else
      let n := Nat.ofDigitChars 10 digits 0
      if n < limitBound then some n else none

/-- A limit may be given as any kind of scalar; a float is rounded to a whole number. -/
def generousLimit? : Node → Option Nat
  | .integer n => if 0 ≤ n then some n.toNat else none
  | .float x => some (x.toNatBelow limitBound)
  | .boolean b => some (if b then 1 else 0)
  | .string s => wordLimit? (lowered s)
  | _ => none

/-- The file of a load: none asked for, one that is not there, or its text. -/
inductive Source
  | absent
  | missing
  | text (content : String)

def Source.entries? : Source → Option Entries
  | absent => some []
  | missing => none
  | text content => Toml.parse content

def load (file : Source) (bindings : List (String × String)) : Except ConfigError Config :=
  match file.entries? with
  | none => .error .unbuildable
  | some entries =>
    let settings := setAll (setAll (settings {}) entries) (ofEnvironment bindings)
    match ofEntries? generousPolicy? generousLimit? settings with
    | none => .error .undeserializable
    | some c => c.validate

end SchemaPack.Config
