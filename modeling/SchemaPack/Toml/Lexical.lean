import SchemaPack.Toml.Node

/-!
The lexical level of TOML: blanks, comments, strings and keys. A step takes characters off the front
of the text, or fails; why it fails is not told.
-/
namespace SchemaPack.Toml

abbrev Scan (α : Type) := List Char → Option (α × List Char)

def isBlank (c : Char) : Bool := c == ' ' || c == '\t'

/-- The characters of a comment or a string; control characters other than the tab are not. -/
def isPlain (c : Char) : Bool := c == '\t' || (' ' ≤ c && c != '\x7f')

def skipBlanks (text : List Char) : List Char := text.dropWhile isBlank

def lineBreak? : List Char → Option (List Char)
  | '\n' :: rest => some rest
  | '\r' :: '\n' :: rest => some rest
  | _ => none

/-- The end of a line after its content: blanks and a comment, then a line break or the end. -/
def endOfLine? (text : List Char) : Option (List Char) :=
  let rest := skipBlanks text
  let rest := if rest.head? = some '#' then rest.dropWhile isPlain else rest
  if rest.isEmpty then some [] else lineBreak? rest

def skipFiller (inComment : Bool) : List Char → List Char
  | [] => []
  | '\n' :: rest => skipFiller false rest
  | '\r' :: '\n' :: rest => skipFiller false rest
  | c :: rest =>
    if inComment then if isPlain c then skipFiller true rest else c :: rest
    else if isBlank c then skipFiller false rest
    else if c = '#' then skipFiller true rest
    else c :: rest

/-! ## Strings -/

def hexValue? (c : Char) : Option Nat :=
  if '0' ≤ c ∧ c ≤ '9' then some (c.toNat - 48)
  else if 'a' ≤ c ∧ c ≤ 'f' then some (c.toNat - 87)
  else if 'A' ≤ c ∧ c ≤ 'F' then some (c.toNat - 55)
  else none

def codePoint? (digits : List Char) : Option Char := do
  let n ← digits.foldlM (fun n c => (hexValue? c).map (n * 16 + ·)) 0
  if n.isValidChar then some (Char.ofNat n) else none

def shortEscape? : Char → Option Char
  | 'b' => some '\x08'
  | 't' => some '\t'
  | 'n' => some '\n'
  | 'f' => some '\x0c'
  | 'r' => some '\r'
  | '"' => some '"'
  | '\\' => some '\\'
  | _ => none

def basicString (out : List Char) : Scan String
  | '"' :: rest => some (String.ofList out.reverse, rest)
  | '\\' :: 'u' :: a :: b :: c :: d :: rest =>
    match codePoint? [a, b, c, d] with
    | some x => basicString (x :: out) rest
    | none => none
  | '\\' :: 'U' :: a :: b :: c :: d :: e :: f :: g :: h :: rest =>
    match codePoint? [a, b, c, d, e, f, g, h] with
    | some x => basicString (x :: out) rest
    | none => none
  | '\\' :: c :: rest =>
    match shortEscape? c with
    | some x => basicString (x :: out) rest
    | none => none
  | c :: rest => if isPlain c && c != '\\' then basicString (c :: out) rest else none
  | [] => none

def literalString (out : List Char) : Scan String
  | '\'' :: rest => some (String.ofList out.reverse, rest)
  | c :: rest => if isPlain c then literalString (c :: out) rest else none
  | [] => none

/-- Inside a string of several lines: in the text, between a backslash and the end of its line, or
in the blank space that a backslash at the end of a line takes away. -/
inductive Fold
  | text
  | lineEnd
  | gap
  deriving DecidableEq

/-- A string in three double quotes, from behind the opening ones. Up to two quotes may stand before
the closing three. -/
def longBasicString (fold : Fold) (out : List Char) : Scan String
  | [] => none
  | '\n' :: rest =>
    if fold = .text then longBasicString .text ('\n' :: out) rest
    else longBasicString .gap out rest
  | '\r' :: '\n' :: rest =>
    if fold = .text then longBasicString .text ('\n' :: out) rest
    else longBasicString .gap out rest
  | '"' :: '"' :: '"' :: '"' :: '"' :: rest =>
    if fold = .lineEnd then none else some (String.ofList ('"' :: '"' :: out).reverse, rest)
  | '"' :: '"' :: '"' :: '"' :: rest =>
    if fold = .lineEnd then none else some (String.ofList ('"' :: out).reverse, rest)
  | '"' :: '"' :: '"' :: rest =>
    if fold = .lineEnd then none else some (String.ofList out.reverse, rest)
  | '\\' :: 'u' :: a :: b :: c :: d :: rest =>
    match codePoint? [a, b, c, d] with
    | some x => if fold = .lineEnd then none else longBasicString .text (x :: out) rest
    | none => none
  | '\\' :: 'U' :: a :: b :: c :: d :: e :: f :: g :: h :: rest =>
    match codePoint? [a, b, c, d, e, f, g, h] with
    | some x => if fold = .lineEnd then none else longBasicString .text (x :: out) rest
    | none => none
  | '\\' :: '\n' :: rest => if fold = .lineEnd then none else longBasicString .gap out rest
  | '\\' :: '\r' :: '\n' :: rest =>
    if fold = .lineEnd then none else longBasicString .gap out rest
  | '\\' :: c :: rest =>
    if fold = .lineEnd then none
    else if isBlank c then longBasicString .lineEnd out rest
    else
      match shortEscape? c with
      | some x => longBasicString .text (x :: out) rest
      | none => none
  | c :: rest =>
    if isBlank c && fold ≠ .text then longBasicString fold out rest
    else if isPlain c && c != '\\' && fold ≠ .lineEnd then longBasicString .text (c :: out) rest
    else none

def longLiteralString (out : List Char) : Scan String
  | '\'' :: '\'' :: '\'' :: '\'' :: '\'' :: rest =>
    some (String.ofList ('\'' :: '\'' :: out).reverse, rest)
  | '\'' :: '\'' :: '\'' :: '\'' :: rest => some (String.ofList ('\'' :: out).reverse, rest)
  | '\'' :: '\'' :: '\'' :: rest => some (String.ofList out.reverse, rest)
  | '\n' :: rest => longLiteralString ('\n' :: out) rest
  | '\r' :: '\n' :: rest => longLiteralString ('\n' :: out) rest
  | c :: rest => if isPlain c then longLiteralString (c :: out) rest else none
  | [] => none

/-- A line break straight behind the opening quotes does not count. -/
def skipFirstBreak (text : List Char) : List Char := (lineBreak? text).getD text

def string? : Scan String
  | '"' :: '"' :: '"' :: rest => longBasicString .text [] (skipFirstBreak rest)
  | '\'' :: '\'' :: '\'' :: rest => longLiteralString [] (skipFirstBreak rest)
  | '"' :: rest => basicString [] rest
  | '\'' :: rest => literalString [] rest
  | _ => none

/-! ## Keys -/

def isBare (c : Char) : Bool := c.isAlphanum || c == '_' || c == '-'

/-- One part of a key: quoted, or bare letters, digits, underscores and dashes. -/
def simpleKey : Scan String
  | '"' :: rest => basicString [] rest
  | '\'' :: rest => literalString [] rest
  | text =>
    let bare := text.takeWhile isBare
    if bare.isEmpty then none else some (String.ofList bare, text.dropWhile isBare)

/-- How deep keys, arrays and inline tables may nest. -/
def nestingLimit : Nat := 80

/-- So many parts of a key at most, with dots between them and blanks around them. -/
def keyParts : (room : Nat) → Scan (List String)
  | 0, _ => none
  | room + 1, text =>
    match simpleKey (skipBlanks text) with
    | none => none
    | some (part, rest) =>
      match skipBlanks rest with
      | '.' :: more =>
        match keyParts room more with
        | some (parts, behind) => some (part :: parts, behind)
        | none => none
      | behind => some ([part], behind)

def key : Scan (List String) := keyParts (nestingLimit - 1)

end SchemaPack.Toml
