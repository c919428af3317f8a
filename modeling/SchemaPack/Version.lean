/-!
Version numbers of two to four components, written with dots between them. Trailing components
that are absent are not written, so `1.2` and `1.2.0` are different versions. A component is held
in 32 bits, but only components up to `Version.maxComponent` may travel.
-/
namespace SchemaPack

/-- Two to four components, the most significant first. -/
structure Version where
  components : List UInt32
  two_le_length : 2 ≤ components.length := by decide
  length_le_four : components.length ≤ 4 := by decide
  deriving DecidableEq, Repr

inductive VersionError
  | componentCount (input : String) (count : Nat)
  | invalidComponent (input component : String)
  | componentOutOfRange (input : String) (component : UInt32)
  deriving DecidableEq, Repr

namespace Version

/-- Every peer holds a component in a signed 32-bit word. -/
def maxComponent : UInt32 := 2147483647

def ofComponents? (components : List UInt32) : Option Version :=
  if h : 2 ≤ components.length ∧ components.length ≤ 4 then
    some ⟨components, h.1, h.2⟩
  else
    none

def major (v : Version) : UInt32 :=
  v.components.get ⟨0, Nat.lt_of_lt_of_le (by decide) v.two_le_length⟩

def minor (v : Version) : UInt32 :=
  v.components.get ⟨1, Nat.lt_of_lt_of_le (by decide) v.two_le_length⟩

def build (v : Version) : Option UInt32 := v.components[2]?

def revision (v : Version) : Option UInt32 := v.components[3]?

/-- Versions are ordered by their components in turn; an absent component comes first. -/
instance : Ord Version := ⟨fun a b => compare a.components b.components⟩

def text (v : Version) : String :=
  String.intercalate "." (v.components.map fun c => toString c.toNat)

instance : ToString Version := ⟨text⟩

def checkRange (v : Version) : Except VersionError Unit :=
  match v.components.find? (maxComponent < ·) with
  | some component => .error (.componentOutOfRange v.text component)
  | none => .ok ()

/-- A component is one or more ASCII digits whose number fits 32 bits. -/
def component? (digits : List Char) : Option UInt32 :=
  if digits ≠ [] ∧ digits.all Char.isDigit then
    let n := Nat.ofDigitChars 10 digits 0
    if h : n < UInt32.size then some (UInt32.ofNatLT n h) else none
  else
    none

def readComponents (input : String) : List (List Char) → Except VersionError (List UInt32)
  | [] => .ok []
  | part :: rest =>
    match component? part with
    | none => .error (.invalidComponent input (String.ofList part))
    | some c =>
      match readComponents input rest with
      | .ok cs => .ok (c :: cs)
      | .error e => .error e

theorem length_readComponents {input : String} {parts : List (List Char)} {cs : List UInt32}
    (h : readComponents input parts = .ok cs) : cs.length = parts.length := by
  induction parts generalizing cs with
  | nil => cases h; rfl
  | cons part rest ih =>
    simp only [readComponents] at h
    split at h
    · cases h
    · split at h
      · rename_i hrest
        cases h
        simp [ih hrest]
      · cases h

/-- Reads a version. A wrong number of parts is reported before a bad part, and a bad part before
a component that is out of range; the last error shows the version as it would be written. -/
def parse (input : String) : Except VersionError Version :=
  let parts := input.toList.splitOn '.'
  if hcount : 2 ≤ parts.length ∧ parts.length ≤ 4 then
    match h : readComponents input parts with
    | .error e => .error e
    | .ok cs =>
      have hlength := length_readComponents h
      let v : Version := ⟨cs, by omega, by omega⟩
      match v.checkRange with
      | .ok () => .ok v
      | .error e => .error e
  else
    .error (.componentCount input parts.length)

end Version

namespace VersionError

def message : VersionError → String
  | componentCount input count =>
    s!"Version \"{input}\" has {count} components, expected between 2 and 4"
  | invalidComponent input component =>
    s!"Version \"{input}\" has invalid component \"{component}\""
  | componentOutOfRange input component =>
    s!"Version \"{input}\" has component {component} above {Version.maxComponent}"

end VersionError

end SchemaPack
