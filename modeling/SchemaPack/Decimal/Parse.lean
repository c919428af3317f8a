import SchemaPack.Decimal.Basic

/-!
Reading decimals. The digits are read from the left into a mantissa; a decimal that does not fit,
because its mantissa is full or because 28 decimals are taken, is rounded at that digit and the
digits after it are only checked. An underscore may stand after the first digit. A power of ten
may follow, and is folded into the scale where it fits.

All of this is the behaviour of the library (rust_decimal) whose numbers the values hold, down to
where it rounds and what it gives for a reason. Codecs rely on it for reading what it has written,
and pass its reasons on.
-/
namespace SchemaPack

-- the powers of the core library, also where Mathlib has its own
attribute [local instance (high)] instPowNat

inductive DecimalError
  | empty
  | noDigits
  | twoPoints
  | leadingUnderscore
  | unknownCharacter
  | tooManyDigits
  | roundedOver
  | badExponent
  | scaleTooLarge (exponent : Nat)
  | tooLarge
  deriving DecidableEq, Repr

namespace DecimalError

def message : DecimalError → String
  | empty => "Invalid decimal: empty"
  | noDigits => "Invalid decimal: no digits found"
  | twoPoints => "Invalid decimal: two decimal points"
  | leadingUnderscore => "Invalid decimal: must start lead with a number"
  | unknownCharacter => "Invalid decimal: unknown character"
  | tooManyDigits => "Invalid decimal: overflow from too many digits"
  | roundedOver => "Invalid decimal: overflow from mantissa after rounding"
  | badExponent => "Failed to parse"
  | scaleTooLarge exponent =>
    s!"Scale exceeds the maximum precision allowed: {exponent} > {Decimal.maxScale}"
  | tooLarge => "Number exceeds maximum value that can be represented."

end DecimalError

namespace Decimal

/-- What has been read so far: the digits, how many of them are decimals, and whether the point
and any digit have been seen. -/
structure Scan where
  mantissa : Nat := 0
  scale : Nat := 0
  point : Bool := false
  digits : Bool := false
  deriving DecidableEq, Repr

def digit? (c : Char) : Option Nat :=
  if c.isDigit then some (c.toNat - '0'.toNat) else none

/-- From this mantissa on, underscores in front of the digit that decides the rounding are passed
over; below it the first of them counts as a zero. -/
def wideMantissa : Nat := 1844674407370954906

/-- After rounding, only digits and underscores may follow. -/
def checkTail : List Char → Except DecimalError Unit
  | [] => .ok ()
  | c :: rest =>
    if c.isDigit || c = '_' then checkTail rest
    else if c = '.' then .error .twoPoints
    else .error .unknownCharacter

/-- The digit that decides the rounding; an underscore counts as zero. -/
def roundingDigit (c : Char) : Except DecimalError Nat :=
  match digit? c with
  | some d => .ok d
  | none =>
    if c = '_' then .ok 0
    else if c = '.' then .error .twoPoints
    else .error .unknownCharacter

/-- A mantissa one too large is brought back by giving up a decimal. -/
def incremented (s : Scan) : Except DecimalError Scan :=
  if s.mantissa + 1 < mantissaBound then
    .ok { s with mantissa := s.mantissa + 1 }
  else if s.scale = 0 then
    .error .roundedOver
  else
    .ok { s with mantissa := (s.mantissa + 1 + 4) / 10, scale := s.scale - 1 }

/-- Rounds half up at the first of the remaining characters and checks the others. -/
def roundOff (s : Scan) : List Char → Except DecimalError Scan
  | [] => .ok s
  | c :: rest => do
    let d ← roundingDigit c
    let rounded ← if 5 ≤ d then incremented s else .ok s
    checkTail rest
    return rounded

/-- Reads digits, the point and underscores until the text ends or has to be rounded. -/
def scan (s : Scan) : List Char → Except DecimalError Scan
  | [] => .ok s
  | c :: rest =>
    match digit? c with
    | some d =>
      let mantissa := s.mantissa * 10 + d
      if mantissa < mantissaBound then
        let accepted : Scan :=
          { s with mantissa, scale := if s.point then s.scale + 1 else s.scale, digits := true }
        if s.point && maxScale ≤ accepted.scale then
          roundOff accepted (if s.mantissa < wideMantissa then rest else rest.dropWhile (· == '_'))
        else
          scan accepted rest
      else if s.point then
        roundOff s (c :: rest)
      else
        .error .tooManyDigits
    | none =>
      if c = '.' then
        if s.point then .error .twoPoints else scan { s with point := true } rest
      else if c = '_' then
        if s.digits then scan s rest else .error .leadingUnderscore
      else
        .error .unknownCharacter

def splitSign : List Char → Bool × List Char
  | '-' :: rest => (true, rest)
  | '+' :: rest => (false, rest)
  | text => (false, text)

def ofMagnitude (negative : Bool) (magnitude scale : Nat) : Except DecimalError Decimal :=
  match ofParts? (if negative then -(magnitude : Int) else magnitude) scale with
  | some d => .ok d
  | none => .error .tooLarge

def parsePlain (text : List Char) : Except DecimalError Decimal :=
  if text.isEmpty then
    .error .empty
  else do
    let (negative, body) := splitSign text
    let s ← scan {} body
    if s.digits then ofMagnitude negative s.mantissa s.scale else .error .noDigits

/-- Digits of a number below `2 ^ 32`, after an optional plus sign. -/
def exponentMagnitude? (text : List Char) : Option Nat :=
  let digits := match text with
    | '+' :: rest => rest
    | _ => text
  if digits.isEmpty || !digits.all Char.isDigit then none
  else
    let n := Nat.ofDigitChars 10 digits 0
    if n < UInt32.size then some n else none

def divideHalfUp (n d : Nat) : Nat := (2 * n + d) / (2 * d)

/-- The decimal over `10 ^ exponent`, rounded half away from zero to 28 decimals. -/
def scaledDown (d : Decimal) (exponent : Nat) : Except DecimalError Decimal :=
  if maxScale < exponent then
    .error (.scaleTooLarge exponent)
  else if d.scale + exponent ≤ maxScale then
    ofMagnitude (d.mantissa < 0) d.mantissa.natAbs (d.scale + exponent)
  else
    let excess := d.scale + exponent - maxScale
    ofMagnitude (d.mantissa < 0) (divideHalfUp d.mantissa.natAbs (10 ^ excess)) maxScale

/-- The decimal times `10 ^ exponent`; its decimals are used up first. -/
def scaledUp (d : Decimal) (exponent : Nat) : Except DecimalError Decimal :=
  if exponent ≤ d.scale then
    ofMagnitude (d.mantissa < 0) d.mantissa.natAbs (d.scale - exponent)
  else if maxScale < exponent then
    .error (.scaleTooLarge exponent)
  else
    ofMagnitude (d.mantissa < 0) (d.mantissa.natAbs * 10 ^ (exponent - d.scale)) 0

def isExponentMark (c : Char) : Bool := c == 'e' || c == 'E'

/-- Reads a decimal with an exponent, which starts at the first mark. -/
def parseScientific (text : List Char) : Except DecimalError Decimal := do
  let base ← parsePlain (text.takeWhile (!isExponentMark ·))
  let (negative, digits) := match (text.dropWhile (!isExponentMark ·)).drop 1 with
    | '-' :: rest => (true, rest)
    | rest => (false, rest)
  match exponentMagnitude? digits with
  | none => .error .badExponent
  | some exponent => if negative then base.scaledDown exponent else base.scaledUp exponent

/-- Reads a decimal. The plain form is tried first; a text without an exponent mark keeps its
error. -/
def parseChars (text : List Char) : Except DecimalError Decimal :=
  match parsePlain text with
  | .ok d => .ok d
  | .error e => if text.any isExponentMark then parseScientific text else .error e

def parse (text : String) : Except DecimalError Decimal := parseChars text.toList

end Decimal

end SchemaPack
