import SchemaPack.Toml.Lexical

/-!
Numbers, dates and times of TOML. Underscores may stand between digits only, and a decimal number
starts with no zero. A date or a time has to exist, but which one it is does not matter here.
-/
namespace SchemaPack.Toml

/-- Digits with single underscores between them, without the underscores. -/
def groupedDigits (isDigit : Char → Bool) : Scan (List Char) := fun text =>
  let isPart (c : Char) : Bool := isDigit c || c == '_'
  let run := text.takeWhile isPart
  if (run.splitOn '_').all (!·.isEmpty) then
    some (run.filter (· != '_'), text.dropWhile isPart)
  else
    none

def sign : List Char → Bool × List Char
  | '-' :: rest => (true, rest)
  | '+' :: rest => (false, rest)
  | text => (false, text)

/-- Decimal digits; a zero in front stands alone. -/
def decimalDigits : Scan (List Char)
  | '0' :: rest => some (['0'], rest)
  | text => groupedDigits Char.isDigit text

def isOctal (c : Char) : Bool := '0' ≤ c && c ≤ '7'

def isBinary (c : Char) : Bool := c == '0' || c == '1'

def valueIn (base : Nat) (digits : List Char) : Nat :=
  digits.foldl (fun n c => n * base + (hexValue? c).getD 0) 0

/-- Integers are of 64 bits. -/
def ofMagnitude (negative : Bool) (n : Nat) : Option Node :=
  let value : Int := if negative then -n else n
  if -0x8000000000000000 ≤ value ∧ value < 0x8000000000000000 then some (.integer value) else none

def prefixed (base : Nat) (isDigit : Char → Bool) : Scan Node := fun text => do
  let (digits, rest) ← groupedDigits isDigit text
  return (← ofMagnitude false (valueIn base digits), rest)

def integer : Scan Node
  | '0' :: 'x' :: rest => prefixed 16 (fun c => (hexValue? c).isSome) rest
  | '0' :: 'o' :: rest => prefixed 8 isOctal rest
  | '0' :: 'b' :: rest => prefixed 2 isBinary rest
  | text => do
    let (negative, body) := sign text
    let (digits, rest) ← decimalDigits body
    return (← ofMagnitude negative (valueIn 10 digits), rest)

/-! ## Floats -/

def namedFloat (negative : Bool) : Scan Node
  | 'i' :: 'n' :: 'f' :: rest => some (.float (.infinity negative), rest)
  | 'n' :: 'a' :: 'n' :: rest => some (.float .nan, rest)
  | _ => none

/-- The exponent of a float, if one follows; zeros may stand in front of it. -/
def exponent : Scan (Option Int)
  | c :: rest =>
    if c = 'e' ∨ c = 'E' then
      let (negative, body) := sign rest
      match groupedDigits Char.isDigit body with
      | some (digits, behind) =>
        let n : Int := valueIn 10 digits
        some (some (if negative then -n else n), behind)
      | none => none
    else
      some (none, c :: rest)
  | [] => some (none, [])

/-- A float that is too great to be held is refused. -/
def ofDouble (x : Double) : Option Node :=
  if x = .infinity false then none else some (.float x)

def float : Scan Node := fun text =>
  let (negative, body) := sign text
  match namedFloat negative body with
  | some found => some found
  | none => do
    let (whole, rest) ← decimalDigits body
    match rest with
    | '.' :: more =>
      let (decimals, rest) ← groupedDigits Char.isDigit more
      let (e, rest) ← exponent rest
      let mantissa := valueIn 10 (whole ++ decimals)
      let x := Double.ofDecimal negative mantissa (e.getD 0 - decimals.length)
      return (← ofDouble x, rest)
    | _ =>
      match ← exponent rest with
      | (some e, rest) => return (← ofDouble (Double.ofDecimal negative (valueIn 10 whole) e), rest)
      | (none, _) => none

/-! ## Dates and times -/

def twoDigits (low high : Nat) : Scan Nat
  | a :: b :: rest =>
    if a.isDigit && b.isDigit then
      let n := valueIn 10 [a, b]
      if low ≤ n ∧ n ≤ high then some (n, rest) else none
    else
      none
  | _ => none

def isLeap (year : Nat) : Bool := year % 4 == 0 && (year % 100 != 0 || year % 400 == 0)

def daysIn (year month : Nat) : Nat :=
  if month = 2 then if isLeap year then 29 else 28
  else if month = 4 ∨ month = 6 ∨ month = 9 ∨ month = 11 then 30
  else 31

def date : Scan Unit
  | a :: b :: c :: d :: '-' :: rest =>
    if [a, b, c, d].all Char.isDigit then do
      match ← twoDigits 1 12 rest with
      | (month, '-' :: more) =>
        let (_, behind) ← twoDigits 1 (daysIn (valueIn 10 [a, b, c, d]) month) more
        return ((), behind)
      | _ => none
    else
      none
  | _ => none

/-- A time of day with seconds; a leap second is allowed. -/
def time : Scan Unit := fun text => do
  match ← twoDigits 0 23 text with
  | (_, ':' :: rest) =>
    match ← twoDigits 0 59 rest with
    | (_, ':' :: rest) =>
      let (_, rest) ← twoDigits 0 60 rest
      match rest with
      | '.' :: more =>
        if (more.takeWhile Char.isDigit).isEmpty then none
        else some ((), more.dropWhile Char.isDigit)
      | _ => some ((), rest)
    | _ => none
  | _ => none

def offset : Scan Unit
  | c :: rest =>
    if c = 'Z' ∨ c = 'z' then some ((), rest)
    else if c = '+' ∨ c = '-' then do
      match ← twoDigits 0 23 rest with
      | (_, ':' :: more) =>
        let (_, behind) ← twoDigits 0 59 more
        return ((), behind)
      | _ => none
    else
      some ((), c :: rest)
  | [] => some ((), [])

/-- A date, a time, or both with a `T` or one blank between them and perhaps an offset behind. -/
def moment : Scan Node := fun text =>
  match date text with
  | some (_, rest) =>
    match rest with
    | c :: more =>
      if c = 'T' ∨ c = 't' ∨ c = ' ' then
        match time more with
        | some (_, behind) => (offset behind).map fun (_, behind) => (.moment, behind)
        | none => some (.moment, rest)
      else
        some (.moment, rest)
    | [] => some (.moment, rest)
  | none => (time text).map fun (_, rest) => (.moment, rest)

/-- A number, a date or a time: what starts with a digit or a sign. -/
def numeric : Scan Node := fun text => (moment text).or ((float text).or (integer text))

end SchemaPack.Toml
