import SchemaPack.Wire.Encoding
import SchemaPack.Wire.Marker

/-!
A position in an input. Every read either takes a whole value, or a whole header, of the form it is
for and gives the cursor behind it, or gives nothing. So a failed read has moved nowhere, and the
class of the next value can still be reported.

Relied on here is how the library (rmp) that takes values apart reads MessagePack: an integer in
every form that there is, as long as the number fits what is asked for, and a length in every form
of its family; a float in the form of its own width only. That a failed read moves nowhere is made
sure of by the codecs themselves.
-/
namespace SchemaPack.Wire

/-- How many bytes have been taken, and the bytes that follow. -/
structure Cursor where
  position : Nat := 0
  rest : List UInt8
  deriving DecidableEq, Repr

/-- Moves bytes one by one onto the reversed front; nothing if there are too few. -/
def splitExactly : Nat → List UInt8 → List UInt8 → Option (List UInt8 × List UInt8)
  | 0, front, rest => some (front.reverse, rest)
  | _ + 1, _, [] => none
  | n + 1, front, b :: rest => splitExactly n (b :: front) rest

theorem splitExactly_eq (n : Nat) (front rest : List UInt8) :
    splitExactly n front rest =
      if n ≤ rest.length then some (front.reverse ++ rest.take n, rest.drop n) else none := by
  induction n generalizing front rest with
  | zero => simp [splitExactly]
  | succ n ih =>
    cases rest with
    | nil => simp [splitExactly]
    | cons b rest => simp [splitExactly, ih]

namespace Cursor

def ofBytes (bytes : List UInt8) : Cursor := { rest := bytes }

def remaining (c : Cursor) : Nat := c.rest.length

def take? (c : Cursor) (n : Nat) : Option (List UInt8 × Cursor) :=
  match splitExactly n [] c.rest with
  | some (taken, rest) => some (taken, ⟨c.position + n, rest⟩)
  | none => none

theorem take?_eq_some {c after : Cursor} {n : Nat} {bytes : List UInt8} :
    c.take? n = some (bytes, after) ↔
      bytes.length = n ∧ c.rest = bytes ++ after.rest ∧ after.position = c.position + n := by
  obtain ⟨position, rest⟩ := after
  rw [take?, splitExactly_eq]
  constructor
  · intro h
    split at h
    · rename_i hsplit
      cases h
      split at hsplit
      · rename_i hroom
        cases hsplit
        exact ⟨by rw [List.reverse_nil, List.nil_append, List.length_take, Nat.min_eq_left hroom],
          (List.take_append_drop n c.rest).symm, rfl⟩
      · cases hsplit
    · cases h
  · rintro ⟨rfl, hrest, rfl⟩
    have hroom : bytes.length ≤ c.rest.length := by
      rw [hrest, List.length_append]
      exact Nat.le_add_right _ _
    rw [if_pos hroom, hrest, List.take_left, List.drop_left]
    rfl

theorem take?_eq_none {c : Cursor} {n : Nat} : c.take? n = none ↔ c.rest.length < n := by
  rw [take?, splitExactly_eq]
  by_cases h : n ≤ c.rest.length
  · simp [h]
  · simp [h, Nat.lt_of_not_le h]

def marker? (c : Cursor) : Option (Marker × Cursor) :=
  match c.rest with
  | [] => none
  | b :: rest => some (.ofByte b, ⟨c.position + 1, rest⟩)

def peek (c : Cursor) : Format :=
  match c.rest with
  | [] => .endOfInput
  | b :: _ => (Marker.ofByte b).format

def word? (c : Cursor) (width : Nat) : Option (Nat × Cursor) :=
  (c.take? width).map fun (bytes, after) => (bigEndianValue bytes, after)

def length? (c : Cursor) : Length → Option (Nat × Cursor)
  | .inline n => some (n, c)
  | .following width => c.word? width

def nil? (c : Cursor) : Option Cursor :=
  match c.marker? with
  | some (.nil, after) => some after
  | _ => none

def bool? (c : Cursor) : Option (Bool × Cursor) :=
  match c.marker? with
  | some (.bool b, after) => some (b, after)
  | _ => none

def int? (c : Cursor) : Option (Int × Cursor) :=
  match c.marker? with
  | some (.fixint n, after) => some (n, after)
  | some (.uint width, after) => (after.word? width).map fun (n, behind) => ((n : Int), behind)
  | some (.sint width, after) =>
    (after.word? width).map fun (n, behind) => (signedValue width n, behind)
  | _ => none

def intWithin? (c : Cursor) (low high : Int) : Option (Int × Cursor) :=
  match c.int? with
  | some (n, after) => if low ≤ n ∧ n ≤ high then some (n, after) else none
  | none => none

def f32? (c : Cursor) : Option (UInt32 × Cursor) :=
  match c.marker? with
  | some (.f32, after) => (after.word? 4).map fun (n, behind) => (UInt32.ofNat n, behind)
  | _ => none

def f64? (c : Cursor) : Option (UInt64 × Cursor) :=
  match c.marker? with
  | some (.f64, after) => (after.word? 8).map fun (n, behind) => (UInt64.ofNat n, behind)
  | _ => none

def strBytes? (c : Cursor) : Option (List UInt8 × Cursor) :=
  match c.marker? with
  | some (.str length, after) =>
    match after.length? length with
    | some (n, behind) => behind.take? n
    | none => none
  | _ => none

def string? (c : Cursor) : Option (String × Cursor) :=
  match c.strBytes? with
  | some (bytes, after) => (String.fromUTF8? ⟨bytes.toArray⟩).map (·, after)
  | none => none

def binary? (c : Cursor) : Option (List UInt8 × Cursor) :=
  match c.marker? with
  | some (.bin length, after) =>
    match after.length? length with
    | some (n, behind) => behind.take? n
    | none => none
  | _ => none

def arrayHeader? (c : Cursor) : Option (Nat × Cursor) :=
  match c.marker? with
  | some (.array length, after) => after.length? length
  | _ => none

def mapHeader? (c : Cursor) : Option (Nat × Cursor) :=
  match c.marker? with
  | some (.map length, after) => after.length? length
  | _ => none

end Cursor

end SchemaPack.Wire
