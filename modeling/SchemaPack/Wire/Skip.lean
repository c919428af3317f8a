import SchemaPack.Wire.Cursor

/-!
Skipping one complete value of any form. Containers are walked with a count of the values still
due, so nesting costs nothing; every step takes at least one byte.
-/
namespace SchemaPack.Wire

/-- Why a value cannot be skipped, with the offset of the value at which the walk stopped. -/
inductive SkipError
  | truncated (position : Nat)
  | reservedMarker (position : Nat)
  deriving DecidableEq, Repr

def SkipError.message : SkipError → String
  | truncated position => s!"input ends inside a value starting at offset {position}"
  | reservedMarker position => s!"reserved marker 0xc1 at offset {position}"

namespace Marker

/-- What follows a marker in its value: so many bytes, or so many values. -/
inductive Body
  | payload (bytes : Nat)
  | values (count : Nat)
  deriving DecidableEq, Repr

/-- The body of a value of a marker, given its length where it has one. The payload of an extension
has a byte for its type in front. -/
def body : Marker → Nat → Body
  | fixint _, _ | nil, _ | bool _, _ | reserved, _ => .payload 0
  | uint width, _ | sint width, _ => .payload width
  | f32, _ => .payload 4
  | f64, _ => .payload 8
  | str _, n | bin _, n => .payload n
  | ext _, n => .payload (n + 1)
  | array _, n => .values n
  | map _, n => .values (2 * n)

def length : Marker → Length
  | str n | bin n | array n | map n | ext n => n
  | _ => .inline 0

end Marker

namespace Cursor

/-- Takes a marker with its length and payload, and tells how many values are to follow. -/
def skipHead (c : Cursor) : Except SkipError (Nat × Cursor) :=
  match c.marker? with
  | none => .error (.truncated c.position)
  | some (.reserved, _) => .error (.reservedMarker c.position)
  | some (m, after) =>
    match after.length? m.length with
    | none => .error (.truncated c.position)
    | some (n, behind) =>
      match m.body n with
      | .values count => .ok (count, behind)
      | .payload bytes =>
        match behind.take? bytes with
        | some (_, next) => .ok (0, next)
        | none => .error (.truncated c.position)

theorem length_take? {c after : Cursor} {n : Nat} {bytes : List UInt8}
    (h : c.take? n = some (bytes, after)) : after.rest.length ≤ c.rest.length := by
  obtain ⟨-, hrest, -⟩ := take?_eq_some.mp h
  rw [hrest, List.length_append]
  exact Nat.le_add_left _ _

theorem length_length? {c after : Cursor} {l : Length} {n : Nat}
    (h : c.length? l = some (n, after)) : after.rest.length ≤ c.rest.length := by
  cases l with
  | inline m => cases h; exact Nat.le_refl _
  | following width =>
    simp only [length?, word?, Option.map_eq_some_iff] at h
    obtain ⟨⟨bytes, behind⟩, htake, heq⟩ := h
    cases heq
    exact length_take? htake

theorem length_marker? {c after : Cursor} {m : Marker} (h : c.marker? = some (m, after)) :
    after.rest.length + 1 = c.rest.length := by
  simp only [marker?] at h
  split at h
  · cases h
  · rename_i heq
    cases h
    rw [heq]
    rfl

theorem length_skipHead {c after : Cursor} {due : Nat} (h : c.skipHead = .ok (due, after)) :
    after.rest.length < c.rest.length := by
  simp only [skipHead] at h
  split at h
  · cases h
  · cases h
  · rename_i hmarker
    have hm := length_marker? hmarker
    split at h
    · cases h
    · rename_i hlength
      have hl := length_length? hlength
      split at h
      · cases h
        omega
      · split at h
        · rename_i htake
          cases h
          have ht := length_take? htake
          omega
        · cases h

def skipValues (due : Nat) (c : Cursor) : Except SkipError Cursor :=
  match due with
  | 0 => .ok c
  | due + 1 =>
    match h : c.skipHead with
    | .error e => .error e
    | .ok (inside, after) =>
      have := length_skipHead h
      skipValues (due + inside) after
termination_by c.rest.length

def skip (c : Cursor) : Except SkipError Cursor := c.skipValues 1

end Cursor

end SchemaPack.Wire
