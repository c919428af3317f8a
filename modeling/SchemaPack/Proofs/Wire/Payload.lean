import SchemaPack.Proofs.Wire.Grammar

/-!
Maps with text for keys. Such a map is a header, which may take any form that can tell the number,
and the entries behind it. A text and a header are read off any of their forms; and of one input two
values begin alike only if they are the same bytes.
-/
namespace SchemaPack.Wire

namespace Grammar

/-- The bytes are a text, behind its length in any form. -/
def Spells (bytes : List UInt8) (s : String) : Prop :=
  ∃ front, Opens .str (utf8 s).length front ∧ bytes = front ++ utf8 s

variable {n : Nat} {bytes front : List UInt8} {s : String}

/-- In front of anything, a marker of the family is read and then the length behind it. -/
theorem Opens.read {family : Family} (h : Opens family n front) (position : Nat)
    (rest : List UInt8) :
    ∃ length after, Cursor.marker? ⟨position, front ++ rest⟩ = some (family.marker length, after) ∧
      after.length? length = some (n, ⟨position + front.length, rest⟩) := by
  obtain ⟨b, length, digits, rfl, hb, hdigits⟩ := h.exists_digits
  refine ⟨length, ⟨position + 1, digits ++ rest⟩, ?_, ?_⟩
  · rw [List.cons_append, marker_cons, hb]
  · rw [List.length_cons, Nat.add_comm digits.length, ← Nat.add_assoc]
    exact hdigits.yields (position + 1) rest

theorem Opens.yields_mapHeader (h : Opens .map n front) : Yields Cursor.mapHeader? front n := by
  intro position rest
  obtain ⟨length, after, hmarker, hlength⟩ := h.read position rest
  simp only [Cursor.mapHeader?, hmarker, Family.marker, hlength]

/-- A string with the payload, which need not be a text. -/
inductive Str (payload : List UInt8) : List UInt8 → Prop
  | str {front : List UInt8} (h : Opens .str payload.length front) : Str payload (front ++ payload)

theorem Str.yields {payload : List UInt8} (h : Str payload bytes) :
    Yields Cursor.strBytes? bytes payload := by
  obtain @⟨front, hfront⟩ := h
  intro position rest
  obtain ⟨length, after, hmarker, hlength⟩ := hfront.read position (payload ++ rest)
  have htake := @yields_take _ payload rfl (position + front.length) rest
  simp only at htake
  simp only [Cursor.strBytes?, List.append_assoc, hmarker, Family.marker, hlength, htake,
    List.length_append, Nat.add_assoc]

theorem Spells.str (h : Spells bytes s) : Str (utf8 s) bytes := by
  obtain ⟨front, hfront, rfl⟩ := h
  exact .str hfront

theorem Spells.yields (h : Spells bytes s) : Yields Cursor.string? bytes s := by
  intro position rest
  simp only [Cursor.string?, h.str.yields position rest, fromUTF8_utf8, Option.map_some]

/-- The header that is written is one of its forms. -/
theorem opens_of_header (family : Family) (h : Header family.marker n bytes) :
    Opens family n bytes := by
  cases h with
  | inline hb => exact opens_of_marker family hb (.inline n)
  | @following b width hb hn =>
    have hdigits := Measures.following (bigEndian width n)
    rw [length_bigEndian, bigEndianValue_bigEndian hn] at hdigits
    exact opens_of_marker family hb hdigits

theorem spells_header (h : s.utf8ByteSize < lengthBound) :
    Spells (Encoding.strHeader s.utf8ByteSize ++ utf8 s) s := by
  refine ⟨_, ?_, rfl⟩
  rw [length_utf8]
  exact opens_of_header .str (header_str h)

theorem Spells.wellFormed (h : Spells bytes s) : WellFormed bytes := by
  obtain ⟨front, hfront, rfl⟩ := h
  have hvalue := @WellFormed.value _ [] (.str hfront) nofun
  rwa [List.flatten_nil, List.append_nil] at hvalue

end Grammar

/-- A value is told apart from what follows it. -/
theorem Whole.eq_of_append_eq {a b rest rest' : List UInt8} (ha : Whole 1 a) (hb : Whole 1 b)
    (h : a ++ rest = b ++ rest') : a = b := by
  have hskip := ha.skip 0 rest
  rw [h, hb.skip 0 rest'] at hskip
  injection hskip with hskip
  injection hskip with hlength
  exact List.append_inj_left h (by omega)

/-- An entry of a map: a text for its key, and its value, with the bytes of both. -/
structure Entry where
  key : String
  name : List UInt8
  value : List UInt8
  spelled : Grammar.Spells name key
  wellFormed : Grammar.WellFormed value

def Entry.bytes (e : Entry) : List UInt8 := e.name ++ e.value

def Entry.of (key : String) (hkey : key.utf8ByteSize < lengthBound) (value : List UInt8)
    (hvalue : Grammar.WellFormed value) : Entry where
  key := key
  name := Encoding.strHeader key.utf8ByteSize ++ utf8 key
  value := value
  spelled := Grammar.spells_header hkey
  wellFormed := hvalue

/-- The bytes are a map with these entries, behind a header in any form. -/
def MapOf (entries : List Entry) (bytes : List UInt8) : Prop :=
  ∃ front, Grammar.Opens .map entries.length front ∧ bytes = front ++ entries.flatMap Entry.bytes

variable {entries : List Entry} {bytes : List UInt8}

def mapBytes (entries : List Entry) : List UInt8 :=
  Encoding.mapHeader entries.length ++ entries.flatMap Entry.bytes

/-- There is a header for any number of entries below the bound. -/
theorem mapOf_mapBytes (h : entries.length < lengthBound) : MapOf entries (mapBytes entries) :=
  ⟨_, Grammar.opens_of_header .map (header_map h), rfl⟩

theorem flatten_entries (entries : List Entry) :
    (entries.flatMap fun e => [e.name, e.value]).flatten = entries.flatMap Entry.bytes := by
  induction entries with
  | nil => rfl
  | cons e entries ih => simp [ih, Entry.bytes]

/-- Such a map is a value itself. -/
theorem MapOf.wellFormed (h : MapOf entries bytes) : Grammar.WellFormed bytes := by
  obtain ⟨front, hfront, rfl⟩ := h
  have hlength : (entries.flatMap fun e => [e.name, e.value]).length = 2 * entries.length := by
    simp [List.length_flatMap, Nat.mul_comm]
  rw [← flatten_entries]
  refine .value (hlength ▸ .map hfront) ?_
  intro item hitem
  obtain ⟨e, -, he⟩ := List.mem_flatMap.mp hitem
  rcases List.mem_pair.mp he with rfl | rfl
  · exact e.spelled.wellFormed
  · exact e.wellFormed

end SchemaPack.Wire
