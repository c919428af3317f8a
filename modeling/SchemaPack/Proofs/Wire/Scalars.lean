import SchemaPack.Proofs.Wire.Bounds
import SchemaPack.Proofs.Wire.Payload

/-!
Integers and strings on the wire. A number has several encodings: in the first byte, or behind it in
a word of one, two, four or eight bytes, with a sign or without. The takes accept exactly these, and
what is appended for a number is as short as any of them. Integers and strings are scalars alike:
their encodings are known by the class of the first byte, so where the input ends inside one,
nothing is taken although the class is there.
-/
namespace SchemaPack.Wire

/-! ## What stands at the front -/

/-- Bytes at the front of what is left lead to where it goes on. -/
theorem exists_spans_of_front {c : Cursor} {bytes : List UInt8} (h : bytes <+: c.rest) :
    ∃ after, Spans c bytes after := by
  obtain ⟨rest, hrest⟩ := h
  exact ⟨⟨c.position + bytes.length, rest⟩, hrest.symm, rfl⟩

theorem Spans.front {c after : Cursor} {bytes : List UInt8} (h : Spans c bytes after) :
    bytes <+: c.rest :=
  ⟨after.rest, h.rest.symm⟩

/-- Nothing is taken off a part of what would be taken. -/
theorem Delimited.eq_none {α : Type} {take : Cursor → Option (α × Cursor)} (h : Delimited take)
    {position : Nat} {bytes more : List UInt8} {a : α} (hmore : more ≠ [])
    (hyields : Yields take (bytes ++ more) a) : take ⟨position, bytes⟩ = none := by
  cases htake : take ⟨position, bytes⟩ with
  | none => rfl
  | some taken =>
    obtain ⟨b, after⟩ := taken
    obtain ⟨front, hspans, hfront⟩ := h _ _ _ htake
    -- The same would be taken with the rest there, and end before it.
    have hwhole := hyields position []
    have hpart := hfront position (after.rest ++ more)
    have hrest : front ++ (after.rest ++ more) = bytes ++ more ++ [] := by
      rw [← List.append_assoc, ← hspans.rest, List.append_nil]
    rw [hrest, hwhole] at hpart
    have hend : ([] : List UInt8) = after.rest ++ more :=
      congrArg (fun p => p.2.rest) (Option.some.inj hpart)
    exact absurd (List.append_eq_nil_iff.mp hend.symm).2 hmore

namespace Grammar

/-! ## Scalars -/

/-- There is more to come of what begins with the bytes. -/
def CutOff (complete : List UInt8 → Prop) (bytes : List UInt8) : Prop :=
  bytes ≠ [] ∧ ∃ more, more ≠ [] ∧ complete (bytes ++ more)

/-- What is taken is what the encodings say. The first byte tells their class, and where the class
is there but nothing is taken, the rest of an encoding is missing. -/
structure Scalar {α : Type} (take : Cursor → Option (α × Cursor)) (Encodes : α → List UInt8 → Prop)
    (format : Wire.Format) : Prop where
  format_ne : format ≠ .endOfInput
  exists_encoding {c after : Cursor} {a : α} (h : take c = some (a, after)) :
    ∃ bytes, Spans c bytes after ∧ Encodes a bytes
  yields {a : α} {bytes : List UInt8} (h : Encodes a bytes) : Yields take bytes a
  ne_nil {a : α} {bytes : List UInt8} (h : Encodes a bytes) : bytes ≠ []
  format_eq {a : α} {b : UInt8} {tail : List UInt8} (h : Encodes a (b :: tail)) :
    (Marker.ofByte b).format = format
  exists_more {position : Nat} {b : UInt8} {tail : List UInt8}
    (hb : (Marker.ofByte b).format = format) (h : take ⟨position, b :: tail⟩ = none) :
    ∃ more, more ≠ [] ∧ ∃ a, Encodes a (b :: tail ++ more)

namespace Scalar

variable {α : Type} {take : Cursor → Option (α × Cursor)} {Encodes : α → List UInt8 → Prop}
  {format : Wire.Format}

theorem eq_some (h : Scalar take Encodes format) {c after : Cursor} {a : α} :
    take c = some (a, after) ↔ ∃ bytes, Spans c bytes after ∧ Encodes a bytes := by
  constructor
  · exact h.exists_encoding
  · rintro ⟨bytes, hspans, hencodes⟩
    have hyields := h.yields hencodes c.position after.rest
    rwa [← hspans.eq, ← hspans.position] at hyields

theorem peek_eq (h : Scalar take Encodes format) {c after : Cursor} {a : α}
    (htake : take c = some (a, after)) : c.peek = format := by
  obtain ⟨bytes, hspans, hencodes⟩ := h.exists_encoding htake
  cases bytes with
  | nil => exact absurd rfl (h.ne_nil hencodes)
  | cons b tail =>
    rw [Cursor.peek, hspans.rest]
    exact h.format_eq hencodes

/-- The class is there and nothing can be taken just where an encoding is cut off. -/
theorem cut_iff (h : Scalar take Encodes format) {c : Cursor} :
    c.peek = format ∧ take c = none ↔ CutOff (fun bytes => ∃ a, Encodes a bytes) c.rest := by
  obtain ⟨position, bytes⟩ := c
  cases bytes with
  | nil => exact ⟨fun hc => absurd hc.1.symm h.format_ne, fun hc => absurd rfl hc.1⟩
  | cons b tail =>
    constructor
    · rintro ⟨hpeek, hnone⟩
      exact ⟨List.cons_ne_nil b tail, h.exists_more hpeek hnone⟩
    · rintro ⟨-, more, hmore, a, hencodes⟩
      have hdelimited : Delimited take := fun _ _ _ htake =>
        (h.exists_encoding htake).imp fun _ hbytes => ⟨hbytes.1, h.yields hbytes.2⟩
      exact ⟨h.format_eq hencodes, hdelimited.eq_none hmore (h.yields hencodes)⟩

/-- The class is there and what can be taken is of no use just where a complete encoding of
something of no use stands, or one is cut off. -/
theorem refuses_iff (h : Scalar take Encodes format) (Useless : α → Prop) {c : Cursor} :
    (c.peek = format ∧ ∀ a after, take c = some (a, after) → Useless a) ↔
      (∃ a bytes, Encodes a bytes ∧ bytes <+: c.rest ∧ Useless a) ∨
        CutOff (fun bytes => ∃ a, Encodes a bytes) c.rest := by
  constructor
  · rintro ⟨hpeek, huseless⟩
    cases htake : take c with
    | none => exact .inr (h.cut_iff.mp ⟨hpeek, htake⟩)
    | some taken =>
      obtain ⟨a, after⟩ := taken
      obtain ⟨bytes, hspans, hencodes⟩ := h.exists_encoding htake
      exact .inl ⟨a, bytes, hencodes, hspans.front, huseless a after htake⟩
  · rintro (⟨a, bytes, hencodes, hfront, ha⟩ | hcut)
    · obtain ⟨after, hspans⟩ := exists_spans_of_front hfront
      have htake := h.eq_some.mpr ⟨bytes, hspans, hencodes⟩
      refine ⟨h.peek_eq htake, fun other behind hother => ?_⟩
      cases htake.symm.trans hother
      exact ha
    · obtain ⟨hpeek, hnone⟩ := h.cut_iff.mpr hcut
      refine ⟨hpeek, fun a after htake => ?_⟩
      rw [hnone] at htake
      cases htake

end Scalar

/-! ## The encodings of a number -/

/-- A first byte with a number without a sign behind it, in so many bytes. -/
inductive Unsigned : UInt8 → Nat → Prop
  | uint8 : Unsigned 0xcc 1
  | uint16 : Unsigned 0xcd 2
  | uint32 : Unsigned 0xce 4
  | uint64 : Unsigned 0xcf 8

/-- A first byte with a number in two's complement behind it, in so many bytes. -/
inductive Signed : UInt8 → Nat → Prop
  | int8 : Signed 0xd0 1
  | int16 : Signed 0xd1 2
  | int32 : Signed 0xd2 4
  | int64 : Signed 0xd3 8

/-- A number in one of its encodings, minimal or not. -/
inductive Integer : Int → List UInt8 → Prop
  | positive {n : Nat} (h : n < 0x80) : Integer n [UInt8.ofNat n]
  | negative {n : Nat} (hlow : 0xe0 ≤ n) (h : n < 0x100) : Integer (n - 0x100) [UInt8.ofNat n]
  | unsigned {b : UInt8} {digits : List UInt8} (h : Unsigned b digits.length) :
      Integer (bigEndianValue digits) (b :: digits)
  | signed {b : UInt8} {digits : List UInt8} {n : Int} (h : Signed b digits.length)
      (hlow : -2 ^ (8 * digits.length - 1) ≤ n) (hhigh : n < 2 ^ (8 * digits.length - 1))
      (hword : (bigEndianValue digits : Int) = n % 2 ^ (8 * digits.length)) :
      Integer n (b :: digits)

/-! ## First bytes -/

theorem Unsigned.marker {b : UInt8} {width : Nat} (h : Unsigned b width) :
    Marker.ofByte b = .uint width := by
  cases h <;> decide

theorem Signed.marker {b : UInt8} {width : Nat} (h : Signed b width) :
    Marker.ofByte b = .sint width := by
  cases h <;> decide

theorem Signed.width_pos {b : UInt8} {width : Nat} (h : Signed b width) : 0 < width := by
  cases h <;> decide

theorem unsigned_of_marker {b : UInt8} {width : Nat} (h : Marker.ofByte b = .uint width) :
    Unsigned b width := by
  have hfixed := firstByte_of_eq h
  cases hfixed with
  | positive hn => cases (ofByte_fixint hn).symm.trans h
  | negative hlow hn => cases (ofByte_negative hlow hn).symm.trans h
  | _ => first | constructor | exact absurd h (by decide)

theorem signed_of_marker {b : UInt8} {width : Nat} (h : Marker.ofByte b = .sint width) :
    Signed b width := by
  have hfixed := firstByte_of_eq h
  cases hfixed with
  | positive hn => cases (ofByte_fixint hn).symm.trans h
  | negative hlow hn => cases (ofByte_negative hlow hn).symm.trans h
  | _ => first | constructor | exact absurd h (by decide)

theorem integer_of_fixint {b : UInt8} {n : Int} (h : Marker.ofByte b = .fixint n) :
    Integer n [b] := by
  have hfixed : Fixed b 0 := firstByte_of_eq h
  cases hfixed with
  | positive hn =>
    cases (ofByte_fixint hn).symm.trans h
    exact .positive hn
  | negative hlow hn =>
    cases (ofByte_negative hlow hn).symm.trans h
    exact .negative hlow hn
  | _ => exact absurd h (by intro h; cases h)

/-! ## Words in two's complement -/

/-- The number of a word, in two's complement, is in range and has the word. -/
theorem signedValue_spec {width word : Nat} (hwidth : 0 < width) (h : word < 256 ^ width) :
    -2 ^ (8 * width - 1) ≤ signedValue width word ∧
      signedValue width word < 2 ^ (8 * width - 1) ∧
      (word : Int) = signedValue width word % 2 ^ (8 * width) := by
  have hdouble : (2 : Int) ^ (8 * width) = 2 * 2 ^ (8 * width - 1) := by
    rw [← pow_succ', Nat.sub_add_cancel (by omega)]
  have hhalf : ((2 ^ (8 * width - 1) : Nat) : Int) = 2 ^ (8 * width - 1) := by push_cast; rfl
  have hbound : (word : Int) < 2 ^ (8 * width) := by
    rw [two_pow_eight_mul]
    exact_mod_cast h
  unfold signedValue
  rw [hdouble] at hbound ⊢
  generalize (2 : Int) ^ (8 * width - 1) = half at hhalf hbound ⊢
  split
  · rw [Int.emod_eq_of_lt (by omega) (by omega)]
    omega
  · rw [Int.sub_emod_right, Int.emod_eq_of_lt (by omega) (by omega)]
    omega

/-! ## Integers are taken in every encoding -/

/-- The number in the bytes behind a first byte. -/
theorem word_digits (b : UInt8) (digits : List UInt8) (position : Nat) (rest : List UInt8) :
    Cursor.word? ⟨position + 1, digits ++ rest⟩ digits.length =
      some (bigEndianValue digits, ⟨position + (b :: digits).length, rest⟩) := by
  have hlength : position + (b :: digits).length = position + 1 + digits.length := by
    rw [List.length_cons]
    omega
  rw [hlength]
  exact (Measures.following digits).yields (position + 1) rest

theorem Integer.yields {n : Int} {bytes : List UInt8} (h : Integer n bytes) :
    Yields Cursor.int? bytes n := by
  intro position rest
  cases h with
  | positive hn =>
    rw [List.cons_append, List.nil_append]
    simp only [Cursor.int?, marker_cons, ofByte_fixint hn, List.length_singleton]
  | negative hlow hn =>
    rw [List.cons_append, List.nil_append]
    simp only [Cursor.int?, marker_cons, ofByte_negative hlow hn, List.length_singleton]
  | @unsigned b digits hb =>
    rw [List.cons_append]
    simp only [Cursor.int?, marker_cons, hb.marker, word_digits b, Option.map_some]
  | @signed b digits _ hb hlow hhigh hword =>
    have hsigned : signedValue digits.length (bigEndianValue digits) = n := by
      have hvalue := signedValue_signedWord hb.width_pos hlow hhigh
      rwa [signedWord, ← hword, Int.toNat_natCast] at hvalue
    rw [List.cons_append]
    simp only [Cursor.int?, marker_cons, hb.marker, word_digits b, Option.map_some, hsigned]

theorem exists_digits {c after : Cursor} {width n : Nat} (h : c.word? width = some (n, after)) :
    ∃ digits, Spans c digits after ∧ digits.length = width ∧ n = bigEndianValue digits := by
  obtain ⟨digits, hspans, hmeasures⟩ := exists_measures (l := .following width) h
  cases hmeasures
  exact ⟨digits, hspans, rfl, rfl⟩

theorem spans_marker {c after : Cursor} {m : Marker} (h : c.marker? = some (m, after)) :
    ∃ b, Spans c [b] after ∧ Marker.ofByte b = m := by
  obtain ⟨position, rest⟩ := c
  cases rest with
  | nil => cases h
  | cons b rest =>
    cases h
    exact ⟨b, ⟨rfl, rfl⟩, rfl⟩

/-- What is taken as an integer is a number in one of its encodings. -/
theorem integer_of_int? {c after : Cursor} {n : Int} (h : c.int? = some (n, after)) :
    ∃ bytes, Spans c bytes after ∧ Integer n bytes := by
  unfold Cursor.int? at h
  split at h
  · rename_i hmarker
    cases h
    obtain ⟨b, hspans, hb⟩ := spans_marker hmarker
    exact ⟨[b], hspans, integer_of_fixint hb⟩
  · rename_i hmarker
    obtain ⟨⟨word, behind⟩, hword, heq⟩ := Option.map_eq_some_iff.mp h
    cases heq
    obtain ⟨b, hfirst, hb⟩ := spans_marker hmarker
    obtain ⟨digits, hdigits, rfl, rfl⟩ := exists_digits hword
    exact ⟨b :: digits, hfirst.trans hdigits, .unsigned (unsigned_of_marker hb)⟩
  · rename_i hmarker
    obtain ⟨⟨word, behind⟩, hword, heq⟩ := Option.map_eq_some_iff.mp h
    cases heq
    obtain ⟨b, hfirst, hb⟩ := spans_marker hmarker
    obtain ⟨digits, hdigits, rfl, rfl⟩ := exists_digits hword
    have hsigned := signed_of_marker hb
    obtain ⟨hlow, hhigh, hmod⟩ := signedValue_spec hsigned.width_pos (bigEndianValue_lt digits)
    exact ⟨b :: digits, hfirst.trans hdigits, .signed hsigned hlow hhigh hmod⟩
  · cases h

/-! ## What is appended for a number is as short as any encoding -/

/-- What is taken off some bytes, whatever they stand in front of, they are an encoding of. -/
theorem integer_of_yields {n : Int} {bytes : List UInt8} (h : Yields Cursor.int? bytes n) :
    Integer n bytes := by
  obtain ⟨taken, hspans, hinteger⟩ := integer_of_int? (h 0 [])
  have hbytes : bytes ++ [] = taken ++ [] := hspans.rest
  rw [List.append_nil, List.append_nil] at hbytes
  rwa [hbytes]

theorem integer_int {n : Int} (hlow : -2 ^ 63 ≤ n) (hhigh : n < 2 ^ 64) :
    Integer n (Encoding.int n) :=
  integer_of_yields (yields_int hlow hhigh)

theorem length_int_small {n : Int} (hlow : -0x20 ≤ n) (hhigh : n < 0x80) :
    (Encoding.int n).length = 1 := by
  unfold Encoding.int Encoding.uint
  split_ifs
  all_goals simp only [List.length_cons, List.length_nil, length_bigEndian]
  all_goals omega

/-- Every number that fits a word, with a sign or without, takes at most the word and one byte. -/
theorem length_int_le {n : Int} {width : Nat} (hwidth : width ∈ [1, 2, 4, 8])
    (hlow : -2 ^ (8 * width - 1) ≤ n) (hhigh : n < 2 ^ (8 * width)) :
    (Encoding.int n).length ≤ width + 1 := by
  unfold Encoding.int Encoding.uint
  simp only [List.mem_cons, List.not_mem_nil, or_false] at hwidth
  rcases hwidth with rfl | rfl | rfl | rfl
  all_goals split_ifs
  all_goals simp only [List.length_cons, List.length_nil, length_bigEndian]
  all_goals omega

theorem Unsigned.width_mem {b : UInt8} {width : Nat} (h : Unsigned b width) :
    width ∈ [1, 2, 4, 8] := by
  cases h <;> decide

theorem Signed.width_mem {b : UInt8} {width : Nat} (h : Signed b width) :
    width ∈ [1, 2, 4, 8] := by
  cases h <;> decide

theorem Integer.length_le {n : Int} {bytes : List UInt8} (h : Integer n bytes) :
    (Encoding.int n).length ≤ bytes.length := by
  cases h with
  | positive hn => exact (length_int_small (by omega) (by omega)).le
  | negative hlow hn => exact (length_int_small (by omega) (by omega)).le
  | @unsigned b digits hb =>
    refine length_int_le hb.width_mem ?_ ?_
    · have hnonneg : (0 : Int) ≤ bigEndianValue digits := Int.natCast_nonneg _
      have hpos : (0 : Int) < 2 ^ (8 * digits.length - 1) := by positivity
      omega
    · rw [two_pow_eight_mul]
      exact_mod_cast bigEndianValue_lt digits
  | @signed b digits n hb hlow hhigh _ =>
    have hdouble : (2 : Int) ^ (8 * digits.length - 1) ≤ 2 ^ (8 * digits.length) :=
      pow_le_pow_right₀ (by decide) (Nat.sub_le _ _)
    exact length_int_le hb.width_mem hlow (hhigh.trans_le hdouble)

/-! ## Strings -/

/-- What stands at the front in a family with a length begins with its first byte and the length. -/
theorem exists_opens (family : Family) {c behind after : Cursor} {length : Length} {n : Nat}
    (hmarker : c.marker? = some (family.marker length, behind))
    (hlength : behind.length? length = some (n, after)) :
    ∃ front, Spans c front after ∧ Opens family n front := by
  obtain ⟨b, hfirst, hb⟩ := spans_marker hmarker
  obtain ⟨digits, hdigits, hmeasures⟩ := exists_measures hlength
  exact ⟨_, hfirst.trans hdigits, opens_of_marker family hb hmeasures⟩

/-- What is taken as a string is the payload of one. -/
theorem str_of_strBytes? {c after : Cursor} {payload : List UInt8}
    (h : c.strBytes? = some (payload, after)) :
    ∃ bytes, Spans c bytes after ∧ Str payload bytes := by
  unfold Cursor.strBytes? at h
  split at h
  · rename_i hmarker
    split at h
    · rename_i n behind hlength
      obtain ⟨front, hfront, hopens⟩ := exists_opens .str hmarker hlength
      obtain ⟨hpayload, rfl⟩ := spans_of_take? h
      exact ⟨front ++ payload, hfront.trans hpayload, .str hopens⟩
    · cases h
  · cases h

/-! ## Where an integer or a string is cut -/

theorem exists_integer {position : Nat} {b : UInt8} {tail : List UInt8}
    (hb : (Marker.ofByte b).format = .integer) (h : Cursor.int? ⟨position, b :: tail⟩ = none) :
    ∃ more, more ≠ [] ∧ ∃ n, Integer n (b :: tail ++ more) := by
  simp only [Cursor.int?, marker_cons] at h
  cases hm : Marker.ofByte b with
  | fixint n => simp only [hm, reduceCtorEq] at h
  | uint width =>
    simp only [hm, Option.map_eq_none_iff] at h
    obtain ⟨more, hlength, hmore⟩ := exists_more_of_word? h
    exact ⟨more, hmore, _, .unsigned (hlength ▸ unsigned_of_marker hm)⟩
  | sint width =>
    simp only [hm, Option.map_eq_none_iff] at h
    obtain ⟨more, hlength, hmore⟩ := exists_more_of_word? h
    have hsigned := hlength ▸ signed_of_marker hm
    obtain ⟨hlow, hhigh, hmod⟩ := signedValue_spec hsigned.width_pos (bigEndianValue_lt _)
    exact ⟨more, hmore, _, .signed hsigned hlow hhigh hmod⟩
  | _ =>
    rw [hm] at hb
    cases hb

/-- A string that is cut lacks bytes of its length, and then all of the payload, or of the
payload. -/
theorem exists_str {position : Nat} {b : UInt8} {tail : List UInt8}
    (hb : (Marker.ofByte b).format = .string)
    (h : Cursor.strBytes? ⟨position, b :: tail⟩ = none) :
    ∃ more, more ≠ [] ∧ ∃ payload, Str payload (b :: tail ++ more) := by
  simp only [Cursor.strBytes?, marker_cons] at h
  cases hm : Marker.ofByte b with
  | str length =>
    simp only [hm] at h
    split at h
    · rename_i n behind hlength
      obtain ⟨digits, hspans, hmeasures⟩ := exists_measures hlength
      obtain ⟨more, hsize, hmore⟩ := exists_more_of_take? h
      have hstr := Str.str (opens_of_marker .str hm (hsize ▸ hmeasures))
      rw [← List.append_assoc, List.cons_append, ← hspans.rest] at hstr
      exact ⟨more, hmore, _, hstr⟩
    · rename_i hlength
      cases length with
      | inline n => cases hlength
      | following width =>
        obtain ⟨more, hsize, hmore⟩ := exists_more_of_word? hlength
        have hmeasures := Measures.following (tail ++ more)
        rw [hsize, ← List.length_replicate (n := bigEndianValue (tail ++ more))
          (a := (0 : UInt8))] at hmeasures
        have hstr := Str.str (opens_of_marker .str hm hmeasures)
        rw [← List.cons_append, List.append_assoc] at hstr
        exact ⟨_, List.append_ne_nil_of_left_ne_nil hmore _, _, hstr⟩
  | _ =>
    rw [hm] at hb
    cases hb

theorem integer_scalar : Scalar Cursor.int? Integer .integer where
  format_ne := nofun
  exists_encoding := integer_of_int?
  yields := Integer.yields
  ne_nil h := by
    cases h <;> exact List.cons_ne_nil _ _
  format_eq h := by
    cases h with
    | positive hn => rw [ofByte_fixint hn, Marker.format]
    | negative hlow hn => rw [ofByte_negative hlow hn, Marker.format]
    | unsigned hb => rw [hb.marker, Marker.format]
    | signed hb _ _ _ => rw [hb.marker, Marker.format]
  exists_more := exists_integer

theorem string_scalar : Scalar Cursor.strBytes? Str .string where
  format_ne := nofun
  exists_encoding := str_of_strBytes?
  yields := Str.yields
  ne_nil h := by
    rintro rfl
    cases h.yields 0 []
  format_eq {payload b tail} h := by
    generalize hall : b :: tail = all at h
    obtain @⟨front, hopens⟩ := h
    obtain ⟨first, length, digits, rfl, hfirst, -⟩ := hopens.exists_digits
    cases hall
    rw [hfirst, Family.marker, Marker.format]
  exists_more := exists_str

end Grammar

end SchemaPack.Wire
