import SchemaPack.Proofs.Wire.RoundTrip

/-!
How much can be announced on the wire. A length stands in its marker or in at most four bytes behind
it, so whatever is taken off an input together with its length could also be written.
-/
namespace SchemaPack.Wire

theorem bigEndianValue_lt (bytes : List UInt8) : bigEndianValue bytes < 256 ^ bytes.length := by
  induction bytes with
  | nil => exact Nat.one_pos
  | cons b bytes ih =>
    have hbyte : b.toNat + 1 ≤ 256 := b.toNat_lt
    rw [bigEndianValue, List.foldl_cons, bigEndianValue_foldl, Nat.zero_mul, Nat.zero_add,
      List.length_cons]
    calc b.toNat * 256 ^ bytes.length + bigEndianValue bytes
        < b.toNat * 256 ^ bytes.length + 256 ^ bytes.length := Nat.add_lt_add_left ih _
      _ = (b.toNat + 1) * 256 ^ bytes.length := by ring
      _ ≤ 256 * 256 ^ bytes.length := Nat.mul_le_mul_right _ hbyte
      _ = 256 ^ (bytes.length + 1) := by ring

theorem word?_lt {c after : Cursor} {width n : Nat} (h : c.word? width = some (n, after)) :
    n < 256 ^ width := by
  obtain ⟨⟨bytes, _⟩, htake, heq⟩ := Option.map_eq_some_iff.mp h
  cases heq
  obtain ⟨rfl, -, -⟩ := Cursor.take?_eq_some.mp htake
  exact bigEndianValue_lt bytes

def Marker.length? : Marker → Option Length
  | str length | bin length | array length | map length | ext length => some length
  | fixint _ | uint _ | sint _ | nil | bool _ | f32 | f64 | reserved => none

def Length.Narrow : Length → Prop
  | inline n => n < lengthBound
  | following width => width ≤ 4

theorem narrow_ofCode {n : Nat} {length : Length} (h : (Marker.ofCode n).length? = some length) :
    length.Narrow := by
  unfold Marker.ofCode at h
  split at h
  all_goals cases h
  all_goals simp only [Length.Narrow, lengthBound]
  all_goals omega

theorem narrow_ofByte {b : UInt8} {length : Length}
    (h : (Marker.ofByte b).length? = some length) : length.Narrow := by
  have hbyte := b.toNat_lt
  simp only [Marker.ofByte] at h
  split at h
  · cases h
  · split at h
    · cases h
      simp only [Length.Narrow, lengthBound]
      omega
    · split at h
      · cases h
        simp only [Length.Narrow, lengthBound]
        omega
      · split at h
        · cases h
          simp only [Length.Narrow, lengthBound]
          omega
        · split at h
          · exact narrow_ofCode h
          · cases h

theorem narrow_of_marker? {c after : Cursor} {m : Marker} {length : Length}
    (h : c.marker? = some (m, after)) (hlength : m.length? = some length) : length.Narrow := by
  unfold Cursor.marker? at h
  split at h
  · cases h
  · cases h
    exact narrow_ofByte hlength

theorem Length.Narrow.lt {length : Length} (hnarrow : length.Narrow) {c after : Cursor} {n : Nat}
    (h : c.length? length = some (n, after)) : n < lengthBound := by
  cases length with
  | inline m =>
    cases h
    exact hnarrow
  | following width =>
    have hword := word?_lt h
    have hpow : 256 ^ width ≤ 256 ^ 4 := Nat.pow_le_pow_right (by decide) hnarrow
    exact Nat.lt_of_lt_of_le hword hpow

theorem arrayHeader?_lt {c after : Cursor} {n : Nat} (h : c.arrayHeader? = some (n, after)) :
    n < lengthBound := by
  unfold Cursor.arrayHeader? at h
  split at h
  · rename_i hmarker
    exact (narrow_of_marker? hmarker rfl).lt h
  · cases h

theorem mapHeader?_lt {c after : Cursor} {n : Nat} (h : c.mapHeader? = some (n, after)) :
    n < lengthBound := by
  unfold Cursor.mapHeader? at h
  split at h
  · rename_i hmarker
    exact (narrow_of_marker? hmarker rfl).lt h
  · cases h

theorem binary?_lt {c after : Cursor} {data : List UInt8} (h : c.binary? = some (data, after)) :
    data.length < lengthBound := by
  unfold Cursor.binary? at h
  split at h
  · rename_i hmarker
    split at h
    · rename_i n behind hlength
      rw [(Cursor.take?_eq_some.mp h).1]
      exact (narrow_of_marker? hmarker rfl).lt hlength
    · cases h
  · cases h

theorem strBytes?_lt {c after : Cursor} {bytes : List UInt8}
    (h : c.strBytes? = some (bytes, after)) : bytes.length < lengthBound := by
  unfold Cursor.strBytes? at h
  split at h
  · rename_i hmarker
    split at h
    · rename_i n behind hlength
      rw [(Cursor.take?_eq_some.mp h).1]
      exact (narrow_of_marker? hmarker rfl).lt hlength
    · cases h
  · cases h

/-- A text has the bytes that it is made from. -/
theorem utf8_of_fromUTF8? {bytes : List UInt8} {s : String}
    (h : String.fromUTF8? ⟨bytes.toArray⟩ = some s) : utf8 s = bytes := by
  unfold String.fromUTF8? at h
  split at h
  · cases h
    rfl
  · cases h

theorem utf8ByteSize_of_fromUTF8? {bytes : List UInt8} {s : String}
    (h : String.fromUTF8? ⟨bytes.toArray⟩ = some s) : s.utf8ByteSize = bytes.length := by
  rw [← length_utf8, utf8_of_fromUTF8? h]

theorem string?_lt {c after : Cursor} {s : String} (h : c.string? = some (s, after)) :
    s.utf8ByteSize < lengthBound := by
  unfold Cursor.string? at h
  split at h
  · rename_i bytes behind hbytes
    obtain ⟨t, ht, heq⟩ := Option.map_eq_some_iff.mp h
    cases heq
    rw [utf8ByteSize_of_fromUTF8? ht]
    exact strBytes?_lt hbytes
  · cases h

end SchemaPack.Wire
