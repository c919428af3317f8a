import Mathlib.Tactic.Positivity
import Mathlib.Tactic.Ring
import SchemaPack.Wire.Cursor

/-!
Reading back what has been appended. Every form is read off the front of an input whatever follows
it, and the cursor then stands right behind; no form but nil begins like nil.
-/
namespace SchemaPack.Wire

/-- Off an input that begins with the bytes, the take yields a value and moves behind them. -/
def Yields {α : Type} (take : Cursor → Option (α × Cursor)) (bytes : List UInt8) (a : α) : Prop :=
  ∀ position rest, take ⟨position, bytes ++ rest⟩ = some (a, ⟨position + bytes.length, rest⟩)

/-! ## Words -/

theorem bigEndianValue_foldl (n : Nat) (bytes : List UInt8) :
    bytes.foldl (fun n b => n * 256 + b.toNat) n =
      n * 256 ^ bytes.length + bigEndianValue bytes := by
  unfold bigEndianValue
  induction bytes generalizing n with
  | nil => simp
  | cons b bytes ih =>
    simp only [List.foldl_cons, List.length_cons]
    rw [ih (n * 256 + b.toNat), ih (0 * 256 + b.toNat)]
    ring

/-- The bytes of a word hold the number up to multiples of the size of the word. -/
theorem bigEndianValue_bigEndian_mod (width n : Nat) :
    bigEndianValue (bigEndian width n) = n % 256 ^ width := by
  induction width with
  | zero => simp [bigEndian, bigEndianValue, Nat.mod_one]
  | succ width ih =>
    have hbyte : (UInt8.ofNat (n / 256 ^ width)).toNat = n / 256 ^ width % 256 := by simp
    rw [bigEndian, bigEndianValue, List.foldl_cons, bigEndianValue_foldl, ih, length_bigEndian,
      hbyte, Nat.pow_succ, Nat.mod_mul]
    ring

theorem bigEndianValue_bigEndian {width n : Nat} (h : n < 256 ^ width) :
    bigEndianValue (bigEndian width n) = n := by
  rw [bigEndianValue_bigEndian_mod, Nat.mod_eq_of_lt h]

theorem yields_take {n : Nat} {bytes : List UInt8} (h : bytes.length = n) :
    Yields (·.take? n) bytes bytes := by
  intro position rest
  exact Cursor.take?_eq_some.mpr ⟨h, rfl, congrArg (position + ·) h⟩

theorem yields_word {width n : Nat} (h : n < 256 ^ width) :
    Yields (·.word? width) (bigEndian width n) n := by
  intro position rest
  have htake := yields_take (length_bigEndian width n) position rest
  simp only at htake
  simp only [Cursor.word?, htake, Option.map_some, bigEndianValue_bigEndian h]

/-! ## Markers -/

theorem marker_cons (position : Nat) (b : UInt8) (rest : List UInt8) :
    Cursor.marker? ⟨position, b :: rest⟩ = some (.ofByte b, ⟨position + 1, rest⟩) := rfl

theorem toNat_ofNat {n : Nat} (h : n < 256) : (UInt8.ofNat n).toNat = n := by
  rw [UInt8.toNat_ofNat', Nat.mod_eq_of_lt h]

theorem ofByte_fixint {n : Nat} (h : n < 0x80) : Marker.ofByte (UInt8.ofNat n) = .fixint n := by
  simp only [Marker.ofByte, toNat_ofNat (Nat.lt_trans h (by decide)), if_pos h]

theorem ofByte_negative {n : Nat} (hlow : 0xe0 ≤ n) (h : n < 0x100) :
    Marker.ofByte (UInt8.ofNat n) = .fixint (n - 0x100) := by
  simp only [Marker.ofByte, toNat_ofNat h]
  rw [if_neg (by omega), if_neg (by omega), if_neg (by omega), if_neg (by omega), if_neg (by omega)]

theorem ofByte_fixmap {n : Nat} (h : n < 0x10) :
    Marker.ofByte (UInt8.ofNat (0x80 + n)) = .map (.inline n) := by
  have hbyte : (UInt8.ofNat (0x80 + n)).toNat = 0x80 + n := toNat_ofNat (by omega)
  simp only [Marker.ofByte, hbyte]
  rw [if_neg (by omega), if_pos (by omega), Nat.add_sub_cancel_left]

theorem ofByte_fixarray {n : Nat} (h : n < 0x10) :
    Marker.ofByte (UInt8.ofNat (0x90 + n)) = .array (.inline n) := by
  have hbyte : (UInt8.ofNat (0x90 + n)).toNat = 0x90 + n := toNat_ofNat (by omega)
  simp only [Marker.ofByte, hbyte]
  rw [if_neg (by omega), if_neg (by omega), if_pos (by omega), Nat.add_sub_cancel_left]

theorem ofByte_fixstr {n : Nat} (h : n < 0x20) :
    Marker.ofByte (UInt8.ofNat (0xa0 + n)) = .str (.inline n) := by
  have hbyte : (UInt8.ofNat (0xa0 + n)).toNat = 0xa0 + n := toNat_ofNat (by omega)
  simp only [Marker.ofByte, hbyte]
  rw [if_neg (by omega), if_neg (by omega), if_neg (by omega), if_pos (by omega),
    Nat.add_sub_cancel_left]

/-- A word behind a marker. -/
theorem word_behind {width n : Nat} (h : n < 256 ^ width) (b : UInt8) (position : Nat)
    (rest : List UInt8) :
    Cursor.marker? ⟨position, (b :: bigEndian width n) ++ rest⟩ =
        some (.ofByte b, ⟨position + 1, bigEndian width n ++ rest⟩) ∧
      Cursor.word? ⟨position + 1, bigEndian width n ++ rest⟩ width =
        some (n, ⟨position + (b :: bigEndian width n).length, rest⟩) := by
  refine ⟨rfl, ?_⟩
  have hlength : position + (b :: bigEndian width n).length =
      position + 1 + (bigEndian width n).length := by
    rw [List.length_cons]
    omega
  rw [hlength]
  exact yields_word h (position + 1) rest

/-! ## Headers -/

inductive Header (family : Length → Marker) (n : Nat) : List UInt8 → Prop
  | inline {b : UInt8} (h : Marker.ofByte b = family (.inline n)) : Header family n [b]
  | following {b : UInt8} {width : Nat} (h : Marker.ofByte b = family (.following width))
      (hn : n < 256 ^ width) : Header family n (b :: bigEndian width n)

theorem header_array {n : Nat} (h : n < lengthBound) :
    Header .array n (Encoding.arrayHeader n) := by
  unfold lengthBound at h
  unfold Encoding.arrayHeader
  split
  · rename_i hn
    exact .inline (ofByte_fixarray hn)
  · split
    · exact .following (by decide) (by omega)
    · exact .following (by decide) (by omega)

theorem header_map {n : Nat} (h : n < lengthBound) : Header .map n (Encoding.mapHeader n) := by
  unfold lengthBound at h
  unfold Encoding.mapHeader
  split
  · rename_i hn
    exact .inline (ofByte_fixmap hn)
  · split
    · exact .following (by decide) (by omega)
    · exact .following (by decide) (by omega)

theorem header_str {n : Nat} (h : n < lengthBound) : Header .str n (Encoding.strHeader n) := by
  unfold lengthBound at h
  unfold Encoding.strHeader
  split
  · rename_i hn
    exact .inline (ofByte_fixstr hn)
  · split
    · exact .following (by decide) (by omega)
    · split
      · exact .following (by decide) (by omega)
      · exact .following (by decide) (by omega)

theorem header_bin {n : Nat} (h : n < lengthBound) : Header .bin n (Encoding.binHeader n) := by
  unfold lengthBound at h
  unfold Encoding.binHeader
  split
  · exact .following (by decide) (by omega)
  · split
    · exact .following (by decide) (by omega)
    · exact .following (by decide) (by omega)

/-- A header begins with a marker of its family, and the length can be read behind it. -/
theorem Header.read {family : Length → Marker} {n : Nat} {bytes : List UInt8}
    (h : Header family n bytes) (position : Nat) (rest : List UInt8) :
    ∃ length after, Cursor.marker? ⟨position, bytes ++ rest⟩ = some (family length, after) ∧
      after.length? length = some (n, ⟨position + bytes.length, rest⟩) := by
  cases h with
  | inline hmarker =>
    refine ⟨.inline n, ⟨position + 1, rest⟩, ?_, rfl⟩
    rw [List.cons_append, marker_cons, hmarker, List.nil_append]
  | @following b width hmarker hn =>
    obtain ⟨hfirst, hword⟩ := word_behind hn b position rest
    rw [hmarker] at hfirst
    exact ⟨.following width, _, hfirst, hword⟩

/-! ## Forms -/

theorem yields_arrayHeader {n : Nat} (h : n < lengthBound) :
    Yields Cursor.arrayHeader? (Encoding.arrayHeader n) n := by
  intro position rest
  obtain ⟨length, after, hmarker, hlength⟩ := (header_array h).read position rest
  simp only [Cursor.arrayHeader?, hmarker, hlength]

theorem yields_mapHeader {n : Nat} (h : n < lengthBound) :
    Yields Cursor.mapHeader? (Encoding.mapHeader n) n := by
  intro position rest
  obtain ⟨length, after, hmarker, hlength⟩ := (header_map h).read position rest
  simp only [Cursor.mapHeader?, hmarker, hlength]

theorem yields_binary {data : List UInt8} (h : data.length < lengthBound) :
    Yields Cursor.binary? (Encoding.binHeader data.length ++ data) data := by
  intro position rest
  obtain ⟨length, after, hmarker, hlength⟩ := (header_bin h).read position (data ++ rest)
  have htake := @yields_take _ data rfl (position + (Encoding.binHeader data.length).length) rest
  simp only at htake
  simp only [Cursor.binary?, List.append_assoc, hmarker, hlength, htake, List.length_append,
    Nat.add_assoc]

theorem length_utf8 (s : String) : (utf8 s).length = s.utf8ByteSize := by
  simp [utf8]

/-- The bytes of a text are the text. -/
theorem fromUTF8_utf8 (s : String) : String.fromUTF8? ⟨(utf8 s).toArray⟩ = some s := by
  have hbytes : (⟨(utf8 s).toArray⟩ : ByteArray) = s.toByteArray := by
    simp [utf8]
  rw [hbytes, String.fromUTF8?, dif_pos s.isValidUTF8]
  rfl

theorem yields_string {s : String} (h : s.utf8ByteSize < lengthBound) :
    Yields Cursor.string? (Encoding.strHeader s.utf8ByteSize ++ utf8 s) s := by
  intro position rest
  obtain ⟨length, after, hmarker, hlength⟩ := (header_str h).read position (utf8 s ++ rest)
  have htake := yields_take (length_utf8 s)
    (position + (Encoding.strHeader s.utf8ByteSize).length) rest
  simp only at htake
  simp only [Cursor.string?, Cursor.strBytes?, List.append_assoc, hmarker, hlength, htake,
    fromUTF8_utf8, Option.map_some, List.length_append, Nat.add_assoc]

theorem yields_bool (b : Bool) : Yields Cursor.bool? (Encoding.bool b) b := by
  intro position rest
  cases b <;> rfl

theorem yields_f32 (bits : UInt32) : Yields Cursor.f32? (Encoding.f32 bits) bits := by
  intro position rest
  obtain ⟨hfirst, hword⟩ :=
    @word_behind 4 _ bits.toNat_lt 0xca position rest
  have hmarker : Marker.ofByte 0xca = .f32 := by decide
  rw [hmarker] at hfirst
  simp only [Cursor.f32?, Encoding.f32, hfirst, hword, Option.map_some, UInt32.ofNat_toNat]

theorem yields_f64 (bits : UInt64) : Yields Cursor.f64? (Encoding.f64 bits) bits := by
  intro position rest
  obtain ⟨hfirst, hword⟩ :=
    @word_behind 8 _ bits.toNat_lt 0xcb position rest
  have hmarker : Marker.ofByte 0xcb = .f64 := by decide
  rw [hmarker] at hfirst
  simp only [Cursor.f64?, Encoding.f64, hfirst, hword, Option.map_some, UInt64.ofNat_toNat]

/-! ## Integers -/

/-- A number behind a marker for unsigned words. -/
theorem yields_uint_word {b : UInt8} {width n : Nat} (hmarker : Marker.ofByte b = .uint width)
    (h : n < 256 ^ width) : Yields Cursor.int? (b :: bigEndian width n) n := by
  intro position rest
  obtain ⟨hfirst, hword⟩ := word_behind h b position rest
  rw [hmarker] at hfirst
  simp only [Cursor.int?, hfirst, hword, Option.map_some]

theorem yields_uint {n : Nat} (h : n < 2 ^ 64) : Yields Cursor.int? (Encoding.uint n) n := by
  unfold Encoding.uint
  split
  · rename_i hn
    intro position rest
    simp only [Cursor.int?, List.cons_append, marker_cons, ofByte_fixint hn, List.nil_append,
      List.length_singleton]
  · split
    · exact yields_uint_word (by decide) (by omega)
    · split
      · exact yields_uint_word (by decide) (by omega)
      · split
        · exact yields_uint_word (by decide) (by omega)
        · exact yields_uint_word (by decide) (by omega)

/-- A number that fits a two's complement word is the number of its word. -/
theorem signedValue_signedWord {width : Nat} {n : Int} (hwidth : 0 < width)
    (hlow : -2 ^ (8 * width - 1) ≤ n) (hhigh : n < 2 ^ (8 * width - 1)) :
    signedValue width (signedWord width n) = n := by
  have hdouble : (2 : Int) ^ (8 * width) = 2 * 2 ^ (8 * width - 1) := by
    rw [← pow_succ', Nat.sub_add_cancel (by omega)]
  unfold signedValue signedWord
  rw [hdouble]
  have hhalf : ((2 ^ (8 * width - 1) : Nat) : Int) = 2 ^ (8 * width - 1) := by push_cast; rfl
  generalize (2 : Int) ^ (8 * width - 1) = half at hlow hhigh hhalf ⊢
  by_cases hn : 0 ≤ n
  · rw [Int.emod_eq_of_lt hn (by omega)]
    rw [if_pos (by omega)]
    omega
  · have hmod : n % (2 * half) = n + 2 * half := by
      rw [← Int.add_emod_right, Int.emod_eq_of_lt (by omega) (by omega)]
    rw [hmod, if_neg (by omega)]
    omega

theorem two_pow_eight_mul (width : Nat) : (2 : Int) ^ (8 * width) = (256 ^ width : Nat) := by
  push_cast
  rw [pow_mul]
  norm_num

theorem signedWord_lt (width : Nat) (n : Int) : signedWord width n < 256 ^ width := by
  have hpow := two_pow_eight_mul width
  have hpos : (0 : Int) < 2 ^ (8 * width) := by positivity
  have hlt := Int.emod_lt_of_pos n hpos
  have hnonneg := Int.emod_nonneg n hpos.ne'
  unfold signedWord
  omega

theorem yields_sint_word {b : UInt8} {width : Nat} {n : Int}
    (hmarker : Marker.ofByte b = .sint width) (hwidth : 0 < width)
    (hlow : -2 ^ (8 * width - 1) ≤ n) (hhigh : n < 2 ^ (8 * width - 1)) :
    Yields Cursor.int? (b :: bigEndian width (signedWord width n)) n := by
  intro position rest
  obtain ⟨hfirst, hword⟩ := word_behind (signedWord_lt width n) b position rest
  rw [hmarker] at hfirst
  simp only [Cursor.int?, hfirst, hword, Option.map_some, signedValue_signedWord hwidth hlow hhigh]

/-- A small negative number stands in its marker. -/
theorem yields_negative {n : Int} (hlow : -0x20 ≤ n) (hhigh : n < 0) :
    Yields Cursor.int? (bigEndian 1 (signedWord 1 n)) n := by
  obtain ⟨word, hword⟩ : ∃ word : Nat, (word : Int) = n + 0x100 := ⟨(n + 0x100).toNat, by omega⟩
  have hsigned : signedWord 1 n = word := by
    unfold signedWord
    omega
  have hbytes : bigEndian 1 word = [UInt8.ofNat word] := by simp [bigEndian]
  have hnumber : (word : Int) - 0x100 = n := by omega
  intro position rest
  rw [hsigned, hbytes]
  simp only [Cursor.int?, List.cons_append, marker_cons,
    ofByte_negative (n := word) (by omega) (by omega), hnumber, List.nil_append,
    List.length_singleton]

theorem yields_int {n : Int} (hlow : -2 ^ 63 ≤ n) (hhigh : n < 2 ^ 64) :
    Yields Cursor.int? (Encoding.int n) n := by
  unfold Encoding.int
  split
  · rename_i hn
    have hnat := yields_uint (n := n.toNat) (by omega)
    rwa [Int.toNat_of_nonneg hn] at hnat
  · split
    · exact yields_negative (by omega) (by omega)
    · split
      · exact yields_sint_word (by decide) (by decide) (by omega) (by omega)
      · split
        · exact yields_sint_word (by decide) (by decide) (by omega) (by omega)
        · split
          · exact yields_sint_word (by decide) (by decide) (by omega) (by omega)
          · exact yields_sint_word (by decide) (by decide) (by omega) (by omega)

/-! ## Nil -/

theorem nil?_nil (position : Nat) (rest : List UInt8) :
    Cursor.nil? ⟨position, Encoding.nil ++ rest⟩ =
      some ⟨position + Encoding.nil.length, rest⟩ := rfl

/-- An input that begins with the bytes does not begin with nil. -/
def NotNil (bytes : List UInt8) : Prop :=
  ∀ position rest, Cursor.nil? ⟨position, bytes ++ rest⟩ = none

theorem NotNil.append {bytes : List UInt8} (h : NotNil bytes) (more : List UInt8) :
    NotNil (bytes ++ more) := by
  intro position rest
  rw [List.append_assoc]
  exact h position (more ++ rest)

/-- What is taken off an input by anything that refuses nil is not nil. -/
theorem Yields.notNil {α : Type} {take : Cursor → Option (α × Cursor)} {bytes : List UInt8} {a : α}
    (h : Yields take bytes a)
    (hrefuses : ∀ c after, c.marker? = some (.nil, after) → take c = none) : NotNil bytes := by
  intro position rest
  have htaken := h position rest
  generalize (⟨position, bytes ++ rest⟩ : Cursor) = c at htaken ⊢
  unfold Cursor.nil?
  split
  · rename_i after hmarker
    rw [hrefuses c after hmarker] at htaken
    cases htaken
  · rfl

theorem refuses_nil_bool (c after : Cursor) (h : c.marker? = some (.nil, after)) :
    c.bool? = none := by simp only [Cursor.bool?, h]

theorem refuses_nil_int (c after : Cursor) (h : c.marker? = some (.nil, after)) :
    c.int? = none := by simp only [Cursor.int?, h]

theorem refuses_nil_f32 (c after : Cursor) (h : c.marker? = some (.nil, after)) :
    c.f32? = none := by simp only [Cursor.f32?, h]

theorem refuses_nil_f64 (c after : Cursor) (h : c.marker? = some (.nil, after)) :
    c.f64? = none := by simp only [Cursor.f64?, h]

theorem refuses_nil_string (c after : Cursor) (h : c.marker? = some (.nil, after)) :
    c.string? = none := by simp only [Cursor.string?, Cursor.strBytes?, h]

theorem refuses_nil_binary (c after : Cursor) (h : c.marker? = some (.nil, after)) :
    c.binary? = none := by simp only [Cursor.binary?, h]

theorem refuses_nil_arrayHeader (c after : Cursor) (h : c.marker? = some (.nil, after)) :
    c.arrayHeader? = none := by simp only [Cursor.arrayHeader?, h]

theorem refuses_nil_mapHeader (c after : Cursor) (h : c.marker? = some (.nil, after)) :
    c.mapHeader? = none := by simp only [Cursor.mapHeader?, h]

end SchemaPack.Wire
