import SchemaPack.Proofs.Height
import SchemaPack.Proofs.Text.Decimal
import SchemaPack.Proofs.Text.Version
import SchemaPack.Tag
import SchemaPack.Wire.Encoding

/-!
Which values can travel. Every length that is written has to fit 32 bits, and every component of a
version has to fit them with a sign. A value is portable if that is so for the value and for all
that is nested in it. The texts of numbers need no condition, since they are short.
-/
namespace SchemaPack

namespace Value

/-! ## What is nested in a value -/

def Throughout (P : Value → Prop) (v : Value) : Prop := ∀ n w, Below n v w → P w

theorem throughout_iff {P : Value → Prop} {v : Value} :
    v.Throughout P ↔ P v ∧ ∀ u, Holds v u → u.Throughout P := by
  constructor
  · intro h
    exact ⟨h 0 v .here, fun u hu n w hw => h (n + 1) w (.inside hu hw)⟩
  · rintro ⟨hv, hinside⟩ n w hw
    cases hw with
    | here => exact hv
    | inside hu h => exact hinside _ hu _ w h

/-- The lengths that are written for a value itself: how much it holds, the length of the tag of an
alternative, and the lengths of the names of fields. -/
def lengths : Value → List Nat
  | .null | .bool _ | .int _ _ | .f32 _ | .f64 _ | .decimal _ | .version _ => []
  | .string s => [s.utf8ByteSize]
  | .bytes data => [data.length]
  | .tuple items => [items.length]
  | .union alternative _ => [alternative.tag.utf8ByteSize]
  | .list items => [items.length]
  | .map entries => [entries.length]
  | .record fields => fields.length :: fields.map (·.1.utf8ByteSize)

def Travels (v : Value) : Prop :=
  (∀ number, v = .version number → number.InRange) ∧ ∀ n ∈ v.lengths, n < Wire.lengthBound

def Portable : Value → Prop := Throughout Travels

theorem portable_iff_holds {v : Value} :
    v.Portable ↔ v.Travels ∧ ∀ u, Holds v u → u.Portable := throughout_iff

/-- The conditions on versions and on lengths, each over all values nested in a value. -/
theorem portable_iff {v : Value} : v.Portable ↔
    (∀ n number, Below n v (.version number) → number.InRange) ∧
      ∀ n w, Below n v w → ∀ length ∈ w.lengths, length < Wire.lengthBound := by
  constructor
  · intro h
    exact ⟨fun n number hbelow => (h n _ hbelow).1 number rfl, fun n w hbelow => (h n w hbelow).2⟩
  · rintro ⟨hversions, hlengths⟩ n w hbelow
    refine ⟨?_, hlengths n w hbelow⟩
    rintro number rfl
    exact hversions n number hbelow

theorem Portable.below {v w : Value} (h : v.Portable) {n : Nat} (hw : Below n v w) :
    w.Portable := by
  induction hw with
  | here => exact h
  | inside hu _ ih => exact ih ((portable_iff_holds.mp h).2 _ hu)

/-! ## Portable values by their shape -/

/-- A value with nothing written for it but a few bytes. -/
theorem portable_of_flat {v : Value} (hlengths : v.lengths = [])
    (hversion : ∀ number, v ≠ .version number) (hinside : ∀ u, ¬ Holds v u) : v.Portable := by
  refine portable_iff_holds.mpr ⟨⟨fun number h => absurd h (hversion number), ?_⟩,
    fun u hu => absurd hu (hinside u)⟩
  rw [hlengths]
  exact nofun

theorem portable_null : null.Portable := portable_of_flat rfl nofun nofun

theorem portable_bool (b : Bool) : (bool b).Portable := portable_of_flat rfl nofun nofun

theorem portable_int (t : IntType) (n : t.Range) : (int t n).Portable :=
  portable_of_flat rfl nofun nofun

theorem portable_f32 (bits : UInt32) : (f32 bits).Portable := portable_of_flat rfl nofun nofun

theorem portable_f64 (bits : UInt64) : (f64 bits).Portable := portable_of_flat rfl nofun nofun

theorem portable_decimal (d : Decimal) : (decimal d).Portable := portable_of_flat rfl nofun nofun

theorem portable_version {number : Version} : (version number).Portable ↔ number.InRange := by
  rw [portable_iff_holds]
  constructor
  · exact fun h => h.1.1 number rfl
  · refine fun h => ⟨⟨?_, nofun⟩, nofun⟩
    rintro _ heq
    cases heq
    exact h

/-- A value with one length in front. -/
theorem travels_of_length {v : Value} {length : Nat} (hlengths : v.lengths = [length]) :
    v.Travels ↔ length < Wire.lengthBound := by
  unfold Travels
  rw [hlengths, List.forall_mem_singleton]
  refine and_iff_right ?_
  rintro number rfl
  cases hlengths

theorem portable_string {s : String} :
    (string s).Portable ↔ s.utf8ByteSize < Wire.lengthBound := by
  rw [portable_iff_holds, travels_of_length rfl]
  exact and_iff_left nofun

theorem portable_bytes {data : List UInt8} :
    (bytes data).Portable ↔ data.length < Wire.lengthBound := by
  rw [portable_iff_holds, travels_of_length rfl]
  exact and_iff_left nofun

theorem portable_tuple {items : List Value} :
    (tuple items).Portable ↔ items.length < Wire.lengthBound ∧ ∀ v ∈ items, v.Portable := by
  rw [portable_iff_holds, travels_of_length rfl]
  refine and_congr_right fun _ => ⟨fun h v hv => h v (.item hv), fun h u hu => ?_⟩
  cases hu with
  | item hv => exact h u hv

theorem portable_union {alternative : Ty} {held : Value} :
    (union alternative held).Portable ↔
      alternative.tag.utf8ByteSize < Wire.lengthBound ∧ held.Portable := by
  rw [portable_iff_holds, travels_of_length rfl]
  refine and_congr_right fun _ => ⟨fun h => h held .held, fun h u hu => ?_⟩
  cases hu with
  | held => exact h

theorem portable_list {items : List Value} :
    (list items).Portable ↔ items.length < Wire.lengthBound ∧ ∀ v ∈ items, v.Portable := by
  rw [portable_iff_holds, travels_of_length rfl]
  refine and_congr_right fun _ => ⟨fun h v hv => h v (.element hv), fun h u hu => ?_⟩
  cases hu with
  | element hv => exact h u hv

theorem portable_map {entries : List (Value × Value)} :
    (map entries).Portable ↔
      entries.length < Wire.lengthBound ∧ ∀ e ∈ entries, e.1.Portable ∧ e.2.Portable := by
  rw [portable_iff_holds, travels_of_length rfl]
  refine and_congr_right fun _ =>
    ⟨fun h e he => ⟨h e.1 (.key he), h e.2 (.value he)⟩, fun h u hu => ?_⟩
  cases hu with
  | key he => exact (h _ he).1
  | value he => exact (h _ he).2

theorem portable_record {fields : List (String × Value)} :
    (record fields).Portable ↔ fields.length < Wire.lengthBound ∧
      ∀ f ∈ fields, f.1.utf8ByteSize < Wire.lengthBound ∧ f.2.Portable := by
  rw [portable_iff_holds, Travels, lengths, List.forall_mem_cons, List.forall_mem_map]
  constructor
  · rintro ⟨⟨-, hlength, hnames⟩, hinside⟩
    exact ⟨hlength, fun f hf => ⟨hnames f hf, hinside f.2 (.field hf)⟩⟩
  · rintro ⟨hlength, hfields⟩
    refine ⟨⟨nofun, hlength, fun f hf => (hfields f hf).1⟩, fun u hu => ?_⟩
    cases hu with
    | field hf => exact (hfields _ hf).2

end Value

/-! ## Texts of numbers -/

theorem utf8ByteSize_le (s : String) : s.utf8ByteSize ≤ 4 * s.toList.length := by
  rw [← String.ofList_toList (s := s)]
  generalize s.toList = chars
  rw [String.toList_ofList]
  induction chars with
  | nil => exact Nat.le_refl 0
  | cons c chars ih =>
    have hchar := c.utf8Size_le_four
    rw [String.ofList_cons, String.utf8ByteSize_append, String.utf8ByteSize_singleton,
      List.length_cons]
    omega

theorem Decimal.utf8ByteSize_text_lt (d : Decimal) : d.text.utf8ByteSize < Wire.lengthBound := by
  obtain ⟨whole, decimals, hchars, -, -, hdigits⟩ := d.chars_eq
  have hmantissa : d.mantissa.natAbs < 10 ^ 29 := Nat.lt_trans d.mantissa_lt (by decide)
  have hcount := (Nat.length_toDigits_le_iff (b := 10) (k := 29) (by decide) (by decide)).mpr
    hmantissa
  have hscale := d.scale_le
  have hlength : (whole ++ decimals).length ≤ 29 := by
    rw [hdigits, paddedDigits, List.length_append, List.length_replicate]
    omega
  have hchars : d.chars.length ≤ 31 := by
    rw [List.length_append] at hlength
    rw [hchars, List.length_append, List.length_append]
    split <;> split <;> simp only [List.length_cons, List.length_nil] <;> omega
  have hsize := utf8ByteSize_le d.text
  rw [text, String.toList_ofList] at hsize
  rw [text, Wire.lengthBound]
  omega

theorem length_intercalate_le {parts : List (List Char)} {width : Nat}
    (hparts : ∀ part ∈ parts, part.length ≤ width) (separator : Char) :
    ([separator].intercalate parts).length ≤ (width + 1) * parts.length := by
  induction parts with
  | nil => exact Nat.zero_le _
  | cons part rest ih =>
    have hpart := hparts part List.mem_cons_self
    have hrest := ih fun p hp => hparts p (List.mem_cons_of_mem _ hp)
    cases rest with
    | nil =>
      rw [List.intercalate_singleton, List.length_singleton]
      omega
    | cons next rest =>
      rw [List.intercalate_cons_cons, List.length_append, List.length_append,
        List.length_singleton, List.length_cons, Nat.mul_succ]
      omega

theorem Version.utf8ByteSize_text_lt (v : Version) : v.text.utf8ByteSize < Wire.lengthBound := by
  have hdigits : ∀ part ∈ v.components.map fun c => (toString c.toNat).toList,
      part.length ≤ 10 := by
    intro part hpart
    obtain ⟨c, -, rfl⟩ := List.mem_map.mp hpart
    have hrepr : (toString c.toNat).toList = Nat.toDigits 10 c.toNat := Nat.toList_repr
    rw [hrepr, Nat.length_toDigits_le_iff (by decide) (by decide)]
    exact Nat.lt_trans c.toNat_lt (by decide)
  have hlength := length_intercalate_le hdigits '.'
  rw [← v.toList_text, List.length_map] at hlength
  have hcount := v.length_le_four
  have hsize := utf8ByteSize_le v.text
  rw [Wire.lengthBound]
  omega

end SchemaPack
