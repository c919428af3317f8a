import SchemaPack.Proofs.Plain.Agreement
import SchemaPack.Proofs.Plain.Appending
import SchemaPack.Proofs.Wire.Scalars

/-!
Integers and strings through a served codec. A number is appended in the fewest bytes and read from
any of its encodings, if it is of the type. What fails to be read is reported by the class of the
first byte alone, so an integer or a string at which the input ends goes under the same fault as one
that is complete.
-/
namespace SchemaPack

open Wire (Cursor Encoding.int exists_spans_of_front)
open Wire.Grammar

/-! ## Integers -/

namespace IntType

/-- Every number that is taken from here lies outside the range of the type. -/
def Absent (t : IntType) (c : Cursor) : Prop :=
  ∀ n after, c.int? = some (n, after) → ¬ (t.min ≤ n ∧ n ≤ t.max)

theorem present_or_absent (t : IntType) (c : Cursor) :
    (∃ (n : t.Range) (after : Cursor), c.int? = some (n.val, after)) ∨ t.Absent c := by
  by_cases hpresent : ∃ (n : t.Range) (after : Cursor), c.int? = some (n.val, after)
  · exact .inl hpresent
  · exact .inr fun n after hint hn => hpresent ⟨⟨n, hn⟩, after, hint⟩

variable {t : IntType} {c : Cursor}

/-- The fault of a read goes by the first byte, not by what was taken. -/
theorem read_of_absent (h : t.Absent c) :
    (t.read c).1 = .error (if c.peek = .integer then .integerOutOfRange t
      else .unexpectedFormat "Integer" c.peek) := by
  unfold read
  cases hwithin : c.intWithin? t.readLow t.readHigh with
  | none =>
    simp only
    split <;> rfl
  | some taken =>
    obtain ⟨n, after⟩ := taken
    have hint : c.int? = some (n, after) := (Cursor.intWithin?_eq_some.mp hwithin).1
    have hnone : t.ofInt? n = none := dif_neg (h n after hint)
    simp only [hnone, if_pos (integer_scalar.peek_eq hint)]

end IntType

/-! ## Faults of scalars -/

theorem string?_eq_none {c : Cursor} :
    c.string? = none ↔
      ∀ payload after, c.strBytes? = some (payload, after) → ∀ s, utf8 s ≠ payload := by
  unfold Cursor.string?
  cases c.strBytes? with
  | none => exact ⟨fun _ _ _ => nofun, fun _ => rfl⟩
  | some taken =>
    obtain ⟨payload, after⟩ := taken
    simp only [Option.map_eq_none_iff]
    constructor
    · rintro hnone _ _ ⟨⟩ s rfl
      rw [Wire.fromUTF8_utf8] at hnone
      cases hnone
    · intro htext
      cases htaken : String.fromUTF8? ⟨payload.toArray⟩ with
      | none => rfl
      | some s => exact absurd (Wire.utf8_of_fromUTF8? htaken) (htext payload after rfl s)

namespace Primitive

variable {p : Primitive} {c : Cursor}

/-- Beside the class of what stands there instead, there are two faults. -/
theorem fault_of_read {fault : ReadFault} (h : (p.read c).1 = .error fault) :
    (∃ expected, fault = .unexpectedFormat expected c.peek) ∨
      (∃ t, p = .int t ∧ fault = .integerOutOfRange t) ∨ p = .string ∧ fault = .invalidUtf8 := by
  cases p with
  | int t =>
    rw [read] at h
    obtain ⟨n, after, hint⟩ | habsent := t.present_or_absent c
    · rw [IntType.read_eq_ok.mpr ⟨n, hint, rfl⟩] at h
      cases h
    · rw [IntType.read_of_absent habsent] at h
      cases h
      split
      · exact .inr (.inl ⟨t, rfl, rfl⟩)
      · exact .inl ⟨_, rfl⟩
  | string =>
    simp only [read] at h
    split at h
    · cases h
    · split at h
      · cases h
        exact .inr (.inr ⟨rfl, rfl⟩)
      · cases h
        exact .inl ⟨_, rfl⟩
  | bool | f32 =>
    simp only [read] at h
    split at h
    · cases h
    · cases h
      exact .inl ⟨_, rfl⟩
  | f64 =>
    simp only [read] at h
    split at h
    · cases h
    · split at h
      · cases h
      · cases h
        exact .inl ⟨_, rfl⟩

/-- A number is reported as out of range whenever the first byte is one of an integer and no number
of the type can be taken. -/
theorem read_eq_outOfRange {t : IntType} :
    (p.read c).1 = .error (.integerOutOfRange t) ↔
      p = .int t ∧ c.peek = .integer ∧ t.Absent c := by
  constructor
  · intro h
    obtain ⟨_, hfault⟩ | ⟨_, rfl, hfault⟩ | ⟨-, hfault⟩ := fault_of_read h
    · cases hfault
    · cases hfault
      rw [read] at h
      obtain ⟨n, after, hint⟩ | habsent := t.present_or_absent c
      · rw [IntType.read_eq_ok.mpr ⟨n, hint, rfl⟩] at h
        cases h
      · rw [IntType.read_of_absent habsent] at h
        split at h
        · rename_i hpeek
          exact ⟨rfl, hpeek, habsent⟩
        · cases h
    · cases hfault
  · rintro ⟨rfl, hpeek, habsent⟩
    rw [read, IntType.read_of_absent habsent, if_pos hpeek]

/-- A string is reported as invalid whenever the first byte is one of a string and no text can be
taken. -/
theorem read_eq_invalidUtf8 :
    (p.read c).1 = .error .invalidUtf8 ↔ p = .string ∧ c.peek = .string ∧
      ∀ payload after, c.strBytes? = some (payload, after) → ∀ s, utf8 s ≠ payload := by
  rw [← string?_eq_none]
  constructor
  · intro h
    obtain ⟨_, hfault⟩ | ⟨_, -, hfault⟩ | ⟨rfl, -⟩ := fault_of_read h
    · cases hfault
    · cases hfault
    · simp only [read] at h
      split at h
      · cases h
      · rename_i hnone
        split at h
        · rename_i hpeek
          exact ⟨rfl, hpeek, hnone⟩
        · cases h
  · rintro ⟨rfl, hpeek, hnone⟩
    simp only [read, hnone, if_pos hpeek]

end Primitive

namespace Scope

variable {scope : Scope} {target : Ty} {step : Cursor → Except ReadFault Value × Cursor}
  {c : Cursor}

theorem run_faults {fault : ReadFault} :
    (∃ e after, scope.run target step c = .error (.read e) after ∧ e.fault = fault) ↔
      (step c).1 = .error fault := by
  constructor
  · rintro ⟨e, after, hfailed, rfl⟩
    obtain ⟨fault, hstep, herror⟩ := run_eq_error.mp hfailed
    cases herror
    rw [hstep]
  · intro hfault
    have hstep : step c = (.error fault, (step c).2) := Prod.ext hfault rfl
    exact ⟨_, _, run_eq_error.mpr ⟨fault, hstep, rfl⟩, rfl⟩

end Scope

namespace Context

variable {catalog : Catalog} {config : Config} {history : List (Ty × Policy)} {policy : Policy}
  {h : Handle} {p : Primitive} {t : IntType}

theorem readWith_primitive
    (hserved : (((fresh catalog config).after history).request (.primitive p) policy).1 = .ok h)
    (behaviour : Policy) :
    h.readWith behaviour =
      (Scope.root behaviour config.maxDepth).run (.primitive p) p.read := by
  rw [readWith_eq_plain hserved]
  rfl

/-- Every number of the type is written in one of its encodings, and no other of them is shorter.
Where an encoding of a number stands, in any of its forms, the read gives the number and ends behind
it if the number is of the type, and gives nothing if it is not. -/
theorem integers_shortest_written_any_read
    (hserved : (((fresh catalog config).after history).request (.primitive (.int t)) policy).1 =
      .ok h) :
    (∀ n : t.Range, ∃ bytes, (h.write (.int t n)).Appends bytes (.ok ()) ∧ Integer n.val bytes ∧
      ∀ other, Integer n.val other → bytes.length ≤ other.length) ∧
    ∀ behaviour n bytes, Integer n bytes → ∀ position rest v after,
      h.readWith behaviour ⟨position, bytes ++ rest⟩ = .ok v after ↔
        ∃ hn : t.min ≤ n ∧ n ≤ t.max,
          v = .int t ⟨n, hn⟩ ∧ after = ⟨position + bytes.length, rest⟩ := by
  constructor
  · intro n
    refine ⟨Encoding.int n.val, ?_, integer_int ?_ ?_, fun other hother => hother.length_le⟩
    · rw [write_eq_plain hserved]
      intro output
      simp only [Plain.write, Ty.unwrapped, Plain.writeAtom, Primitive.write, if_true]
      rfl
    · exact le_trans (by cases t <;> decide) n.property.1
    · exact lt_of_le_of_lt n.property.2 (by cases t <;> decide)
  · intro behaviour n bytes hinteger position rest v after
    have hint := hinteger.yields position rest
    rw [readWith_primitive hserved, Scope.run_eq_ok]
    simp only [Primitive.read]
    rw [IntType.read_eq_ok]
    constructor
    · rintro ⟨m, hm, rfl⟩
      rw [hint] at hm
      cases hm
      exact ⟨m.property, rfl, rfl⟩
    · rintro ⟨hn, rfl, rfl⟩
      exact ⟨⟨n, hn⟩, hint, rfl⟩

theorem integer_is_served (t : IntType) :
    ∃ h, (((fresh {} {}).after []).request (.primitive (.int t)) .throw).1 = .ok h :=
  exists_handle (by cases t <;> decide)

/-- A negative number stands in its first byte, and could in a word of two bytes; a positive one
that fits only a word without a sign is not of the type. -/
theorem halfwords_shortest_written_any_read : ∃ h,
    (((fresh {} {}).after []).request (.primitive (.int .i16)) .throw).1 = .ok h ∧
      (∃ bytes, (h.write (.int .i16 ⟨-2, by decide⟩)).Appends bytes (.ok ()) ∧
        bytes.length ≤ [0xfe].length) ∧
      h.readWith .throw ⟨7, [0xd1, 0xff, 0xfe] ++ [0xc0]⟩ =
        .ok (.int .i16 ⟨-2, by decide⟩) ⟨10, [0xc0]⟩ ∧
      ∀ v after, h.readWith .throw ⟨7, [0xcd, 0x9c, 0x40] ++ [0xc0]⟩ ≠ .ok v after := by
  have hone : Integer (-2) [0xfe] := @Integer.negative 0xfe (by decide) (by decide)
  have htwo : Integer (-2) [0xd1, 0xff, 0xfe] := .signed .int16 (by decide) (by decide) (by decide)
  have hpositive : Integer 40000 [0xcd, 0x9c, 0x40] := @Integer.unsigned 0xcd [0x9c, 0x40] .uint16
  obtain ⟨h, hserved⟩ := integer_is_served .i16
  obtain ⟨hwrite, hread⟩ := integers_shortest_written_any_read hserved
  obtain ⟨bytes, happends, -, hshortest⟩ := hwrite ⟨-2, by decide⟩
  refine ⟨h, hserved, ⟨bytes, happends, hshortest _ hone⟩, ?_, fun v after hok => ?_⟩
  · exact (hread .throw _ _ htwo 7 [0xc0] _ _).mpr ⟨by decide, rfl, rfl⟩
  · obtain ⟨hn, -⟩ := (hread .throw _ _ hpositive 7 [0xc0] v after).mp hok
    exact absurd hn (by decide)

/-- A read reports a number out of range just where a complete encoding of a number outside the
range of the type stands, or where the input ends inside an encoding of an integer. It reports a
string that is not valid just where a complete one stands whose payload is of no text, or where the
input ends inside a string. -/
theorem scalar_fault_iff
    (hserved : (((fresh catalog config).after history).request (.primitive p) policy).1 = .ok h)
    (behaviour : Policy) (cursor : Cursor) :
    (∀ target, (∃ e after, h.readWith behaviour cursor = .error (.read e) after ∧
        e.fault = .integerOutOfRange target) ↔
      p = .int target ∧
        ((∃ n bytes, Integer n bytes ∧ bytes <+: cursor.rest ∧
          ¬ (target.min ≤ n ∧ n ≤ target.max)) ∨
        CutOff (fun bytes => ∃ n, Integer n bytes) cursor.rest)) ∧
    ((∃ e after, h.readWith behaviour cursor = .error (.read e) after ∧ e.fault = .invalidUtf8) ↔
      p = .string ∧
        ((∃ payload bytes, Str payload bytes ∧ bytes <+: cursor.rest ∧ ∀ s, utf8 s ≠ payload) ∨
        CutOff (fun bytes => ∃ payload, Str payload bytes) cursor.rest)) := by
  rw [readWith_primitive hserved]
  constructor
  · intro target
    rw [Scope.run_faults, Primitive.read_eq_outOfRange, IntType.Absent,
      integer_scalar.refuses_iff fun n => ¬ (target.min ≤ n ∧ n ≤ target.max)]
  · rw [Scope.run_faults, Primitive.read_eq_invalidUtf8,
      string_scalar.refuses_iff fun payload => ∀ s, utf8 s ≠ payload]

/-- A complete number above the range and half a word are reported alike. -/
theorem halfword_faults : ∃ h,
    (((fresh {} {}).after []).request (.primitive (.int .i16)) .throw).1 = .ok h ∧
      (∃ e after, h.readWith .ignore ⟨3, [0xcd, 0x9c, 0x40]⟩ = .error (.read e) after ∧
        e.fault = .integerOutOfRange .i16) ∧
      ∃ e after, h.readWith .ignore ⟨3, [0xcd, 0x01]⟩ = .error (.read e) after ∧
        e.fault = .integerOutOfRange .i16 := by
  have hlarge : Integer 40000 [0xcd, 0x9c, 0x40] := @Integer.unsigned 0xcd [0x9c, 0x40] .uint16
  have hsmall : Integer 256 [0xcd, 0x01, 0x00] := @Integer.unsigned 0xcd [0x01, 0x00] .uint16
  obtain ⟨h, hserved⟩ := integer_is_served .i16
  refine ⟨h, hserved, ?_, ?_⟩
  · refine ((scalar_fault_iff hserved .ignore ⟨3, _⟩).1 .i16).mpr ⟨rfl, .inl ?_⟩
    exact ⟨40000, _, hlarge, List.prefix_refl _, by decide⟩
  · refine ((scalar_fault_iff hserved .ignore ⟨3, _⟩).1 .i16).mpr ⟨rfl, .inr ⟨nofun, ?_⟩⟩
    exact ⟨[0x00], nofun, 256, hsmall⟩

/-- Of two bytes that announce a word of two, and of a string with one of its two bytes, a read
says that they do not fit and that they are no text. There is no number and no string yet, and the
walk that skips a value finds the end of the input inside one. -/
theorem truncated_scalars_misreported : ∃ integers strings,
    (((fresh {} {}).after []).request (.primitive (.int .u16)) .throw).1 = .ok integers ∧
    (((fresh {} {}).after []).request (.primitive .string) .throw).1 = .ok strings ∧
      (∃ e after, integers.readWith .throw ⟨0, [0xcd, 0x01]⟩ = .error (.read e) after ∧
        e.fault = .integerOutOfRange .u16) ∧
      (¬ ∃ n bytes, Integer n bytes ∧ bytes <+: [0xcd, 0x01]) ∧
      (∃ e after, strings.readWith .throw ⟨0, [0xa2, 0x61]⟩ = .error (.read e) after ∧
        e.fault = .invalidUtf8) ∧
      (¬ ∃ payload bytes, Str payload bytes ∧ bytes <+: [0xa2, 0x61]) ∧
      Cursor.skip ⟨0, [0xcd, 0x01]⟩ = .error (.truncated 0) ∧
      Cursor.skip ⟨0, [0xa2, 0x61]⟩ = .error (.truncated 0) := by
  obtain ⟨integers, hintegers⟩ := integer_is_served .u16
  obtain ⟨strings, hstrings⟩ : ∃ h,
      (((fresh {} {}).after []).request (.primitive .string) .throw).1 = .ok h :=
    exists_handle (by decide)
  refine ⟨integers, strings, hintegers, hstrings, ?_, ?_, ?_, ?_, ?_, ?_⟩
  · rw [readWith_primitive hintegers]
    exact ⟨_, _, rfl, rfl⟩
  · rintro ⟨n, bytes, hinteger, hfront⟩
    obtain ⟨after, hspans⟩ := @exists_spans_of_front ⟨0, _⟩ _ hfront
    have hnone : Cursor.int? ⟨0, [0xcd, 0x01]⟩ = none := rfl
    cases hnone.symm.trans (integer_scalar.eq_some.mpr ⟨bytes, hspans, hinteger⟩)
  · rw [readWith_primitive hstrings]
    exact ⟨_, _, rfl, rfl⟩
  · rintro ⟨payload, bytes, hstr, hfront⟩
    obtain ⟨after, hspans⟩ := @exists_spans_of_front ⟨0, _⟩ _ hfront
    have hnone : Cursor.strBytes? ⟨0, [0xa2, 0x61]⟩ = none := by decide
    cases hnone.symm.trans (string_scalar.eq_some.mpr ⟨bytes, hspans, hstr⟩)
  · rw [Cursor.skip, Wire.Grammar.skipValues_error rfl]
  · rw [Cursor.skip, Wire.Grammar.skipValues_error rfl]

end Context

end SchemaPack
