import SchemaPack.Codec.Handle

/-!
What a step comes to, by the steps it is made of. Each ends in a result or in a failure, and the
lemmas here say exactly when and with what, so that no proof about a step has to open the steps
inside it.
-/
namespace SchemaPack

open Wire (Cursor)

/-! ## Steps in a row -/

namespace Outcome

variable {ε ε' σ α β : Type} {m : EStateM ε σ α} {f : α → EStateM ε σ β} {g : ε → ε'} {s s' : σ}

theorem bind_of_ok {a : α} (h : m s = .ok a s') : (m >>= f) s = f a s' := by
  simp only [Bind.bind, EStateM.bind, h]

theorem bind_of_error {e : ε} (h : m s = .error e s') : (m >>= f) s = .error e s' := by
  simp only [Bind.bind, EStateM.bind, h]

/-- A result of two steps in a row is one of the second, from where the first one ends. -/
theorem bind_eq_ok {b : β} :
    (m >>= f) s = .ok b s' ↔ ∃ a middle, m s = .ok a middle ∧ f a middle = .ok b s' := by
  constructor
  · intro hok
    cases hm : m s with
    | ok a middle => exact ⟨a, middle, rfl, (bind_of_ok hm).symm.trans hok⟩
    | error e middle => cases (bind_of_error hm).symm.trans hok
  · rintro ⟨a, middle, hm, hok⟩
    exact (bind_of_ok hm).trans hok

/-- A failure of two steps in a row is one of the first, or one of the second behind it. -/
theorem bind_eq_error {e : ε} :
    (m >>= f) s = .error e s' ↔
      m s = .error e s' ∨ ∃ a middle, m s = .ok a middle ∧ f a middle = .error e s' := by
  constructor
  · intro hfailed
    cases hm : m s with
    | ok a middle => exact .inr ⟨a, middle, rfl, (bind_of_ok hm).symm.trans hfailed⟩
    | error e' middle =>
      cases (bind_of_error hm).symm.trans hfailed
      exact .inl rfl
  · rintro (hm | ⟨a, middle, hm, hfailed⟩)
    · exact bind_of_error hm
    · exact (bind_of_ok hm).trans hfailed

/-- Failures that are seen from elsewhere leave the results as they are. -/
theorem adaptExcept_eq_ok {a : α} :
    EStateM.adaptExcept g m s = .ok a s' ↔ m s = .ok a s' := by
  unfold EStateM.adaptExcept
  cases m s with
  | ok b middle =>
    constructor
    · intro hok
      cases hok
      rfl
    · intro hok
      cases hok
      rfl
  | error e middle => exact ⟨nofun, nofun⟩

theorem adaptExcept_eq_error {e' : ε'} :
    EStateM.adaptExcept g m s = .error e' s' ↔ ∃ e, m s = .error e s' ∧ g e = e' := by
  unfold EStateM.adaptExcept
  cases m s with
  | ok b middle => exact ⟨nofun, nofun⟩
  | error e middle =>
    constructor
    · intro hfailed
      cases hfailed
      exact ⟨e, rfl, rfl⟩
    · rintro ⟨_, heq, rfl⟩
      cases heq
      rfl

end Outcome

/-! ## Steps of reading -/

namespace Read

variable {α : Type} {take : Cursor → Option (α × Cursor)} {scope : Scope} {target : Ty}
  {fault : Wire.Format → ReadFault} {c after : Cursor} {e : CodecError}

theorem demand_eq_ok {a : α} :
    demand take scope target fault c = .ok a after ↔ take c = some (a, after) := by
  unfold demand
  cases take c with
  | some taken =>
    constructor
    · intro hok
      cases hok
      rfl
    · intro htake
      cases htake
      rfl
  | none => exact ⟨nofun, nofun⟩

theorem demand_eq_error :
    demand take scope target fault c = .error e after ↔
      take c = none ∧ e = scope.fail target (fault c.peek) ∧ after = c := by
  unfold demand
  cases take c with
  | some taken => exact ⟨nofun, nofun⟩
  | none =>
    constructor
    · intro hfailed
      cases hfailed
      exact ⟨rfl, rfl, rfl⟩
    · rintro ⟨-, rfl, rfl⟩
      rfl

theorem skip_eq_ok {u : Unit} : skip scope target c = .ok u after ↔ c.skip = .ok after := by
  unfold skip
  cases c.skip with
  | ok behind =>
    constructor
    · intro hok
      cases hok
      rfl
    · intro hskip
      cases hskip
      rfl
  | error d => exact ⟨nofun, nofun⟩

theorem skip_eq_error :
    skip scope target c = .error e after ↔
      ∃ d, c.skip = .error d ∧ e = scope.fail target (.malformed d) ∧ after = c := by
  unfold skip
  cases c.skip with
  | ok behind => exact ⟨nofun, nofun⟩
  | error d =>
    constructor
    · intro hfailed
      cases hfailed
      exact ⟨d, rfl, rfl, rfl⟩
    · rintro ⟨_, heq, rfl, rfl⟩
      cases heq
      rfl

end Read

namespace Scope

variable {scope : Scope} {target : Ty} {step : Cursor → Except ReadFault Value × Cursor}
  {c after : Cursor}

theorem run_eq_ok {v : Value} :
    scope.run target step c = .ok v after ↔ step c = (.ok v, after) := by
  unfold run
  split
  · rename_i heq
    rw [heq, EStateM.Result.ok.injEq, Prod.mk.injEq, Except.ok.injEq]
  · rename_i heq
    rw [heq]
    exact ⟨nofun, nofun⟩

theorem run_eq_error {e : CodecError} :
    scope.run target step c = .error e after ↔
      ∃ fault, step c = (.error fault, after) ∧ e = scope.fail target fault := by
  unfold run
  split
  · rename_i heq
    rw [heq]
    exact ⟨nofun, nofun⟩
  · rename_i fault behind heq
    rw [heq]
    constructor
    · intro hfailed
      cases hfailed
      exact ⟨fault, rfl, rfl⟩
    · rintro ⟨_, hfault, rfl⟩
      cases hfault
      rfl

end Scope

/-! ## Values with no values inside -/

theorem Wire.Cursor.intWithin?_eq_some {c after : Cursor} {low high n : Int} :
    c.intWithin? low high = some (n, after) ↔ c.int? = some (n, after) ∧ low ≤ n ∧ n ≤ high := by
  unfold intWithin?
  cases c.int? with
  | none => exact ⟨nofun, nofun⟩
  | some taken =>
    obtain ⟨k, behind⟩ := taken
    simp only [Option.ite_none_right_eq_some, Option.some.injEq, Prod.mk.injEq]
    constructor
    · rintro ⟨hrange, rfl, rfl⟩
      exact ⟨⟨rfl, rfl⟩, hrange⟩
    · rintro ⟨⟨rfl, rfl⟩, hrange⟩
      exact ⟨hrange, rfl, rfl⟩

namespace IntType

theorem readLow_le_min (t : IntType) : t.readLow ≤ t.min := by
  cases t <;> decide

theorem max_le_readHigh (t : IntType) : t.max ≤ t.readHigh := by
  cases t <;> decide

theorem ofInt?_eq_some {t : IntType} {n : Int} {v : t.Range} :
    t.ofInt? n = some v ↔ n = v.val := by
  unfold ofInt?
  split
  · rw [Option.some.injEq, eq_comm, Subtype.ext_iff, eq_comm]
  · rename_i hn
    constructor
    · exact nofun
    · rintro rfl
      exact absurd v.property hn

variable {t : IntType} {c after : Cursor} {v : Value}

/-- A read gives just the numbers of the type. -/
theorem read_eq_ok :
    t.read c = (.ok v, after) ↔ ∃ n : t.Range, c.int? = some (n.val, after) ∧ v = .int t n := by
  unfold read
  constructor
  · intro h
    split at h
    · rename_i htake
      split at h
      · rename_i n hn
        cases h
        obtain ⟨hint, -⟩ := Cursor.intWithin?_eq_some.mp htake
        exact ⟨n, ofInt?_eq_some.mp hn ▸ hint, rfl⟩
      · cases h
    · split at h
      · cases h
      · cases h
  · rintro ⟨n, hint, rfl⟩
    have htake : c.intWithin? t.readLow t.readHigh = some (n.val, after) :=
      Cursor.intWithin?_eq_some.mpr ⟨hint, Int.le_trans t.readLow_le_min n.property.1,
        Int.le_trans n.property.2 t.max_le_readHigh⟩
    have hn : t.ofInt? n.val = some n := ofInt?_eq_some.mpr rfl
    simp only [htake, hn]

end IntType

namespace Primitive

/-- How a primitive is taken off the input. A single stands for a double where no double is. -/
inductive Taken (c : Cursor) : Primitive → Value → Cursor → Prop
  | bool {b : Bool} {after : Cursor} (h : c.bool? = some (b, after)) : Taken c .bool (.bool b) after
  | int {t : IntType} {n : t.Range} {after : Cursor} (h : c.int? = some (n.val, after)) :
      Taken c (.int t) (.int t n) after
  | f32 {bits : UInt32} {after : Cursor} (h : c.f32? = some (bits, after)) :
      Taken c .f32 (.f32 bits) after
  | f64 {bits : UInt64} {after : Cursor} (h : c.f64? = some (bits, after)) :
      Taken c .f64 (.f64 bits) after
  | widened {bits : UInt32} {after : Cursor} (hnone : c.f64? = none)
      (h : c.f32? = some (bits, after)) : Taken c .f64 (.f64 (FloatBits.widen bits)) after
  | string {s : String} {after : Cursor} (h : c.string? = some (s, after)) :
      Taken c .string (.string s) after

theorem Taken.read_eq {p : Primitive} {c after : Cursor} {v : Value} (h : Taken c p v after) :
    p.read c = (.ok v, after) := by
  cases h with
  | int h => exact IntType.read_eq_ok.mpr ⟨_, h, rfl⟩
  | widened hnone h => simp only [read, hnone, h]
  | bool h | f32 h | f64 h | string h => simp only [read, h]

theorem read_eq_ok {p : Primitive} {c after : Cursor} {v : Value} :
    p.read c = (.ok v, after) ↔ Taken c p v after := by
  refine ⟨fun h => ?_, Taken.read_eq⟩
  cases p with
  | int t =>
    obtain ⟨n, hint, rfl⟩ := IntType.read_eq_ok.mp h
    exact .int hint
  | bool =>
    simp only [read] at h
    split at h
    · rename_i htake
      cases h
      exact .bool htake
    · cases h
  | f32 =>
    simp only [read] at h
    split at h
    · rename_i htake
      cases h
      exact .f32 htake
    · cases h
  | f64 =>
    simp only [read] at h
    split at h
    · rename_i htake
      cases h
      exact .f64 htake
    · rename_i hnone
      split at h
      · rename_i htake
        cases h
        exact .widened hnone htake
      · cases h
  | string =>
    simp only [read] at h
    split at h
    · rename_i htake
      cases h
      exact .string htake
    · split at h
      · cases h
      · cases h

/-- How a primitive is put into the output. -/
inductive Put : Primitive → Value → Write Unit → Prop
  | bool (b : Bool) : Put .bool (.bool b) (Write.append (Wire.Encoding.bool b))
  | int {t : IntType} (n : t.Range) :
      Put (.int t) (.int t n) (Write.append (Wire.Encoding.int n.val))
  | f32 (bits : UInt32) : Put .f32 (.f32 bits) (Write.append (Wire.Encoding.f32 bits))
  | f64 (bits : UInt64) : Put .f64 (.f64 bits) (Write.append (Wire.Encoding.f64 bits))
  | string (s : String) : Put .string (.string s) (Write.string s)

theorem put_of_write {p : Primitive} {v : Value} {step : Write Unit} (h : p.write v = some step) :
    Put p v step := by
  unfold write at h
  split at h
  · cases h
    exact .bool _
  · split at h
    · rename_i htype
      cases h
      subst htype
      exact .int _
    · cases h
  · cases h
    exact .f32 _
  · cases h
    exact .f64 _
  · cases h
    exact .string _
  · cases h

end Primitive

theorem readBytes_eq_ok {c after : Cursor} {v : Value} :
    readBytes c = (.ok v, after) ↔ ∃ data, c.binary? = some (data, after) ∧ v = .bytes data := by
  constructor
  · intro h
    unfold readBytes at h
    split at h
    · rename_i data behind htake
      cases h
      exact ⟨data, htake, rfl⟩
    · cases h
  · rintro ⟨data, htake, rfl⟩
    simp only [readBytes, htake]

theorem readText_eq_ok {parse : String → Except TextError Value} {c after : Cursor} {v : Value} :
    readText parse c = (.ok v, after) ↔
      ∃ text, c.string? = some (text, after) ∧ parse text = .ok v := by
  constructor
  · intro h
    unfold readText at h
    split at h
    · cases h
    · rename_i text behind htake
      split at h
      · rename_i hparse
        cases h
        exact ⟨text, htake, hparse⟩
      · cases h
  · rintro ⟨text, htake, hparse⟩
    simp only [readText, htake, hparse]

/-! ## Handles -/

namespace Handle

variable {h : Handle} {behaviour : Policy} {v : Value} {bytes : List UInt8} {e : CodecError}

theorem encode_eq_ok :
    h.encode v = .ok bytes ↔ ∃ output, h.write v .empty = .ok () output ∧ output.bytes = bytes := by
  unfold encode
  cases h.write v .empty with
  | ok u output =>
    constructor
    · intro hok
      exact ⟨output, rfl, Except.ok.inj hok⟩
    · rintro ⟨_, heq, rfl⟩
      cases heq
      rfl
  | error e output => exact ⟨nofun, nofun⟩

theorem encode_eq_error :
    h.encode v = .error e ↔ ∃ output, h.write v .empty = .error e output := by
  unfold encode
  cases h.write v .empty with
  | ok u output => exact ⟨nofun, nofun⟩
  | error e' output =>
    constructor
    · intro hfailed
      cases hfailed
      exact ⟨output, rfl⟩
    · rintro ⟨_, heq⟩
      cases heq
      rfl

/-- What is decoded is read from the first position on, to the end. -/
theorem decode_eq_ok :
    (h.withPolicy behaviour).decode bytes = .ok v ↔
      ∃ after, h.readWith behaviour (.ofBytes bytes) = .ok v after ∧ after.rest = [] := by
  have hread : (h.withPolicy behaviour).read (.ofBytes bytes) =
    h.readWith behaviour (.ofBytes bytes) := rfl
  unfold decode
  rw [hread]
  cases h.readWith behaviour (.ofBytes bytes) with
  | error e after => exact ⟨nofun, nofun⟩
  | ok w after =>
    simp only [List.isEmpty_iff]
    constructor
    · intro hok
      split at hok
      · rename_i hempty
        cases hok
        exact ⟨after, rfl, hempty⟩
      · cases hok
    · rintro ⟨_, heq, hempty⟩
      cases heq
      rw [if_pos hempty]

/-- What is not decoded cannot be read, or there are bytes behind it. -/
theorem decode_eq_error :
    (h.withPolicy behaviour).decode bytes = .error e ↔
      (∃ after, h.readWith behaviour (.ofBytes bytes) = .error e after) ∨
        ∃ v after, h.readWith behaviour (.ofBytes bytes) = .ok v after ∧ after.rest ≠ [] ∧
          e = (Scope.root behaviour h.maxDepth).fail h.type (.trailingBytes after.remaining) := by
  have hread : (h.withPolicy behaviour).read (.ofBytes bytes) =
    h.readWith behaviour (.ofBytes bytes) := rfl
  unfold decode
  rw [hread]
  cases h.readWith behaviour (.ofBytes bytes) with
  | error e' after =>
    constructor
    · intro hfailed
      cases hfailed
      exact .inl ⟨after, rfl⟩
    · rintro (⟨_, heq⟩ | ⟨_, _, heq, -, -⟩)
      · cases heq
        rfl
      · cases heq
  | ok w after =>
    simp only [List.isEmpty_iff]
    constructor
    · intro hfailed
      split at hfailed
      · cases hfailed
      · rename_i hmore
        cases hfailed
        exact .inr ⟨w, after, rfl, hmore, rfl⟩
    · rintro (⟨_, heq⟩ | ⟨_, _, heq, hmore, rfl⟩)
      · cases heq
      · cases heq
        rw [if_neg hmore]
        rfl

end Handle

end SchemaPack
