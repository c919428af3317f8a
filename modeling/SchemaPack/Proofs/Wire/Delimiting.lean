import SchemaPack.Proofs.Wire.RoundTrip
import SchemaPack.Wire.Skip

/-!
Where a value ends. A value begins with its marker, its length and its payload, and a take of any
form moves over these bytes and goes by them alone, whatever the position and whatever follows. The
walk that skips a value moves over the same bytes, so both end at one place.
-/
namespace SchemaPack.Wire

/-- The bytes lead from one cursor to another. -/
structure Spans (c : Cursor) (bytes : List UInt8) (after : Cursor) : Prop where
  rest : c.rest = bytes ++ after.rest
  position : after.position = c.position + bytes.length

theorem Spans.refl (c : Cursor) : Spans c [] c := ⟨rfl, rfl⟩

theorem Spans.trans {c middle after : Cursor} {front back : List UInt8} (h : Spans c front middle)
    (h' : Spans middle back after) : Spans c (front ++ back) after := by
  constructor
  · rw [h.rest, h'.rest, List.append_assoc]
  · rw [h'.position, h.position, List.length_append, Nat.add_assoc]

theorem Spans.eq {c after : Cursor} {bytes : List UInt8} (h : Spans c bytes after) :
    c = ⟨c.position, bytes ++ after.rest⟩ := by
  rw [← h.rest]

def Cursor.at (input : List UInt8) (place : Nat) : Cursor := ⟨place, input.drop place⟩

theorem Spans.at {input bytes : List UInt8} {start : Nat} {after : Cursor}
    (h : Spans (.at input start) bytes after) :
    after = .at input (start + bytes.length) ∧
      bytes = (input.take (start + bytes.length)).drop start := by
  obtain ⟨position, rest⟩ := after
  obtain ⟨hrest, hposition⟩ := h
  simp only [Cursor.at] at hrest hposition
  subst hposition
  constructor
  · rw [Cursor.at, ← List.drop_drop, hrest, List.drop_left]
  · rw [List.drop_take, Nat.add_sub_cancel_left, hrest, List.take_left]

theorem Cursor.at_eq {input : List UInt8} {start stop : Nat} (hstart : start ≤ stop)
    (hstop : stop ≤ input.length) :
    Cursor.at input start = ⟨start, (input.take stop).drop start ++ input.drop stop⟩ := by
  have hlength : start ≤ (input.take stop).length := by
    rw [List.length_take, Nat.min_eq_left hstop]
    exact hstart
  rw [Cursor.at, ← List.drop_append_of_le_length hlength, List.take_append_drop]

/-- Whatever is taken is taken off some bytes, and would be wherever they stand. -/
def Delimited {α : Type} (take : Cursor → Option (α × Cursor)) : Prop :=
  ∀ c a after, take c = some (a, after) → ∃ bytes, Spans c bytes after ∧ Yields take bytes a

theorem spans_of_take? {c after : Cursor} {n : Nat} {bytes : List UInt8}
    (h : c.take? n = some (bytes, after)) : Spans c bytes after ∧ bytes.length = n := by
  obtain ⟨hlength, hrest, hposition⟩ := Cursor.take?_eq_some.mp h
  exact ⟨⟨hrest, hlength ▸ hposition⟩, hlength⟩

theorem delimited_take (n : Nat) : Delimited (Cursor.take? · n) := by
  intro c bytes after h
  obtain ⟨hspans, hlength⟩ := spans_of_take? h
  exact ⟨bytes, hspans, yields_take hlength⟩

theorem delimited_length (l : Length) : Delimited (Cursor.length? · l) := by
  intro c n after h
  cases l with
  | inline m =>
    cases h
    exact ⟨[], .refl c, fun _ _ => rfl⟩
  | following width =>
    obtain ⟨⟨bytes, _⟩, htake, heq⟩ := Option.map_eq_some_iff.mp h
    cases heq
    obtain ⟨taken, hspans, hyields⟩ := delimited_take width _ _ _ htake
    refine ⟨taken, hspans, fun position rest => ?_⟩
    simp only [Cursor.length?, Cursor.word?, hyields position rest, Option.map_some]

theorem delimited_marker : Delimited Cursor.marker? := by
  rintro ⟨position, rest⟩ m after h
  cases rest with
  | nil => cases h
  | cons b rest =>
    cases h
    exact ⟨[b], ⟨rfl, rfl⟩, fun _ _ => rfl⟩

/-! ## The front of a value -/

def Marker.Body.size : Marker.Body → Nat
  | .payload bytes => bytes
  | .values _ => 0

def Marker.Body.due : Marker.Body → Nat
  | .payload _ => 0
  | .values count => count

/-- Up to the second cursor stand a marker, its length and its payload. -/
def Front (c : Cursor) (m : Marker) (length : Nat) (payload : List UInt8) (after : Cursor) : Prop :=
  ∃ c₁ c₂, c.marker? = some (m, c₁) ∧ c₁.length? m.length = some (length, c₂) ∧
    c₂.take? (m.body length).size = some (payload, after)

section

variable {c after : Cursor} {m : Marker} {n : Nat} {payload : List UInt8}

theorem Front.exists_bytes (h : Front c m n payload after) :
    ∃ bytes, Spans c bytes after ∧ ∀ position rest,
      Front ⟨position, bytes ++ rest⟩ m n payload ⟨position + bytes.length, rest⟩ := by
  obtain ⟨c₁, c₂, hmarker, hlength, htake⟩ := h
  obtain ⟨front, hfront, hmarker⟩ := delimited_marker _ _ _ hmarker
  obtain ⟨middle, hmiddle, hlength⟩ := delimited_length _ _ _ _ hlength
  obtain ⟨back, hback, htake⟩ := delimited_take _ _ _ _ htake
  refine ⟨front ++ (middle ++ back), hfront.trans (hmiddle.trans hback), fun position rest => ?_⟩
  simp only [List.append_assoc, List.length_append, ← Nat.add_assoc]
  exact ⟨_, _, hmarker position _, hlength (position + front.length) _, htake _ rest⟩

/-- The walk over values takes the front of a value in one step. -/
theorem Front.skipHead (h : Front c m n payload after) (hm : m ≠ .reserved) :
    c.skipHead = .ok ((m.body n).due, after) := by
  obtain ⟨c₁, c₂, hmarker, hlength, htake⟩ := h
  unfold Cursor.skipHead
  split
  · rename_i hnone
    rw [hmarker] at hnone
    cases hnone
  · rename_i hreserved
    rw [hmarker] at hreserved
    cases hreserved
    exact absurd rfl hm
  · rename_i hsome
    rw [hmarker] at hsome
    cases hsome
    rw [hlength]
    cases hbody : m.body n with
    | values count =>
      rw [hbody] at htake
      cases htake
      simp only [hbody]
      rfl
    | payload bytes =>
      rw [hbody] at htake
      simp only [Marker.Body.size] at htake
      simp only [hbody, htake]
      rfl

theorem exists_front (h : c.skipHead = .ok (n, after)) :
    ∃ m length payload, Front c m length payload after ∧ m ≠ .reserved ∧
      (m.body length).due = n := by
  unfold Cursor.skipHead at h
  split at h
  · cases h
  · cases h
  · rename_i m c₁ hreserved hmarker
    split at h
    · cases h
    · rename_i length c₂ hlength
      cases hbody : m.body length with
      | values count =>
        rw [hbody] at h
        cases h
        exact ⟨m, length, [], ⟨c₁, after, hmarker, hlength, by rw [hbody]; rfl⟩, hreserved,
          by rw [hbody]; rfl⟩
      | payload bytes =>
        rw [hbody] at h
        simp only at h
        split at h
        · rename_i payload _ htake
          cases h
          exact ⟨m, length, payload, ⟨c₁, c₂, hmarker, hlength, by rw [hbody]; exact htake⟩,
            hreserved, by rw [hbody]; rfl⟩
        · cases h

end

/-! ## Takes by the front of a value -/

/-- The take goes by the front of a value, and leaves as many values to follow as told. -/
def Fronted {α : Type} (take : Cursor → Option (α × Cursor)) (due : α → Nat) : Prop :=
  ∃ fits : Marker → Nat → List UInt8 → α → Prop,
    (∀ m n payload a, fits m n payload a → m ≠ .reserved ∧ (m.body n).due = due a) ∧
      ∀ c a after, take c = some (a, after) ↔
        ∃ m n payload, Front c m n payload after ∧ fits m n payload a

/-- What a value begins with when so many values are still to follow it. -/
def Heads (due : Nat) (bytes : List UInt8) : Prop :=
  ∀ position rest,
    Cursor.skipHead ⟨position, bytes ++ rest⟩ = .ok (due, ⟨position + bytes.length, rest⟩)

section

variable {α β : Type} {take : Cursor → Option (α × Cursor)} {due : α → Nat}

theorem Fronted.exists_bytes (h : Fronted take due) {c after : Cursor} {a : α}
    (htake : take c = some (a, after)) :
    ∃ bytes, Spans c bytes after ∧ Yields take bytes a ∧ Heads (due a) bytes := by
  obtain ⟨fits, hfits, hiff⟩ := h
  obtain ⟨m, n, payload, hfront, hfit⟩ := (hiff c a after).mp htake
  obtain ⟨bytes, hspans, hmoved⟩ := hfront.exists_bytes
  obtain ⟨hm, hdue⟩ := hfits m n payload a hfit
  refine ⟨bytes, hspans, fun position rest => ?_, fun position rest => ?_⟩
  · exact (hiff _ _ _).mpr ⟨m, n, payload, hmoved position rest, hfit⟩
  · rw [(hmoved position rest).skipHead hm, hdue]

/-- Bytes off which something is taken are a front for the walk too. -/
theorem Fronted.heads (h : Fronted take due) {bytes : List UInt8} {a : α}
    (hyields : Yields take bytes a) : Heads (due a) bytes := by
  obtain ⟨fits, hfits, hiff⟩ := h
  intro position rest
  obtain ⟨m, n, payload, hfront, hfit⟩ := (hiff _ _ _).mp (hyields position rest)
  obtain ⟨hm, hdue⟩ := hfits m n payload a hfit
  rw [hfront.skipHead hm, hdue]

/-- A take that makes something of what another has taken, or refuses it. -/
theorem Fronted.filterMap (h : Fronted take due) {take' : Cursor → Option (β × Cursor)}
    {due' : β → Nat} (f : α → Option β)
    (htake : ∀ c b after, take' c = some (b, after) ↔ ∃ a, take c = some (a, after) ∧ f a = some b)
    (hdue : ∀ a b, f a = some b → due' b = due a) : Fronted take' due' := by
  obtain ⟨fits, hfits, hiff⟩ := h
  refine ⟨fun m n payload b => ∃ a, fits m n payload a ∧ f a = some b, ?_, fun c b after => ?_⟩
  · rintro m n payload b ⟨a, hfit, hf⟩
    obtain ⟨hm, hn⟩ := hfits m n payload a hfit
    exact ⟨hm, hn.trans (hdue a b hf).symm⟩
  · simp only [htake, hiff]
    constructor
    · rintro ⟨a, ⟨m, n, payload, hfront, hfit⟩, hf⟩
      exact ⟨m, n, payload, hfront, a, hfit, hf⟩
    · rintro ⟨m, n, payload, hfront, a, hfit, hf⟩
      exact ⟨a, ⟨m, n, payload, hfront, hfit⟩, hf⟩

end

theorem exists_nil {c after : Cursor} (h : c.nil? = some after) :
    ∃ bytes, Spans c bytes after ∧ Heads 0 bytes ∧ ∀ position rest,
      Cursor.nil? ⟨position, bytes ++ rest⟩ = some ⟨position + bytes.length, rest⟩ := by
  unfold Cursor.nil? at h
  split at h
  · rename_i hmarker
    cases h
    have hfront : Front c .nil 0 [] _ := ⟨_, _, hmarker, rfl, rfl⟩
    obtain ⟨bytes, hspans, hmoved⟩ := hfront.exists_bytes
    refine ⟨bytes, hspans, fun position rest => (hmoved position rest).skipHead nofun, ?_⟩
    intro position rest
    obtain ⟨c₁, c₂, hmarker, hlength, htake⟩ := hmoved position rest
    cases hlength
    simp only [Cursor.nil?, hmarker]
    exact congrArg some (Prod.mk.inj (Option.some.inj htake)).2
  · cases h

theorem nil?_cons (position : Nat) (b : UInt8) (rest : List UInt8) :
    Cursor.nil? ⟨position, b :: rest⟩ =
      if Marker.ofByte b = .nil then some ⟨position + 1, rest⟩ else none := by
  cases hb : Marker.ofByte b <;> simp [Cursor.nil?, Cursor.marker?, hb]

/-- Whether nil stands at the front is told by the first byte. -/
theorem notNil_of_nil? {bytes rest : List UInt8} {position : Nat} (hbytes : bytes ≠ [])
    (h : Cursor.nil? ⟨position, bytes ++ rest⟩ = none) : NotNil bytes := by
  obtain ⟨b, bytes, rfl⟩ := List.exists_cons_of_ne_nil hbytes
  intro position' rest'
  rw [List.cons_append, nil?_cons, ite_eq_right_iff] at h ⊢
  intro hb
  cases h hb

theorem fronted_bool : Fronted Cursor.bool? fun _ => 0 := by
  refine ⟨fun m _ _ b => m = .bool b, ?_, fun c b after => ⟨fun h => ?_, ?_⟩⟩
  · rintro _ n payload b rfl
    exact ⟨nofun, rfl⟩
  · unfold Cursor.bool? at h
    split at h
    · rename_i hmarker
      cases h
      exact ⟨_, _, _, ⟨_, _, hmarker, rfl, rfl⟩, rfl⟩
    · cases h
  · rintro ⟨_, n, payload, ⟨c₁, c₂, hmarker, hlength, htake⟩, rfl⟩
    cases hlength
    cases htake
    simp only [Cursor.bool?, hmarker]
    rfl

def Marker.number? : Marker → List UInt8 → Option Int
  | fixint n, _ => some n
  | uint _, payload => some (bigEndianValue payload)
  | sint width, payload => some (signedValue width (bigEndianValue payload))
  | _, _ => none

theorem fronted_int : Fronted Cursor.int? fun _ => 0 := by
  refine ⟨fun m _ payload n => m.number? payload = some n, ?_, fun c n after => ⟨fun h => ?_, ?_⟩⟩
  · intro m n payload v h
    cases m with
    | fixint | uint | sint => exact ⟨nofun, rfl⟩
    | _ => cases h
  · unfold Cursor.int? at h
    split at h
    · rename_i hmarker
      cases h
      exact ⟨_, _, _, ⟨_, _, hmarker, rfl, rfl⟩, rfl⟩
    · rename_i hmarker
      simp only [Cursor.word?, Option.map_map, Option.map_eq_some_iff] at h
      obtain ⟨⟨payload, _⟩, htake, heq⟩ := h
      cases heq
      exact ⟨_, _, payload, ⟨_, _, hmarker, rfl, htake⟩, rfl⟩
    · rename_i hmarker
      simp only [Cursor.word?, Option.map_map, Option.map_eq_some_iff] at h
      obtain ⟨⟨payload, _⟩, htake, heq⟩ := h
      cases heq
      exact ⟨_, _, payload, ⟨_, _, hmarker, rfl, htake⟩, rfl⟩
    · cases h
  · rintro ⟨m, _, payload, ⟨c₁, c₂, hmarker, hlength, htake⟩, hnumber⟩
    cases m with
    | fixint n =>
      cases hlength
      cases htake
      cases hnumber
      simp only [Cursor.int?, hmarker]
      rfl
    | uint width =>
      cases hlength
      cases hnumber
      simp only [Marker.body, Marker.Body.size] at htake
      simp only [Cursor.int?, hmarker, Cursor.word?, htake, Option.map_some]
    | sint width =>
      cases hlength
      cases hnumber
      simp only [Marker.body, Marker.Body.size] at htake
      simp only [Cursor.int?, hmarker, Cursor.word?, htake, Option.map_some]
    | _ => cases hnumber

theorem fronted_intWithin (low high : Int) :
    Fronted (Cursor.intWithin? · low high) fun _ => 0 := by
  refine fronted_int.filterMap (fun n => if low ≤ n ∧ n ≤ high then some n else none) ?_
    fun _ _ _ => rfl
  intro c n after
  simp only [Cursor.intWithin?]
  cases c.int? with
  | none => simp
  | some p =>
    obtain ⟨k, behind⟩ := p
    simp only [Option.ite_none_right_eq_some, Option.some.injEq, Prod.mk.injEq]
    constructor
    · rintro ⟨hin, rfl, rfl⟩
      exact ⟨k, ⟨rfl, rfl⟩, hin, rfl⟩
    · rintro ⟨_, ⟨rfl, rfl⟩, hin, rfl⟩
      exact ⟨hin, rfl, rfl⟩

theorem fronted_f32 : Fronted Cursor.f32? fun _ => 0 := by
  refine ⟨fun m _ payload bits => m = .f32 ∧ UInt32.ofNat (bigEndianValue payload) = bits, ?_,
    fun c bits after => ⟨fun h => ?_, ?_⟩⟩
  · rintro _ n payload bits ⟨rfl, -⟩
    exact ⟨nofun, rfl⟩
  · unfold Cursor.f32? at h
    split at h
    · rename_i hmarker
      simp only [Cursor.word?, Option.map_map, Option.map_eq_some_iff] at h
      obtain ⟨⟨payload, _⟩, htake, heq⟩ := h
      cases heq
      exact ⟨_, _, payload, ⟨_, _, hmarker, rfl, htake⟩, rfl, rfl⟩
    · cases h
  · rintro ⟨_, n, payload, ⟨c₁, c₂, hmarker, hlength, htake⟩, rfl, rfl⟩
    cases hlength
    simp only [Marker.body, Marker.Body.size] at htake
    simp only [Cursor.f32?, hmarker, Cursor.word?, htake, Option.map_some]

theorem fronted_f64 : Fronted Cursor.f64? fun _ => 0 := by
  refine ⟨fun m _ payload bits => m = .f64 ∧ UInt64.ofNat (bigEndianValue payload) = bits, ?_,
    fun c bits after => ⟨fun h => ?_, ?_⟩⟩
  · rintro _ n payload bits ⟨rfl, -⟩
    exact ⟨nofun, rfl⟩
  · unfold Cursor.f64? at h
    split at h
    · rename_i hmarker
      simp only [Cursor.word?, Option.map_map, Option.map_eq_some_iff] at h
      obtain ⟨⟨payload, _⟩, htake, heq⟩ := h
      cases heq
      exact ⟨_, _, payload, ⟨_, _, hmarker, rfl, htake⟩, rfl, rfl⟩
    · cases h
  · rintro ⟨_, n, payload, ⟨c₁, c₂, hmarker, hlength, htake⟩, rfl, rfl⟩
    cases hlength
    simp only [Marker.body, Marker.Body.size] at htake
    simp only [Cursor.f64?, hmarker, Cursor.word?, htake, Option.map_some]

/-- What is a single is no double. -/
theorem f64?_of_f32? {c after : Cursor} {bits : UInt32} (h : c.f32? = some (bits, after)) :
    c.f64? = none := by
  unfold Cursor.f32? at h
  split at h
  · rename_i hmarker
    simp only [Cursor.f64?, hmarker]
  · cases h

theorem fronted_strBytes : Fronted Cursor.strBytes? fun _ => 0 := by
  refine ⟨fun m _ payload bytes => (∃ length, m = .str length) ∧ payload = bytes, ?_,
    fun c bytes after => ⟨fun h => ?_, ?_⟩⟩
  · rintro _ n payload bytes ⟨⟨length, rfl⟩, -⟩
    exact ⟨nofun, rfl⟩
  · unfold Cursor.strBytes? at h
    split at h
    · rename_i hmarker
      split at h
      · rename_i hlength
        exact ⟨_, _, bytes, ⟨_, _, hmarker, hlength, h⟩, ⟨_, rfl⟩, rfl⟩
      · cases h
    · cases h
  · rintro ⟨_, n, payload, ⟨c₁, c₂, hmarker, hlength, htake⟩, ⟨length, rfl⟩, rfl⟩
    simp only [Marker.length] at hlength
    simp only [Marker.body, Marker.Body.size] at htake
    simp only [Cursor.strBytes?, hmarker, hlength, htake]

theorem fronted_string : Fronted Cursor.string? fun _ => 0 := by
  refine fronted_strBytes.filterMap (fun bytes => String.fromUTF8? ⟨bytes.toArray⟩) ?_
    fun _ _ _ => rfl
  intro c s after
  unfold Cursor.string?
  cases c.strBytes? with
  | none => simp
  | some p =>
    obtain ⟨bytes, behind⟩ := p
    simp only [Option.map_eq_some_iff, Option.some.injEq, Prod.mk.injEq]
    constructor
    · rintro ⟨_, htext, rfl, rfl⟩
      exact ⟨bytes, ⟨rfl, rfl⟩, htext⟩
    · rintro ⟨_, ⟨rfl, rfl⟩, htext⟩
      exact ⟨s, htext, rfl, rfl⟩

theorem fronted_binary : Fronted Cursor.binary? fun _ => 0 := by
  refine ⟨fun m _ payload bytes => (∃ length, m = .bin length) ∧ payload = bytes, ?_,
    fun c bytes after => ⟨fun h => ?_, ?_⟩⟩
  · rintro _ n payload bytes ⟨⟨length, rfl⟩, -⟩
    exact ⟨nofun, rfl⟩
  · unfold Cursor.binary? at h
    split at h
    · rename_i hmarker
      split at h
      · rename_i hlength
        exact ⟨_, _, bytes, ⟨_, _, hmarker, hlength, h⟩, ⟨_, rfl⟩, rfl⟩
      · cases h
    · cases h
  · rintro ⟨_, n, payload, ⟨c₁, c₂, hmarker, hlength, htake⟩, ⟨length, rfl⟩, rfl⟩
    simp only [Marker.length] at hlength
    simp only [Marker.body, Marker.Body.size] at htake
    simp only [Cursor.binary?, hmarker, hlength, htake]

theorem fronted_arrayHeader : Fronted Cursor.arrayHeader? fun n => n := by
  refine ⟨fun m n _ count => (∃ length, m = .array length) ∧ n = count, ?_,
    fun c count after => ⟨fun h => ?_, ?_⟩⟩
  · rintro _ n payload count ⟨⟨length, rfl⟩, rfl⟩
    exact ⟨nofun, rfl⟩
  · unfold Cursor.arrayHeader? at h
    split at h
    · rename_i hmarker
      exact ⟨_, _, _, ⟨_, _, hmarker, h, rfl⟩, ⟨_, rfl⟩, rfl⟩
    · cases h
  · rintro ⟨_, n, payload, ⟨c₁, c₂, hmarker, hlength, htake⟩, ⟨length, rfl⟩, rfl⟩
    cases htake
    simp only [Cursor.arrayHeader?, hmarker]
    exact hlength

theorem fronted_mapHeader : Fronted Cursor.mapHeader? (2 * ·) := by
  refine ⟨fun m n _ count => (∃ length, m = .map length) ∧ n = count, ?_,
    fun c count after => ⟨fun h => ?_, ?_⟩⟩
  · rintro _ n payload count ⟨⟨length, rfl⟩, rfl⟩
    exact ⟨nofun, rfl⟩
  · unfold Cursor.mapHeader? at h
    split at h
    · rename_i hmarker
      exact ⟨_, _, _, ⟨_, _, hmarker, h, rfl⟩, ⟨_, rfl⟩, rfl⟩
    · cases h
  · rintro ⟨_, n, payload, ⟨c₁, c₂, hmarker, hlength, htake⟩, ⟨length, rfl⟩, rfl⟩
    cases htake
    simp only [Cursor.mapHeader?, hmarker]
    exact hlength

/-! ## Whole values -/

/-- The bytes are so many values, whole: a walk that has them and others still to take goes on
behind them with the others. -/
def Whole (count : Nat) (bytes : List UInt8) : Prop :=
  ∀ due position rest, Cursor.skipValues (due + count) ⟨position, bytes ++ rest⟩ =
    Cursor.skipValues due ⟨position + bytes.length, rest⟩

theorem skipValues_zero (c : Cursor) : c.skipValues 0 = .ok c := by
  unfold Cursor.skipValues
  rfl

theorem skipValues_succ {c after : Cursor} {inside : Nat} (h : c.skipHead = .ok (inside, after))
    (due : Nat) : c.skipValues (due + 1) = after.skipValues (due + inside) := by
  conv => lhs; unfold Cursor.skipValues
  split
  · rename_i heq
    rw [h] at heq
    cases heq
  · rename_i heq
    rw [h] at heq
    cases heq
    rfl

theorem whole_nil : Whole 0 [] := fun _ _ _ => rfl

theorem Whole.append {m n : Nat} {front back : List UInt8} (h : Whole m front)
    (h' : Whole n back) : Whole (m + n) (front ++ back) := by
  intro due position rest
  rw [Nat.add_comm m n, ← Nat.add_assoc, List.append_assoc, h, h', List.length_append,
    Nat.add_assoc position]

/-- The front of a value and the values that follow it are one value. -/
theorem Heads.whole {n : Nat} {front back : List UInt8} (h : Heads n front) (h' : Whole n back) :
    Whole 1 (front ++ back) := by
  intro due position rest
  rw [List.append_assoc, skipValues_succ (h position (back ++ rest)), h', List.length_append,
    Nat.add_assoc]

theorem Heads.whole_of_none {bytes : List UInt8} (h : Heads 0 bytes) : Whole 1 bytes := by
  have hwhole := h.whole whole_nil
  rwa [List.append_nil] at hwhole

/-- A value has at least one byte. -/
theorem Whole.ne_nil {bytes : List UInt8} (h : Whole 1 bytes) : bytes ≠ [] := by
  rintro rfl
  have hempty := h 0 0 []
  rw [List.append_nil, skipValues_zero] at hempty
  unfold Cursor.skipValues at hempty
  cases hempty

theorem Whole.skip {bytes : List UInt8} (h : Whole 1 bytes) (position : Nat) (rest : List UInt8) :
    Cursor.skip ⟨position, bytes ++ rest⟩ = .ok ⟨position + bytes.length, rest⟩ := by
  rw [Cursor.skip, h 0 position rest, skipValues_zero]

/-- What is skipped is whole. -/
theorem whole_of_skipValues {count : Nat} {c after : Cursor}
    (h : c.skipValues count = .ok after) : ∃ bytes, Spans c bytes after ∧ Whole count bytes := by
  induction count, c using Cursor.skipValues.induct with
  | case1 c =>
    rw [skipValues_zero] at h
    cases h
    exact ⟨[], .refl _, whole_nil⟩
  | case2 c due e hhead =>
    unfold Cursor.skipValues at h
    split at h
    · cases h
    · rename_i heq
      rw [hhead] at heq
      cases heq
  | case3 c due inside behind hhead _ ih =>
    rw [skipValues_succ hhead] at h
    obtain ⟨back, hback, hwhole⟩ := ih h
    obtain ⟨m, length, payload, hfront, hm, hdue⟩ := exists_front hhead
    obtain ⟨front, hspans, hmoved⟩ := hfront.exists_bytes
    refine ⟨front ++ back, hspans.trans hback, fun others position rest => ?_⟩
    have hstep := (hmoved position (back ++ rest)).skipHead hm
    rw [hdue] at hstep
    rw [List.append_assoc, Nat.add_succ, skipValues_succ hstep, Nat.add_assoc, hwhole,
      List.length_append, Nat.add_assoc]

end SchemaPack.Wire
