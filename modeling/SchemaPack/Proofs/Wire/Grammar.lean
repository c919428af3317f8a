import Mathlib.Tactic.IntervalCases
import SchemaPack.Codec.Read
import SchemaPack.Proofs.Wire.Delimiting

/-!
The grammar of values on the wire, and the walk that skips a value. A value has a first byte, a
length where its form has one, and a payload or further values inside it. The walk has no more than
a count of the values still due. It accepts exactly the values of the grammar; where it stops, the
input either ends inside the value, so that more bytes could complete it, or the one byte that
begins no value stands there, and then nothing can.
-/
namespace SchemaPack.Wire

namespace Grammar

/-! ## Values -/

/-- A first byte that tells the size of its value: so many bytes follow. -/
inductive Fixed : UInt8 → Nat → Prop
  | nil : Fixed 0xc0 0
  | no : Fixed 0xc2 0
  | yes : Fixed 0xc3 0
  | float32 : Fixed 0xca 4
  | float64 : Fixed 0xcb 8
  | uint8 : Fixed 0xcc 1
  | uint16 : Fixed 0xcd 2
  | uint32 : Fixed 0xce 4
  | uint64 : Fixed 0xcf 8
  | int8 : Fixed 0xd0 1
  | int16 : Fixed 0xd1 2
  | int32 : Fixed 0xd2 4
  | int64 : Fixed 0xd3 8
  | positive {n : Nat} (h : n < 0x80) : Fixed (UInt8.ofNat n) 0
  | negative {n : Nat} (hlow : 0xe0 ≤ n) (h : n < 0x100) : Fixed (UInt8.ofNat n) 0

/-- The forms with a length: of their payload, or the number of items or entries. -/
inductive Family
  | str
  | bin
  | ext
  | array
  | map

/-- A first byte that holds the length. -/
inductive Short : Family → UInt8 → Nat → Prop
  | fixext1 : Short .ext 0xd4 1
  | fixext2 : Short .ext 0xd5 2
  | fixext4 : Short .ext 0xd6 4
  | fixext8 : Short .ext 0xd7 8
  | fixext16 : Short .ext 0xd8 16
  | fixmap {n : Nat} (h : n < 0x10) : Short .map (UInt8.ofNat (0x80 + n)) n
  | fixarray {n : Nat} (h : n < 0x10) : Short .array (UInt8.ofNat (0x90 + n)) n
  | fixstr {n : Nat} (h : n < 0x20) : Short .str (UInt8.ofNat (0xa0 + n)) n

/-- A first byte behind which the length stands in so many bytes. -/
inductive Wide : Family → UInt8 → Nat → Prop
  | bin8 : Wide .bin 0xc4 1
  | bin16 : Wide .bin 0xc5 2
  | bin32 : Wide .bin 0xc6 4
  | ext8 : Wide .ext 0xc7 1
  | ext16 : Wide .ext 0xc8 2
  | ext32 : Wide .ext 0xc9 4
  | str8 : Wide .str 0xd9 1
  | str16 : Wide .str 0xda 2
  | str32 : Wide .str 0xdb 4
  | array16 : Wide .array 0xdc 2
  | array32 : Wide .array 0xdd 4
  | map16 : Wide .map 0xde 2
  | map32 : Wide .map 0xdf 4

/-- The first byte and the length of a value that has one. -/
inductive Opens (family : Family) : Nat → List UInt8 → Prop
  | short {b : UInt8} {n : Nat} (h : Short family b n) : Opens family n [b]
  | wide {b : UInt8} {digits : List UInt8} (h : Wide family b digits.length) :
      Opens family (bigEndianValue digits) (b :: digits)

/-- What is a value's own, when so many values stand inside it: all that is in front of these. The
type of an extension takes a byte beside the length. -/
inductive Own : Nat → List UInt8 → Prop
  | fixed {b : UInt8} {payload : List UInt8} (h : Fixed b payload.length) : Own 0 (b :: payload)
  | str {front payload : List UInt8} (h : Opens .str payload.length front) :
      Own 0 (front ++ payload)
  | bin {front payload : List UInt8} (h : Opens .bin payload.length front) :
      Own 0 (front ++ payload)
  | ext {front payload : List UInt8} {type : UInt8} (h : Opens .ext payload.length front) :
      Own 0 (front ++ type :: payload)
  | array {n : Nat} {front : List UInt8} (h : Opens .array n front) : Own n front
  | map {n : Nat} {front : List UInt8} (h : Opens .map n front) : Own (2 * n) front

/-- A value: what is its own, and behind it the values inside. -/
inductive WellFormed : List UInt8 → Prop
  | value {own : List UInt8} {items : List (List UInt8)} (hown : Own items.length own)
      (hitems : ∀ item ∈ items, WellFormed item) : WellFormed (own ++ items.flatten)

/-! ## Where a value breaks off -/

/-- The bytes end before what is the first value's own is complete. -/
def Cut (bytes : List UInt8) : Prop := ∃ n more, Own n (bytes ++ more) ∧ more ≠ []

def Reserved (bytes : List UInt8) : Prop := ∃ rest, bytes = 0xc1 :: rest

/-- In reading order, the first value of the bytes that is stopped begins at the place: the value
itself, or one inside it behind others that are well-formed. -/
inductive Breaks (stopped : List UInt8 → Prop) : List UInt8 → Nat → Prop
  | here {bytes : List UInt8} (h : stopped bytes) : Breaks stopped bytes 0
  | inside {n : Nat} {own : List UInt8} {items : List (List UInt8)} {rest : List UInt8}
      {place : Nat} (hown : Own n own) (hitems : ∀ item ∈ items, WellFormed item)
      (hmore : items.length < n) (h : Breaks stopped rest place) :
      Breaks stopped (own ++ (items.flatten ++ rest)) (own.length + (items.flatten.length + place))

/-! ## First bytes and their markers -/

def Family.marker : Family → Length → Marker
  | .str => .str
  | .bin => .bin
  | .ext => .ext
  | .array => .array
  | .map => .map

theorem Fixed.marker {b : UInt8} {size : Nat} (h : Fixed b size) :
    (Marker.ofByte b).length = .inline 0 ∧ Marker.ofByte b ≠ .reserved ∧
      (Marker.ofByte b).body 0 = .payload size := by
  cases h with
  | positive hn =>
    rw [ofByte_fixint hn]
    exact ⟨rfl, nofun, rfl⟩
  | negative hlow hn =>
    rw [ofByte_negative hlow hn]
    exact ⟨rfl, nofun, rfl⟩
  | _ => decide

theorem Short.marker {family : Family} {b : UInt8} {n : Nat} (h : Short family b n) :
    Marker.ofByte b = family.marker (.inline n) := by
  cases h with
  | fixmap hn => exact ofByte_fixmap hn
  | fixarray hn => exact ofByte_fixarray hn
  | fixstr hn => exact ofByte_fixstr hn
  | _ => decide

theorem Wide.marker {family : Family} {b : UInt8} {width : Nat} (h : Wide family b width) :
    Marker.ofByte b = family.marker (.following width) := by
  cases h <;> decide

def FirstByte (b : UInt8) : Marker → Prop
  | .fixint _ | .nil | .bool _ => Fixed b 0
  | .uint width | .sint width => Fixed b width
  | .f32 => Fixed b 4
  | .f64 => Fixed b 8
  | .str (.inline n) => Short .str b n
  | .str (.following width) => Wide .str b width
  | .bin (.inline n) => Short .bin b n
  | .bin (.following width) => Wide .bin b width
  | .array (.inline n) => Short .array b n
  | .array (.following width) => Wide .array b width
  | .map (.inline n) => Short .map b n
  | .map (.following width) => Wide .map b width
  | .ext (.inline n) => Short .ext b n
  | .ext (.following width) => Wide .ext b width
  | .reserved => b = 0xc1

theorem firstByte_ofCode {n : Nat} (hlow : 0xc0 ≤ n) (h : n < 0xe0) :
    FirstByte (UInt8.ofNat n) (.ofCode n) := by
  interval_cases n
  all_goals first | rfl | constructor

/-- The grammar has every first byte in the family of its marker. -/
theorem firstByte_ofByte (b : UInt8) : FirstByte b (.ofByte b) := by
  obtain ⟨n, hn, rfl⟩ : ∃ n, n < 0x100 ∧ b = UInt8.ofNat n := ⟨b.toNat, b.toNat_lt, by simp⟩
  simp only [Marker.ofByte, toNat_ofNat hn]
  split
  · rename_i hpositive
    exact Fixed.positive hpositive
  · split
    · have hbyte : n = 0x80 + (n - 0x80) := by omega
      rw [hbyte, Nat.add_sub_cancel_left]
      exact Short.fixmap (by omega)
    · split
      · have hbyte : n = 0x90 + (n - 0x90) := by omega
        rw [hbyte, Nat.add_sub_cancel_left]
        exact Short.fixarray (by omega)
      · split
        · have hbyte : n = 0xa0 + (n - 0xa0) := by omega
          rw [hbyte, Nat.add_sub_cancel_left]
          exact Short.fixstr (by omega)
        · split
          · exact firstByte_ofCode (by omega) (by omega)
          · exact Fixed.negative (by omega) hn

theorem firstByte_of_eq {b : UInt8} {m : Marker} (h : Marker.ofByte b = m) : FirstByte b m :=
  h ▸ firstByte_ofByte b

/-! ## What is a value's own, by its marker -/

inductive Measures : Length → List UInt8 → Nat → Prop
  | inline (n : Nat) : Measures (.inline n) [] n
  | following (digits : List UInt8) :
      Measures (.following digits.length) digits (bigEndianValue digits)

/-- A marker, its length and its payload, and how many values they leave to follow. -/
inductive Framed : Nat → List UInt8 → Prop
  | frame {b : UInt8} {digits payload : List UInt8} {n : Nat}
      (hlength : Measures (Marker.ofByte b).length digits n)
      (hpayload : payload.length = ((Marker.ofByte b).body n).size)
      (hb : Marker.ofByte b ≠ .reserved) :
      Framed ((Marker.ofByte b).body n).due (b :: (digits ++ payload))

theorem Opens.exists_digits {family : Family} {n : Nat} {front : List UInt8}
    (h : Opens family n front) : ∃ b length digits,
      front = b :: digits ∧ Marker.ofByte b = family.marker length ∧ Measures length digits n := by
  cases h with
  | short h => exact ⟨_, _, [], rfl, h.marker, .inline n⟩
  | wide h => exact ⟨_, _, _, rfl, h.marker, .following _⟩

theorem opens_of_marker (family : Family) {b : UInt8} {length : Length} {n : Nat}
    {digits : List UInt8} (hb : Marker.ofByte b = family.marker length)
    (h : Measures length digits n) : Opens family n (b :: digits) := by
  have hfirst := firstByte_of_eq hb
  cases h with
  | inline =>
    refine .short ?_
    cases family <;> exact hfirst
  | following =>
    refine .wide ?_
    cases family <;> exact hfirst

theorem Opens.framed {family : Family} {n k : Nat} {front payload : List UInt8}
    (h : Opens family n front)
    (hpayload : ∀ length, payload.length = ((family.marker length).body n).size)
    (hk : ∀ length, ((family.marker length).body n).due = k) : Framed k (front ++ payload) := by
  obtain ⟨b, length, digits, rfl, hb, hdigits⟩ := h.exists_digits
  have hframe : Framed ((Marker.ofByte b).body n).due (b :: (digits ++ payload)) := by
    refine .frame ?_ (hb ▸ hpayload length) ?_
    · rw [hb]
      cases family <;> exact hdigits
    · rw [hb]
      cases family <;> nofun
  rwa [hb, hk] at hframe

theorem Own.framed {n : Nat} {bytes : List UInt8} (h : Own n bytes) : Framed n bytes := by
  cases h with
  | @fixed b payload h =>
    obtain ⟨hlength, hb, hbody⟩ := h.marker
    have hframe : Framed ((Marker.ofByte b).body 0).due (b :: ([] ++ payload)) :=
      .frame (hlength ▸ .inline 0) (by rw [hbody]; rfl) hb
    rwa [hbody] at hframe
  | str h | bin h => exact h.framed (fun _ => rfl) fun _ => rfl
  | ext h => exact h.framed (fun _ => rfl) fun _ => rfl
  | array h | map h =>
    rw [← List.append_nil bytes]
    exact h.framed (fun _ => rfl) fun _ => rfl

theorem Framed.own {n : Nat} {bytes : List UInt8} (h : Framed n bytes) : Own n bytes := by
  obtain ⟨hlength, hpayload, hreserved⟩ := h
  rename_i b digits payload length
  cases hm : Marker.ofByte b with
  | fixint | nil | bool | uint | sint | f32 | f64 =>
    rw [hm] at hlength hpayload
    cases hlength
    have hfixed := firstByte_of_eq hm
    exact .fixed (hpayload ▸ hfixed)
  | str l =>
    rw [hm] at hlength hpayload
    subst hpayload
    exact .str (opens_of_marker .str hm hlength)
  | bin l =>
    rw [hm] at hlength hpayload
    subst hpayload
    exact .bin (opens_of_marker .bin hm hlength)
  | ext l =>
    rw [hm] at hlength hpayload
    obtain ⟨type, payload, rfl⟩ := List.exists_cons_of_length_eq_add_one hpayload
    cases hpayload
    exact .ext (opens_of_marker .ext hm hlength)
  | array l =>
    rw [hm] at hlength hpayload
    cases List.length_eq_zero_iff.mp hpayload
    rw [List.append_nil]
    exact .array (opens_of_marker .array hm hlength)
  | map l =>
    rw [hm] at hlength hpayload
    cases List.length_eq_zero_iff.mp hpayload
    rw [List.append_nil]
    exact .map (opens_of_marker .map hm hlength)
  | reserved => exact absurd hm hreserved

/-! ## The first step of the walk -/

theorem Measures.yields {l : Length} {digits : List UInt8} {n : Nat} (h : Measures l digits n) :
    Yields (Cursor.length? · l) digits n := by
  intro position rest
  cases h with
  | inline => rfl
  | following =>
    have htake := yields_take (rfl : digits.length = digits.length) position rest
    simp only at htake
    simp only [Cursor.length?, Cursor.word?, htake, Option.map_some]

theorem exists_measures {c after : Cursor} {l : Length} {n : Nat}
    (h : c.length? l = some (n, after)) : ∃ digits, Spans c digits after ∧ Measures l digits n := by
  cases l with
  | inline n =>
    cases h
    exact ⟨[], .refl c, .inline n⟩
  | following width =>
    obtain ⟨⟨digits, _⟩, htake, heq⟩ := Option.map_eq_some_iff.mp h
    cases heq
    obtain ⟨hspans, rfl⟩ := spans_of_take? htake
    exact ⟨digits, hspans, .following digits⟩

/-- The walk takes what is a value's own in one step. -/
theorem Own.heads {n : Nat} {own : List UInt8} (h : Own n own) : Heads n own := by
  obtain ⟨hlength, hpayload, hreserved⟩ := h.framed
  rename_i b digits payload length
  intro position rest
  have hfront : Front ⟨position, b :: (digits ++ (payload ++ rest))⟩ (.ofByte b) length payload
      ⟨position + 1 + digits.length + payload.length, rest⟩ :=
    ⟨_, _, marker_cons position b _, hlength.yields (position + 1) (payload ++ rest),
      yields_take hpayload (position + 1 + digits.length) rest⟩
  have hposition : position + 1 + digits.length + payload.length =
      position + (b :: (digits ++ payload)).length := by
    rw [List.length_cons, List.length_append]
    omega
  rw [List.cons_append, List.append_assoc, hfront.skipHead hreserved, hposition]

/-- What the walk takes in one step is a value's own. -/
theorem exists_own {c after : Cursor} {n : Nat} (h : c.skipHead = .ok (n, after)) :
    ∃ own, Spans c own after ∧ Own n own := by
  obtain ⟨m, length, payload, ⟨c₁, c₂, hmarker, hlength, htake⟩, hreserved, rfl⟩ := exists_front h
  obtain ⟨position, rest⟩ := c
  cases rest with
  | nil => cases hmarker
  | cons b rest =>
    cases hmarker
    obtain ⟨digits, hdigits, hmeasures⟩ := exists_measures hlength
    obtain ⟨hpayload, hsize⟩ := spans_of_take? htake
    have hmarker : Spans ⟨position, b :: rest⟩ [b] ⟨position + 1, rest⟩ := ⟨rfl, rfl⟩
    exact ⟨_, hmarker.trans (hdigits.trans hpayload), (Framed.frame hmeasures hsize hreserved).own⟩

/-- The walk stops at the byte that begins no value, and nowhere else for that. -/
theorem skipHead_reserved {c : Cursor} {p : Nat} :
    c.skipHead = .error (.reservedMarker p) ↔ Reserved c.rest ∧ p = c.position := by
  constructor
  · intro h
    unfold Cursor.skipHead at h
    split at h
    · cases h
    · rename_i hmarker
      cases h
      obtain ⟨position, rest⟩ := c
      cases rest with
      | nil => cases hmarker
      | cons b rest =>
        obtain ⟨hb, -⟩ := Prod.mk.inj (Option.some.inj hmarker)
        exact ⟨⟨rest, congrArg (· :: rest) (firstByte_of_eq hb)⟩, rfl⟩
    · split at h
      · cases h
      · split at h
        · cases h
        · split at h <;> cases h
  · rintro ⟨⟨rest, hrest⟩, rfl⟩
    obtain ⟨position, _⟩ := c
    cases hrest
    rfl

/-- What cannot be taken lacks bytes that could follow. -/
theorem exists_more_of_take? {c : Cursor} {n : Nat} (h : c.take? n = none) :
    ∃ more, (c.rest ++ more).length = n ∧ more ≠ [] := by
  have hshort := Cursor.take?_eq_none.mp h
  refine ⟨List.replicate (n - c.rest.length) 0, ?_, ?_⟩
  · rw [List.length_append, List.length_replicate]
    omega
  · rw [ne_eq, List.replicate_eq_nil_iff]
    omega

theorem exists_more_of_word? {c : Cursor} {width : Nat} (h : c.word? width = none) :
    ∃ more, (c.rest ++ more).length = width ∧ more ≠ [] :=
  exists_more_of_take? (Option.map_eq_none_iff.mp h)

theorem exists_more_of_length? {c : Cursor} {l : Length} (h : c.length? l = none) :
    ∃ more n, Measures l (c.rest ++ more) n ∧ more ≠ [] := by
  cases l with
  | inline => cases h
  | following width =>
    obtain ⟨more, rfl, hmore⟩ := exists_more_of_word? h
    exact ⟨more, _, .following _, hmore⟩

theorem cut_of_skipHead {c : Cursor} {p : Nat} (h : c.skipHead = .error (.truncated p)) :
    Cut c.rest ∧ p = c.position := by
  obtain ⟨position, rest⟩ := c
  unfold Cursor.skipHead at h
  cases rest with
  | nil =>
    cases h
    exact ⟨⟨0, [0xc0], .fixed .nil, List.cons_ne_nil _ _⟩, rfl⟩
  | cons b rest =>
    rw [marker_cons] at h
    split at h
    · rename_i hnone
      cases hnone
    · cases h
    · rename_i hreserved hmarker
      cases hmarker
      split at h
      · rename_i hlength
        cases h
        obtain ⟨more, n, hmeasures, hmore⟩ := exists_more_of_length? hlength
        obtain ⟨payload, hpayload⟩ : ∃ payload : List UInt8,
            payload.length = ((Marker.ofByte b).body n).size :=
          ⟨List.replicate _ 0, List.length_replicate⟩
        have hown := (Framed.frame hmeasures hpayload hreserved).own
        rw [List.append_assoc] at hown
        exact ⟨⟨_, more ++ payload, hown, List.append_ne_nil_of_left_ne_nil hmore _⟩, rfl⟩
      · rename_i n behind hlength
        obtain ⟨digits, hdigits, hmeasures⟩ := exists_measures hlength
        have hrest : rest = digits ++ behind.rest := hdigits.rest
        split at h
        · cases h
        · rename_i size hbody
          split at h
          · cases h
          · rename_i htake
            cases h
            obtain ⟨more, hpayload, hmore⟩ := exists_more_of_take? htake
            have hsize : (behind.rest ++ more).length = ((Marker.ofByte b).body n).size := by
              rw [hpayload, hbody]
              rfl
            have hown := (Framed.frame hmeasures hsize hreserved).own
            rw [← List.append_assoc, ← hrest] at hown
            exact ⟨⟨_, more, hown, hmore⟩, rfl⟩

theorem skipHead_of_cut {c : Cursor} (h : Cut c.rest) :
    c.skipHead = .error (.truncated c.position) := by
  obtain ⟨n, more, hown, hmore⟩ := h
  have hwhole := hown.heads c.position []
  rw [List.append_nil] at hwhole
  cases hhead : c.skipHead with
  | ok taken =>
    -- What was taken would be all that is the value's own, whatever follows.
    obtain ⟨m, after⟩ := taken
    obtain ⟨own, hspans, hown⟩ := exists_own hhead
    have hshort := hown.heads c.position (after.rest ++ more)
    rw [← List.append_assoc, ← hspans.rest, hwhole] at hshort
    have hposition := congrArg Cursor.position (Prod.mk.inj (Except.ok.inj hshort)).2
    have hlength := congrArg List.length hspans.rest
    have hpositive := List.length_pos_of_ne_nil hmore
    simp only [List.length_append] at hposition hlength
    omega
  | error e =>
    cases e with
    | truncated p => rw [(cut_of_skipHead hhead).2]
    | reservedMarker p =>
      obtain ⟨⟨rest, hrest⟩, -⟩ := skipHead_reserved.mp hhead
      rw [hrest] at hwhole
      cases hwhole

/-- The walk stops where the bytes end before what is a value's own is complete. -/
theorem skipHead_truncated {c : Cursor} {p : Nat} :
    c.skipHead = .error (.truncated p) ↔ Cut c.rest ∧ p = c.position :=
  ⟨cut_of_skipHead, fun ⟨h, hp⟩ => hp ▸ skipHead_of_cut h⟩

/-! ## The walk over values -/

theorem whole_flatten {items : List (List UInt8)} (h : ∀ item ∈ items, Whole 1 item) :
    Whole items.length items.flatten := by
  induction items with
  | nil => exact whole_nil
  | cons item items ih =>
    rw [List.length_cons, Nat.add_comm]
    exact (h item List.mem_cons_self).append
      (ih fun item hitem => h item (List.mem_cons_of_mem _ hitem))

theorem WellFormed.whole {bytes : List UInt8} (h : WellFormed bytes) : Whole 1 bytes := by
  induction h with
  | value hown _ ih => exact hown.heads.whole (whole_flatten ih)

theorem skipValues_error {c : Cursor} {e : SkipError} (h : c.skipHead = .error e) (due : Nat) :
    c.skipValues (due + 1) = .error e := by
  unfold Cursor.skipValues
  split
  · rename_i heq
    rw [h] at heq
    cases heq
    rfl
  · rename_i heq
    rw [h] at heq
    cases heq

/-- Well-formed values, the first of them a value's own with the values inside it. -/
theorem wellFormed_cons {n : Nat} {own : List UInt8} {items : List (List UInt8)} (hown : Own n own)
    (hitems : ∀ item ∈ items, WellFormed item) (h : n ≤ items.length) :
    ∀ item ∈ (own ++ (items.take n).flatten) :: items.drop n, WellFormed item := by
  intro item hitem
  cases hitem with
  | head =>
    have hlength : (items.take n).length = n := by rw [List.length_take, Nat.min_eq_left h]
    refine .value ?_ fun item hitem => hitems item (List.mem_of_mem_take hitem)
    rwa [hlength]
  | tail _ hitem => exact hitems item (List.mem_of_mem_drop hitem)

theorem flatten_take_drop (own : List UInt8) (items : List (List UInt8)) (n : Nat) :
    ((own ++ (items.take n).flatten) :: items.drop n).flatten = own ++ items.flatten := by
  rw [List.flatten_cons, List.append_assoc, ← List.flatten_append, List.take_append_drop]

/-- What the walk takes are so many values. -/
theorem exists_items {due : Nat} {c after : Cursor} (h : c.skipValues due = .ok after) :
    ∃ items : List (List UInt8), items.length = due ∧ (∀ item ∈ items, WellFormed item) ∧
      Spans c items.flatten after := by
  induction due, c using Cursor.skipValues.induct with
  | case1 =>
    rw [skipValues_zero] at h
    cases h
    exact ⟨[], rfl, List.forall_mem_nil _, .refl _⟩
  | case2 c due e hhead =>
    rw [skipValues_error hhead] at h
    cases h
  | case3 c due inside behind hhead _ ih =>
    rw [skipValues_succ hhead] at h
    obtain ⟨own, hspans, hown⟩ := exists_own hhead
    obtain ⟨items, hlength, hitems, hbehind⟩ := ih h
    refine ⟨_ :: items.drop inside, ?_, wellFormed_cons hown hitems (by omega), ?_⟩
    · rw [List.length_cons, List.length_drop]
      omega
    · rw [flatten_take_drop]
      exact hspans.trans hbehind

/-- The step of the walk fails in the way told just where a value is stopped. -/
def Stops (stopped : List UInt8 → Prop) (e : Nat → SkipError) : Prop :=
  ∀ (c : Cursor) (p : Nat), c.skipHead = .error (e p) ↔ stopped c.rest ∧ p = c.position

theorem stops_cut : Stops Cut .truncated := fun _ _ => skipHead_truncated

theorem stops_reserved : Stops Reserved .reservedMarker := fun _ _ => skipHead_reserved

section

variable {stopped : List UInt8 → Prop} {e : Nat → SkipError}

/-- The walk goes to the first value that is stopped, and fails there. -/
theorem Breaks.skipValues (hstops : Stops stopped e) {bytes : List UInt8} {place : Nat}
    (h : Breaks stopped bytes place) (due position : Nat) :
    Cursor.skipValues (due + 1) ⟨position, bytes⟩ = .error (e (position + place)) := by
  induction h generalizing due position with
  | here h => exact skipValues_error ((hstops _ _).mpr ⟨h, rfl⟩) due
  | @inside n own items rest place hown hitems hmore _ ih =>
    have hdue : due + n = due + (n - items.length - 1) + 1 + items.length := by omega
    rw [skipValues_succ (hown.heads position _), hdue,
      whole_flatten (fun item hitem => (hitems item hitem).whole), ih]
    simp only [Nat.add_assoc]

/-- Where the walk fails, well-formed values are in front of one that breaks off. -/
theorem exists_breaks (hstops : Stops stopped e) {due p : Nat} {c : Cursor}
    (h : c.skipValues due = .error (e p)) :
    ∃ (items : List (List UInt8)) (rest : List UInt8) (place : Nat), items.length < due ∧
      (∀ item ∈ items, WellFormed item) ∧ c.rest = items.flatten ++ rest ∧
      Breaks stopped rest place ∧ p = c.position + (items.flatten.length + place) := by
  induction due, c using Cursor.skipValues.induct with
  | case1 c =>
    rw [skipValues_zero] at h
    cases h
  | case2 c due _ hhead =>
    rw [skipValues_error hhead] at h
    cases h
    obtain ⟨hstopped, rfl⟩ := (hstops c p).mp hhead
    exact ⟨[], c.rest, 0, Nat.succ_pos due, List.forall_mem_nil _, rfl, .here hstopped, rfl⟩
  | case3 c due inside behind hhead _ ih =>
    rw [skipValues_succ hhead] at h
    obtain ⟨own, hspans, hown⟩ := exists_own hhead
    obtain ⟨items, rest, place, hlength, hitems, hrest, hbreaks, rfl⟩ := ih h
    by_cases hinside : items.length < inside
    · refine ⟨[], c.rest, own.length + (items.flatten.length + place), Nat.succ_pos due,
        List.forall_mem_nil _, rfl, ?_, ?_⟩
      · rw [hspans.rest, hrest]
        exact .inside hown hitems hinside hbreaks
      · rw [hspans.position]
        simp only [List.flatten_nil, List.length_nil]
        omega
    · refine ⟨_ :: items.drop inside, rest, place, ?_,
        wellFormed_cons hown hitems (by omega), ?_, hbreaks, ?_⟩
      · rw [List.length_cons, List.length_drop]
        omega
      · rw [flatten_take_drop, hspans.rest, hrest, List.append_assoc]
      · rw [flatten_take_drop, hspans.position, List.length_append]
        omega

end

/-! ## More bytes -/

theorem wellFormed_nil : WellFormed [0xc0] := by
  have hfixed : Fixed 0xc0 ([] : List UInt8).length := .nil
  have hown : Own ([] : List (List UInt8)).length [0xc0] := .fixed hfixed
  exact .value hown (List.forall_mem_nil _)

/-- What is a value's own, with no more values behind it than it takes, can be made a value. -/
theorem Own.exists_tail {n : Nat} {own : List UInt8} (hown : Own n own)
    {items : List (List UInt8)} (hitems : ∀ item ∈ items, WellFormed item) (h : items.length ≤ n) :
    ∃ tail, WellFormed (own ++ (items.flatten ++ tail)) := by
  refine ⟨(List.replicate (n - items.length) [0xc0]).flatten, ?_⟩
  rw [← List.flatten_append]
  refine .value ?_ fun item hitem => ?_
  · rwa [List.length_append, List.length_replicate, Nat.add_sub_cancel' h]
  · rcases List.mem_append.mp hitem with hitem | hitem
    · exact hitems item hitem
    · rw [List.eq_of_mem_replicate hitem]
      exact wellFormed_nil

/-- A value that is cut can be completed. -/
theorem Breaks.exists_tail {bytes : List UInt8} {place : Nat} (h : Breaks Cut bytes place) :
    ∃ tail, WellFormed (bytes ++ tail) := by
  induction h with
  | here h =>
    obtain ⟨n, more, hown, -⟩ := h
    obtain ⟨tail, htail⟩ := hown.exists_tail (List.forall_mem_nil _) (Nat.zero_le n)
    rw [List.append_assoc] at htail
    exact ⟨_, htail⟩
  | @inside n own items rest place hown hitems hmore _ ih =>
    obtain ⟨tail, hrest⟩ := ih
    have hall : ∀ item ∈ items ++ [rest ++ tail], WellFormed item := by
      intro item hitem
      rcases List.mem_append.mp hitem with hitem | hitem
      · exact hitems item hitem
      · rwa [List.mem_singleton.mp hitem]
    obtain ⟨more, hvalue⟩ := hown.exists_tail hall (by rwa [List.length_append])
    refine ⟨tail ++ more, ?_⟩
    simpa using hvalue

/-- The byte that begins no value stays where it is. -/
theorem Breaks.append {bytes : List UInt8} {place : Nat} (h : Breaks Reserved bytes place)
    (tail : List UInt8) : Breaks Reserved (bytes ++ tail) place := by
  induction h with
  | here h =>
    obtain ⟨rest, rfl⟩ := h
    exact .here ⟨rest ++ tail, rfl⟩
  | inside hown hitems hmore _ ih =>
    simp only [List.append_assoc]
    exact .inside hown hitems hmore ih

/-! ## Skipping one value -/

theorem skip_iff_wellFormed {c after : Cursor} :
    c.skip = .ok after ↔ ∃ bytes, Spans c bytes after ∧ WellFormed bytes := by
  constructor
  · intro h
    obtain ⟨items, hlength, hitems, hspans⟩ := exists_items h
    obtain ⟨item, rfl⟩ := List.length_eq_one_iff.mp hlength
    rw [List.flatten_cons, List.flatten_nil, List.append_nil] at hspans
    exact ⟨item, hspans, hitems item List.mem_cons_self⟩
  · rintro ⟨bytes, hspans, hvalue⟩
    rw [hspans.eq, hvalue.whole.skip, ← hspans.position]

theorem skip_iff_breaks {stopped : List UInt8 → Prop} {e : Nat → SkipError}
    (hstops : Stops stopped e) {c : Cursor} {p : Nat} :
    c.skip = .error (e p) ↔ ∃ place, Breaks stopped c.rest place ∧ p = c.position + place := by
  constructor
  · intro h
    obtain ⟨items, rest, place, hlength, -, hrest, hbreaks, rfl⟩ := exists_breaks hstops h
    cases List.length_eq_zero_iff.mp (Nat.lt_one_iff.mp hlength)
    refine ⟨place, hrest ▸ hbreaks, ?_⟩
    rw [List.flatten_nil, List.length_nil, Nat.zero_add]
  · rintro ⟨place, hbreaks, rfl⟩
    exact hbreaks.skipValues hstops 0 c.position

/-- More bytes can lead to a value behind a cut, and never behind the byte that begins no value. -/
theorem exists_skip_append {c : Cursor} {place : Nat} (h : Breaks Cut c.rest place) :
    ∃ tail after, Cursor.skip ⟨c.position, c.rest ++ tail⟩ = .ok after := by
  obtain ⟨tail, hvalue⟩ := h.exists_tail
  exact ⟨tail, ⟨_, []⟩, skip_iff_wellFormed.mpr ⟨_, ⟨(List.append_nil _).symm, rfl⟩, hvalue⟩⟩

theorem skip_append_ne_ok {c : Cursor} {place : Nat} (h : Breaks Reserved c.rest place)
    (tail : List UInt8) (after : Cursor) :
    Cursor.skip ⟨c.position, c.rest ++ tail⟩ ≠ .ok after := by
  intro hok
  have herror := (h.append tail).skipValues stops_reserved 0 c.position
  rw [Cursor.skip] at hok
  rw [hok] at herror
  cases herror

/-- The walk takes exactly one value of the grammar. It fails as truncated where it does not
succeed but would with more bytes behind, and as reserved where it would with none. What it then
reports is the place of the first value, in reading order, that does not fit, or that begins with
the byte no value begins with. A reader that fails so stays where it was. -/
theorem skip_takes_grammar (c : Cursor) :
    (∀ after, c.skip = .ok after ↔ ∃ bytes, Spans c bytes after ∧ WellFormed bytes) ∧
    ((∃ p, c.skip = .error (.truncated p)) ↔ (¬ ∃ after, c.skip = .ok after) ∧
      ∃ tail after, Cursor.skip ⟨c.position, c.rest ++ tail⟩ = .ok after) ∧
    ((∃ p, c.skip = .error (.reservedMarker p)) ↔
      ¬ ∃ tail after, Cursor.skip ⟨c.position, c.rest ++ tail⟩ = .ok after) ∧
    (∀ p, c.skip = .error (.truncated p) ↔
      ∃ place, Breaks Cut c.rest place ∧ p = c.position + place) ∧
    (∀ p, c.skip = .error (.reservedMarker p) ↔
      ∃ place, Breaks Reserved c.rest place ∧ p = c.position + place) ∧
    ∀ scope target e after, Read.skip scope target c = .error e after →
      after = c ∧ ∃ failure, c.skip = .error failure ∧
        e = scope.fail target (.malformed failure) := by
  refine ⟨fun after => skip_iff_wellFormed, ?_, ?_, fun p => skip_iff_breaks stops_cut,
    fun p => skip_iff_breaks stops_reserved, ?_⟩
  · constructor
    · rintro ⟨p, h⟩
      obtain ⟨place, hbreaks, -⟩ := (skip_iff_breaks stops_cut).mp h
      refine ⟨?_, exists_skip_append hbreaks⟩
      rintro ⟨after, hok⟩
      rw [h] at hok
      cases hok
    · rintro ⟨hfails, tail, after, htail⟩
      cases h : c.skip with
      | ok after => exact absurd ⟨after, h⟩ hfails
      | error e =>
        cases e with
        | truncated p => exact ⟨p, rfl⟩
        | reservedMarker p =>
          obtain ⟨place, hbreaks, -⟩ := (skip_iff_breaks stops_reserved).mp h
          exact absurd htail (skip_append_ne_ok hbreaks tail after)
  · constructor
    · rintro ⟨p, h⟩ ⟨tail, after, htail⟩
      obtain ⟨place, hbreaks, -⟩ := (skip_iff_breaks stops_reserved).mp h
      exact skip_append_ne_ok hbreaks tail after htail
    · intro hnever
      cases h : c.skip with
      | ok after =>
        refine absurd ⟨[], after, ?_⟩ hnever
        rwa [List.append_nil]
      | error e =>
        cases e with
        | reservedMarker p => exact ⟨p, rfl⟩
        | truncated p =>
          obtain ⟨place, hbreaks, -⟩ := (skip_iff_breaks stops_cut).mp h
          exact absurd (exists_skip_append hbreaks) hnever
  · intro scope target e after h
    unfold Read.skip at h
    split at h
    · cases h
    · rename_i failure hskip
      cases h
      exact ⟨rfl, failure, hskip, rfl⟩

theorem skip_takes_grammar_in_arrays :
    Cursor.skip ⟨4, [0x93, 0x01]⟩ = .error (.truncated 6) ∧
      (∃ place, Breaks Cut [0x93, 0x01] place ∧ 6 = 4 + place) ∧
      (∃ tail after, Cursor.skip ⟨4, [0x93, 0x01] ++ tail⟩ = .ok after) ∧
      Cursor.skip ⟨4, [0x92, 0xc0, 0xc1]⟩ = .error (.reservedMarker 6) ∧
      (∃ place, Breaks Reserved [0x92, 0xc0, 0xc1] place ∧ 6 = 4 + place) ∧
      ¬ ∃ tail after, Cursor.skip ⟨4, [0x92, 0xc0, 0xc1] ++ tail⟩ = .ok after := by
  have hcut : Cursor.skip ⟨4, [0x93, 0x01]⟩ = .error (.truncated 6) := by
    have harray : Cursor.skipHead ⟨4, [0x93, 0x01]⟩ = .ok (3, ⟨5, [0x01]⟩) := rfl
    have hitem : Cursor.skipHead ⟨5, [0x01]⟩ = .ok (0, ⟨6, []⟩) := rfl
    rw [Cursor.skip, skipValues_succ harray, skipValues_succ hitem, skipValues_error rfl]
  have hreserved : Cursor.skip ⟨4, [0x92, 0xc0, 0xc1]⟩ = .error (.reservedMarker 6) := by
    have harray : Cursor.skipHead ⟨4, [0x92, 0xc0, 0xc1]⟩ = .ok (2, ⟨5, [0xc0, 0xc1]⟩) := rfl
    have hitem : Cursor.skipHead ⟨5, [0xc0, 0xc1]⟩ = .ok (0, ⟨6, [0xc1]⟩) := rfl
    rw [Cursor.skip, skipValues_succ harray, skipValues_succ hitem, skipValues_error rfl]
  obtain ⟨-, htruncated, -, hplace, -, -⟩ := skip_takes_grammar ⟨4, [0x93, 0x01]⟩
  obtain ⟨-, -, hnever, -, hplace', -⟩ := skip_takes_grammar ⟨4, [0x92, 0xc0, 0xc1]⟩
  exact ⟨hcut, (hplace 6).mp hcut, (htruncated.mp ⟨6, hcut⟩).2, hreserved,
    (hplace' 6).mp hreserved, hnever.mp ⟨6, hreserved⟩⟩

end Grammar

end SchemaPack.Wire
