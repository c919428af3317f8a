import SchemaPack.Proofs.Outcomes
import SchemaPack.Proofs.Wire.RoundTrip

/-!
Writes in a row, and reads in a row. What one write appends is taken off by the read that goes with
it, whatever stands around it, so the reads that go with the writes return what was written and come
to the end. Of the other reads only that of the other kind of integer can take the same bytes.
-/
namespace SchemaPack.Wire

/-- What one write is of: a header, or a value with no values inside. -/
inductive Item
  | array (n : Nat)
  | map (n : Nat)
  | binary (data : List UInt8)
  | string (s : String)
  | nil
  | bool (b : Bool)
  | int (n : IntType.i64.Range)
  | uint (n : IntType.u64.Range)
  | f32 (bits : UInt32)
  | f64 (bits : UInt64)
  deriving DecidableEq

/-- What one read asks for. -/
inductive Kind
  | array
  | map
  | binary
  | string
  | nil
  | bool
  | i64
  | u64
  | f32
  | f64
  deriving DecidableEq

namespace Item

def kind : Item → Kind
  | array _ => .array
  | map _ => .map
  | binary _ => .binary
  | string _ => .string
  | nil => .nil
  | bool _ => .bool
  | int _ => .i64
  | uint _ => .u64
  | f32 _ => .f32
  | f64 _ => .f64

def length : Item → Nat
  | array n | map n => n
  | binary data => data.length
  | string s => s.utf8ByteSize
  | _ => 0

def bytes : Item → List UInt8
  | array n => Encoding.arrayHeader n
  | map n => Encoding.mapHeader n
  | binary data => Encoding.binHeader data.length ++ data
  | string s => Encoding.strHeader s.utf8ByteSize ++ utf8 s
  | nil => Encoding.nil
  | bool b => Encoding.bool b
  | int n => Encoding.int n.val
  | uint n => Encoding.int n.val
  | f32 bits => Encoding.f32 bits
  | f64 bits => Encoding.f64 bits

def put : Item → Output → Except LengthOverflow Output
  | array n, out => out.arrayHeader n
  | map n, out => out.mapHeader n
  | binary data, out => out.binary data
  | string s, out => out.string s
  | nil, out => .ok out.nil
  | bool b, out => .ok (out.bool b)
  | int n, out => .ok (out.int n.val)
  | uint n, out => .ok (out.int n.val)
  | f32 bits, out => .ok (out.f32 bits)
  | f64 bits, out => .ok (out.f64 bits)

def write : Item → Write Unit
  | array n => Write.arrayHeader n
  | map n => Write.mapHeader n
  | binary data => Write.binary data
  | string s => Write.string s
  | nil => Write.append Encoding.nil
  | bool b => Write.append (Encoding.bool b)
  | int n => Write.append (Encoding.int n.val)
  | uint n => Write.append (Encoding.int n.val)
  | f32 bits => Write.append (Encoding.f32 bits)
  | f64 bits => Write.append (Encoding.f64 bits)

/-- Writes in a row: those that succeed, and the output in the end. Behind a refused write the next
one goes on with what that has left. -/
def writeAll : List Item → Output → List Item × Output
  | [], out => ([], out)
  | item :: rest, out =>
    match item.write out with
    | .ok () after =>
      let (written, last) := writeAll rest after
      (item :: written, last)
    | .error _ after => writeAll rest after

/-- What a read of a kind makes of an item: an integer is taken as either kind of integer that it
fits, and anything else as what it is. -/
def as : Item → Kind → Option Item
  | int n, .u64 => (IntType.u64.ofInt? n.val).map uint
  | uint n, .i64 => (IntType.i64.ofInt? n.val).map int
  | item, k => if k = item.kind then some item else none

end Item

namespace Kind

def integer? (t : IntType) (c : Cursor) : Option (t.Range × Cursor) :=
  match c.intWithin? t.min t.max with
  | some (n, after) => (t.ofInt? n).map (·, after)
  | none => none

def take : Kind → Cursor → Option (Item × Cursor)
  | array, c => c.arrayHeader?.map fun (n, after) => (.array n, after)
  | map, c => c.mapHeader?.map fun (n, after) => (.map n, after)
  | binary, c => c.binary?.map fun (data, after) => (.binary data, after)
  | string, c => c.string?.map fun (s, after) => (.string s, after)
  | nil, c => c.nil?.map fun after => (.nil, after)
  | bool, c => c.bool?.map fun (b, after) => (.bool b, after)
  | i64, c => (integer? .i64 c).map fun (n, after) => (.int n, after)
  | u64, c => (integer? .u64 c).map fun (n, after) => (.uint n, after)
  | f32, c => c.f32?.map fun (bits, after) => (.f32 bits, after)
  | f64, c => c.f64?.map fun (bits, after) => (.f64 bits, after)

def read (k : Kind) : Read (Option Item) := Read.attempt k.take

def readAll (kinds : List Kind) : Read (List (Option Item)) := kinds.mapM read

end Kind

/-! ## One write -/

theorem Encoding.map_sized {α : Type} (length : Nat) (bytes : List UInt8) (f : List UInt8 → α) :
    (sized length bytes).map f =
      if length < lengthBound then .ok (f bytes) else .error ⟨length⟩ := by
  unfold sized
  split <;> rfl

theorem Item.put_eq (item : Item) (out : Output) :
    item.put out =
      if item.length < lengthBound then .ok (out.append item.bytes) else .error ⟨item.length⟩ := by
  have hzero : 0 < lengthBound := by decide
  cases item with
  | array | map | binary | string => exact Encoding.map_sized _ _ _
  | _ => exact (if_pos hzero).symm

theorem Item.write_eq (item : Item) (out : Output) :
    item.write out = match item.put out with
      | .ok after => .ok () after
      | .error e => .error (.ofWriteFault (.lengthOverflow e)) out := by
  have hencoded : ∀ encoding : Except LengthOverflow (List UInt8),
      Write.encoded encoding out = match encoding.map out.append with
        | .ok after => .ok () after
        | .error e => .error (.ofWriteFault (.lengthOverflow e)) out := by
    intro encoding
    cases encoding <;> rfl
  cases item with
  | array | map | binary | string => exact hencoded _
  | _ => rfl

theorem Item.write_of_lt {item : Item} (h : item.length < lengthBound) (out : Output) :
    item.write out = .ok () (out.append item.bytes) := by
  rw [write_eq, put_eq, if_pos h]

theorem Item.write_of_le {item : Item} (h : lengthBound ≤ item.length) (out : Output) :
    item.write out = .error (.ofWriteFault (.lengthOverflow ⟨item.length⟩)) out := by
  rw [write_eq, put_eq, if_neg (Nat.not_lt.mpr h)]

/-! ## One read -/

/-- The kind of what begins with a marker; every integer counts as one kind. -/
def Marker.kind? : Marker → Option Kind
  | fixint _ | uint _ | sint _ => some .i64
  | nil => some .nil
  | bool _ => some .bool
  | f32 => some .f32
  | f64 => some .f64
  | str _ => some .string
  | bin _ => some .binary
  | array _ => some .array
  | map _ => some .map
  | ext _ | reserved => none

def Kind.broad : Kind → Kind
  | u64 => i64
  | k => k

/-- What is taken begins with a marker of its kind. -/
theorem Kind.exists_marker {k : Kind} {c after : Cursor} {item : Item}
    (h : k.take c = some (item, after)) :
    ∃ m behind, c.marker? = some (m, behind) ∧ m.kind? = some k.broad := by
  -- Every take goes by the marker first, and is refused by a marker of another kind.
  rcases hmarker : c.marker? with _ | ⟨_ | _ | _ | _ | _ | _ | _ | _ | _ | _ | _ | _ | _, behind⟩
  all_goals
    cases k
    all_goals first
      | exact ⟨_, _, rfl, rfl⟩
      | simp [take, integer?, Cursor.intWithin?, Cursor.int?, Cursor.arrayHeader?,
          Cursor.mapHeader?, Cursor.binary?, Cursor.string?, Cursor.strBytes?, Cursor.nil?,
          Cursor.bool?, Cursor.f32?, Cursor.f64?, hmarker] at h

theorem Kind.broad_eq {k k' : Kind} {c after after' : Cursor} {item item' : Item}
    (h : k.take c = some (item, after)) (h' : k'.take c = some (item', after')) :
    k'.broad = k.broad := by
  obtain ⟨m, behind, hmarker, hkind⟩ := exists_marker h
  obtain ⟨m', behind', hmarker', hkind'⟩ := exists_marker h'
  rw [hmarker] at hmarker'
  cases hmarker'
  exact Option.some.inj (hkind'.symm.trans hkind)

/-- An integer is taken as one of the type if it is in the range. -/
theorem Kind.integer?_eq {t : IntType} {c after : Cursor} {n : Int}
    (h : c.int? = some (n, after)) : integer? t c = (t.ofInt? n).map (·, after) := by
  unfold integer? Cursor.intWithin? IntType.ofInt?
  rw [h]
  by_cases hrange : t.min ≤ n ∧ n ≤ t.max
  · simp only [if_pos hrange, dif_pos hrange]
  · simp only [if_neg hrange, dif_neg hrange, Option.map_none]

/-- The numbers of either kind have an encoding. -/
theorem yields_range {t : IntType} (ht : t = .i64 ∨ t = .u64) (n : t.Range) :
    Yields Cursor.int? (Encoding.int n.val) n.val := by
  have hlow : t.min ≤ n.val := n.property.1
  have hhigh : n.val ≤ t.max := n.property.2
  rcases ht with rfl | rfl
  · exact yields_int hlow (lt_of_le_of_lt hhigh (by decide))
  · exact yields_int (le_trans (by decide) hlow) (Int.lt_add_one_of_le hhigh)

theorem Yields.map {α β : Type} {take : Cursor → Option (α × Cursor)} {bytes : List UInt8} {a : α}
    (h : Yields take bytes a) (f : α → β) :
    Yields (fun c => (take c).map fun (a, after) => (f a, after)) bytes (f a) := by
  intro position rest
  simp only [h position rest, Option.map_some]

theorem Kind.yields_integer {t : IntType} (ht : t = .i64 ∨ t = .u64) (n : t.Range) :
    Yields (integer? t) (Encoding.int n.val) n := by
  intro position rest
  rw [integer?_eq (yields_range ht n position rest), IntType.ofInt?, dif_pos n.property,
    Option.map_some]

/-- What is written is taken off again by the take of its kind. -/
theorem Item.yields_kind {item : Item} (h : item.length < lengthBound) :
    Yields item.kind.take item.bytes item := by
  cases item with
  | array n => exact (yields_arrayHeader h).map array
  | map n => exact (yields_mapHeader h).map map
  | binary data => exact (yields_binary h).map binary
  | string s => exact (yields_string h).map string
  | nil => exact fun _ _ => rfl
  | bool b => exact (yields_bool b).map bool
  | int n => exact (Kind.yields_integer (.inl rfl) n).map int
  | uint n => exact (Kind.yields_integer (.inr rfl) n).map uint
  | f32 bits => exact (yields_f32 bits).map f32
  | f64 bits => exact (yields_f64 bits).map f64

theorem Item.as_kind (item : Item) : item.as item.kind = some item := by
  cases item <;> rfl

/-- Only the two kinds of integers count as one. -/
theorem Kind.eq_of_broad {k k' : Kind} (h : k.broad = k'.broad) :
    k = k' ∨ (k = .u64 ∧ k' = .i64) ∨ (k = .i64 ∧ k' = .u64) := by
  revert h
  cases k <;> cases k' <;> decide

theorem Item.as_of_broad {item : Item} {k : Kind} (h : k.broad ≠ item.kind.broad) :
    item.as k = none := by
  have hkind : k ≠ item.kind := by
    rintro rfl
    exact h rfl
  cases item with
  | int n =>
    cases k with
    | u64 => exact absurd rfl h
    | _ => simp only [as, if_neg hkind]
  | uint n =>
    cases k with
    | i64 => exact absurd rfl h
    | _ => simp only [as, if_neg hkind]
  | _ => simp only [as, if_neg hkind]

/-- Of the takes of all kinds, each makes of the bytes of an item what it can. -/
theorem Item.take_eq {item : Item} (h : item.length < lengthBound) (k : Kind) (position : Nat)
    (rest : List UInt8) :
    k.take ⟨position, item.bytes ++ rest⟩ =
      (item.as k).map (·, ⟨position + item.bytes.length, rest⟩) := by
  have hown := item.yields_kind h position rest
  by_cases hbroad : k.broad = item.kind.broad
  · rcases Kind.eq_of_broad hbroad with rfl | ⟨rfl, hkind⟩ | ⟨rfl, hkind⟩
    · rw [hown, item.as_kind, Option.map_some]
    · cases item with
      | int n =>
        have hinteger := Kind.integer?_eq (t := .u64) (yields_range (.inl rfl) n position rest)
        simp only [Kind.take, as, bytes, hinteger, Option.map_map]
        rfl
      | _ => cases hkind
    · cases item with
      | uint n =>
        have hinteger := Kind.integer?_eq (t := .i64) (yields_range (.inr rfl) n position rest)
        simp only [Kind.take, as, bytes, hinteger, Option.map_map]
        rfl
      | _ => cases hkind
  · rw [as_of_broad hbroad, Option.map_none]
    cases htake : k.take ⟨position, item.bytes ++ rest⟩ with
    | none => rfl
    | some taken => exact absurd (Kind.broad_eq hown htake) hbroad

/-! ## In a row -/

theorem Kind.read_eq {item : Item} (h : item.length < lengthBound) (k : Kind) (position : Nat)
    (rest : List UInt8) :
    k.read ⟨position, item.bytes ++ rest⟩ =
      match item.as k with
      | some x => .ok (some x) ⟨position + item.bytes.length, rest⟩
      | none => .ok none ⟨position, item.bytes ++ rest⟩ := by
  simp only [read, Read.attempt, item.take_eq h]
  cases item.as k <;> rfl

/-- The reads that go with the items take the bytes of the items off the input. -/
theorem Kind.readAll_eq {items : List Item} (h : ∀ item ∈ items, item.length < lengthBound)
    (position : Nat) (rest : List UInt8) :
    readAll (items.map Item.kind) ⟨position, items.flatMap Item.bytes ++ rest⟩ =
      .ok (items.map some) ⟨position + (items.flatMap Item.bytes).length, rest⟩ := by
  induction items generalizing position with
  | nil => rfl
  | cons item items ih =>
    have hread := read_eq (h item List.mem_cons_self) item.kind position
      (items.flatMap Item.bytes ++ rest)
    rw [item.as_kind] at hread
    have hrest := ih (fun item hitem => h item (List.mem_cons_of_mem _ hitem))
      (position + item.bytes.length)
    unfold readAll at hrest ⊢
    rw [List.map_cons, List.mapM_cons, List.flatMap_cons, List.append_assoc, List.length_append,
      ← Nat.add_assoc, Outcome.bind_of_ok hread, Outcome.bind_of_ok hrest]
    rfl

/-- Of writes in a row those of what has no length, or one that can be written, succeed. -/
theorem Item.writeAll_eq (items : List Item) (out : Output) :
    (writeAll items out).1 = items.filter (·.length < lengthBound) ∧
      (writeAll items out).2.bytes = out.bytes ++ (writeAll items out).1.flatMap bytes := by
  induction items generalizing out with
  | nil => exact ⟨rfl, (List.append_nil _).symm⟩
  | cons item items ih =>
    by_cases h : item.length < lengthBound
    · obtain ⟨hwritten, hbytes⟩ := ih (out.append item.bytes)
      simp only [writeAll, write_of_lt h]
      refine ⟨?_, ?_⟩
      · rw [hwritten, List.filter_cons, if_pos (by simpa using h)]
      · rw [hbytes, Output.bytes_append, List.flatMap_cons, List.append_assoc]
    · obtain ⟨hwritten, hbytes⟩ := ih out
      simp only [writeAll, write_of_le (Nat.not_lt.mp h)]
      refine ⟨?_, hbytes⟩
      rw [hwritten, List.filter_cons, if_neg (by simpa using h)]

/-- The reader agrees with the writer on every sequence. A length that is too great is refused with
that length, and the output stays. Over what the successful writes leave, the reads that go with
them return what was written and end behind it. A read of any kind in front of an item takes it as
what it can be taken as, and stays where it is if that is nothing. -/
theorem reads_follow_writes :
    (∀ (item : Item) (out : Output),
      (item.length < lengthBound →
        ∃ after, item.put out = .ok after ∧ item.write out = .ok () after) ∧
      (lengthBound ≤ item.length → item.put out = .error ⟨item.length⟩ ∧
        item.write out = .error (.ofWriteFault (.lengthOverflow ⟨item.length⟩)) out)) ∧
    ∀ items : List Item, ∃ written out, Item.writeAll items .empty = (written, out) ∧
      written = items.filter (·.length < lengthBound) ∧
      Kind.readAll (written.map Item.kind) (.ofBytes out.bytes) =
        .ok (written.map some) ⟨out.size, []⟩ ∧
      ∀ before item later, written = before ++ item :: later → ∃ c after,
        Kind.readAll (before.map Item.kind) (.ofBytes out.bytes) = .ok (before.map some) c ∧
        ∀ k : Kind, k.read c = match item.as k with
          | some x => .ok (some x) after
          | none => .ok none c := by
  refine ⟨fun item out => ⟨fun h => ?_, fun h => ?_⟩, fun items => ?_⟩
  · exact ⟨_, by rw [item.put_eq, if_pos h], item.write_of_lt h out⟩
  · exact ⟨by rw [item.put_eq, if_neg (Nat.not_lt.mpr h)], item.write_of_le h out⟩
  · obtain ⟨hwritten, hbytes⟩ := Item.writeAll_eq items .empty
    rw [Output.bytes_empty, List.nil_append] at hbytes
    have hfits : ∀ item ∈ (Item.writeAll items .empty).1, item.length < lengthBound := by
      intro item hitem
      rw [hwritten] at hitem
      exact of_decide_eq_true (List.mem_filter.mp hitem).2
    generalize Item.writeAll items .empty = result at hwritten hbytes hfits
    obtain ⟨written, out⟩ := result
    simp only at hwritten hbytes hfits
    refine ⟨written, out, rfl, hwritten, ?_, ?_⟩
    · have hread := Kind.readAll_eq hfits 0 []
      rw [List.append_nil, ← hbytes, Nat.zero_add] at hread
      exact hread
    · rintro before item later rfl
      have hsplit : out.bytes = before.flatMap Item.bytes ++
          (item.bytes ++ later.flatMap Item.bytes) := by
        rw [hbytes, List.flatMap_append, List.flatMap_cons]
      have hread := Kind.readAll_eq
        (fun item hitem => hfits item (List.mem_append_left _ hitem)) 0
        (item.bytes ++ later.flatMap Item.bytes)
      rw [← hsplit] at hread
      exact ⟨_, _, hread, fun k => k.read_eq (hfits item (by simp)) _ _⟩

end SchemaPack.Wire
