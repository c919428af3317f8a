import SchemaPack.Proofs.Wire.Scalars
import SchemaPack.Proofs.Wire.Sequence

/-!
Operations in a row on one reader: looking at what comes next, takes of every kind, skips. Whatever
is asked of it and whatever its input is, the reader stays inside the input and never goes back. An
operation that fails leaves it where it was. What is taken was announced by the class of what stood
there, and the reader then is behind the value, where a skip would have led, or behind the header.
-/
namespace SchemaPack.Wire

open Grammar (Opens)

/-! ## Operations -/

/-- What can be asked of a reader. A skip that fails is reported in a scope, for a type. -/
inductive Op
  | peek
  | take (k : Kind)
  | skip (scope : Scope) (target : Ty)

inductive Answer
  | format (f : Format)
  | item (taken : Item)
  | nothing
  | skipped
  | stopped (e : CodecError)

def Answer.Failed : Answer → Prop
  | nothing | stopped _ => True
  | format _ | item _ | skipped => False

namespace Op

def read : Op → Read Answer
  | peek => return .format (← Read.peek)
  | take k => do
    match ← k.read with
    | some item => return .item item
    | none => return .nothing
  | skip scope target =>
    tryCatch (do Read.skip scope target; return .skipped) fun e => return .stopped e

def readAll (ops : List Op) : Read (List Answer) := ops.mapM read

theorem read_take (k : Kind) (c : Cursor) :
    (take k).read c = match k.take c with
      | some (item, after) => .ok (.item item) after
      | none => .ok .nothing c := by
  simp only [read, Kind.read, Bind.bind, EStateM.bind, Read.attempt]
  cases k.take c <;> rfl

theorem read_skip (scope : Scope) (target : Ty) (c : Cursor) :
    (skip scope target).read c = match c.skip with
      | .ok after => .ok .skipped after
      | .error e => .ok (.stopped (scope.fail target (.malformed e))) c := by
  simp only [read, tryCatch, tryCatchThe, MonadExceptOf.tryCatch, EStateM.tryCatch, Bind.bind,
    EStateM.bind, Read.skip]
  cases c.skip <;> rfl

end Op

/-! ## Takes -/

def Kind.format : Kind → Format
  | array => .array
  | map => .map
  | binary => .binary
  | string => .string
  | nil => .nil
  | bool => .boolean
  | i64 | u64 => .integer
  | f32 | f64 => .float

theorem Kind.format_broad (k : Kind) : k.broad.format = k.format := by
  cases k <;> rfl

theorem Marker.format_of_kind? {m : Marker} {k : Kind} (h : m.kind? = some k) :
    m.format = k.format := by
  cases m <;> cases h <;> rfl

theorem peek_of_marker? {c after : Cursor} {m : Marker} (h : c.marker? = some (m, after)) :
    c.peek = m.format := by
  obtain ⟨position, rest⟩ := c
  cases rest with
  | nil => cases h
  | cons b rest =>
    cases h
    rfl

/-- What is taken was announced by its class. -/
theorem Kind.peek_eq {k : Kind} {c after : Cursor} {item : Item}
    (h : k.take c = some (item, after)) : c.peek = k.format := by
  obtain ⟨m, behind, hmarker, hkind⟩ := exists_marker h
  rw [peek_of_marker? hmarker, Marker.format_of_kind? hkind, k.format_broad]

theorem exists_opens_array {c after : Cursor} {n : Nat} (h : c.arrayHeader? = some (n, after)) :
    ∃ front, Spans c front after ∧ Opens .array n front := by
  unfold Cursor.arrayHeader? at h
  split at h
  · rename_i hmarker
    exact Grammar.exists_opens .array hmarker h
  · cases h

theorem exists_opens_map {c after : Cursor} {n : Nat} (h : c.mapHeader? = some (n, after)) :
    ∃ front, Spans c front after ∧ Opens .map n front := by
  unfold Cursor.mapHeader? at h
  split at h
  · rename_i hmarker
    exact Grammar.exists_opens .map hmarker h
  · cases h

/-- A front with no values to follow is all that a skip takes. -/
theorem Heads.skip_eq {c after : Cursor} {bytes : List UInt8} (h : Heads 0 bytes)
    (hspans : Spans c bytes after) : c.skip = .ok after := by
  rw [hspans.eq, h.whole_of_none.skip, ← hspans.position]

theorem Fronted.skip_eq {α : Type} {take : Cursor → Option (α × Cursor)}
    (h : Fronted take fun _ => 0) {c after : Cursor} {a : α} (htake : take c = some (a, after)) :
    c.skip = .ok after := by
  obtain ⟨bytes, hspans, -, hheads⟩ := h.exists_bytes htake
  exact hheads.skip_eq hspans

/-- What is taken of an item lies between the cursors: of a header the first byte and the length
behind it, and of anything else the value that would be skipped. -/
def Item.Between (item : Item) (c after : Cursor) : Prop :=
  match item with
  | .array n => ∃ front, Spans c front after ∧ Opens .array n front
  | .map n => ∃ front, Spans c front after ∧ Opens .map n front
  | _ => c.skip = .ok after

theorem Kind.exists_intWithin {t : IntType} {c after : Cursor} {n : t.Range}
    (h : integer? t c = some (n, after)) :
    ∃ v, c.intWithin? t.min t.max = some (v, after) := by
  unfold integer? at h
  split at h
  · rename_i v behind hwithin
    obtain ⟨_, -, heq⟩ := Option.map_eq_some_iff.mp h
    cases heq
    exact ⟨v, hwithin⟩
  · cases h

theorem exists_of_map {α : Type} {take : Cursor → Option (α × Cursor)} {f : α → Item}
    {c after : Cursor} {item : Item}
    (h : (take c).map (fun (a, after) => (f a, after)) = some (item, after)) :
    ∃ a, take c = some (a, after) ∧ f a = item := by
  obtain ⟨⟨a, _⟩, htake, heq⟩ := Option.map_eq_some_iff.mp h
  cases heq
  exact ⟨a, htake, rfl⟩

theorem Kind.between {k : Kind} {c after : Cursor} {item : Item}
    (h : k.take c = some (item, after)) : item.kind = k ∧ item.Between c after := by
  cases k with
  | array =>
    obtain ⟨n, htake, rfl⟩ := exists_of_map h
    exact ⟨rfl, exists_opens_array htake⟩
  | map =>
    obtain ⟨n, htake, rfl⟩ := exists_of_map h
    exact ⟨rfl, exists_opens_map htake⟩
  | binary =>
    obtain ⟨data, htake, rfl⟩ := exists_of_map h
    exact ⟨rfl, fronted_binary.skip_eq htake⟩
  | string =>
    obtain ⟨s, htake, rfl⟩ := exists_of_map h
    exact ⟨rfl, fronted_string.skip_eq htake⟩
  | nil =>
    obtain ⟨_, htake, heq⟩ := Option.map_eq_some_iff.mp h
    cases heq
    obtain ⟨bytes, hspans, hheads, -⟩ := exists_nil htake
    exact ⟨rfl, hheads.skip_eq hspans⟩
  | bool =>
    obtain ⟨b, htake, rfl⟩ := exists_of_map h
    exact ⟨rfl, fronted_bool.skip_eq htake⟩
  | i64 | u64 =>
    obtain ⟨n, htake, rfl⟩ := exists_of_map h
    obtain ⟨v, hwithin⟩ := exists_intWithin htake
    exact ⟨rfl, (fronted_intWithin _ _).skip_eq hwithin⟩
  | f32 =>
    obtain ⟨bits, htake, rfl⟩ := exists_of_map h
    exact ⟨rfl, fronted_f32.skip_eq htake⟩
  | f64 =>
    obtain ⟨bits, htake, rfl⟩ := exists_of_map h
    exact ⟨rfl, fronted_f64.skip_eq htake⟩

theorem Item.Between.exists_taken_bytes {item : Item} {c after : Cursor}
    (h : item.Between c after) : ∃ bytes, Spans c bytes after := by
  cases item with
  | array | map =>
    obtain ⟨front, hspans, -⟩ := h
    exact ⟨front, hspans⟩
  | _ =>
    obtain ⟨bytes, hspans, -⟩ := Grammar.skip_iff_wellFormed.mp h
    exact ⟨bytes, hspans⟩

/-! ## What an operation keeps to -/

/-- The discipline of one operation. -/
structure Op.Keeps (op : Op) (c : Cursor) (answer : Answer) (after : Cursor) : Prop where
  forward : ∃ bytes, Spans c bytes after
  unmoved : answer.Failed → after = c
  taken : ∀ item, answer = .item item → op = .take item.kind ∧
    Op.peek.read c = .ok (.format item.kind.format) c ∧ item.Between c after

theorem Op.exists_keeps (op : Op) (c : Cursor) :
    ∃ answer after, op.read c = .ok answer after ∧ op.Keeps c answer after := by
  cases op with
  | peek => exact ⟨_, _, rfl, ⟨[], .refl c⟩, nofun, fun _ => nofun⟩
  | take k =>
    rw [read_take]
    cases htake : k.take c with
    | none => exact ⟨_, _, rfl, ⟨[], .refl c⟩, fun _ => rfl, fun _ => nofun⟩
    | some taken =>
      obtain ⟨item, after⟩ := taken
      obtain ⟨rfl, hbetween⟩ := Kind.between htake
      refine ⟨_, _, rfl, hbetween.exists_taken_bytes, nofun, ?_⟩
      rintro _ ⟨⟩
      have hpeek : Op.peek.read c = .ok (.format c.peek) c := rfl
      rw [Kind.peek_eq htake] at hpeek
      exact ⟨rfl, hpeek, hbetween⟩
  | skip scope target =>
    rw [read_skip]
    cases hskip : c.skip with
    | error e => exact ⟨_, _, rfl, ⟨[], .refl c⟩, fun _ => rfl, fun _ => nofun⟩
    | ok after =>
      obtain ⟨bytes, hspans, -⟩ := Grammar.skip_iff_wellFormed.mp hskip
      exact ⟨_, _, rfl, ⟨bytes, hspans⟩, nofun, fun _ => nofun⟩

/-! ## Operations in a row -/

/-- What every operation keeps operations in a row keep: they go forward. -/
theorem Op.exists_readAll (ops : List Op) (c : Cursor) :
    ∃ answers after bytes, readAll ops c = .ok answers after ∧ Spans c bytes after := by
  induction ops generalizing c with
  | nil => exact ⟨[], c, [], rfl, .refl c⟩
  | cons op ops ih =>
    obtain ⟨answer, middle, hread, ⟨front, hfront⟩, -, -⟩ := op.exists_keeps c
    obtain ⟨answers, after, back, hrest, hback⟩ := ih middle
    refine ⟨answer :: answers, after, front ++ back, ?_, hfront.trans hback⟩
    unfold readAll at hrest ⊢
    rw [List.mapM_cons, Outcome.bind_of_ok hread, Outcome.bind_of_ok hrest]
    rfl

theorem Op.readAll_append {before later : List Op} {c middle after : Cursor}
    {answers more : List Answer} (hbefore : readAll before c = .ok answers middle)
    (hlater : readAll later middle = .ok more after) :
    readAll (before ++ later) c = .ok (answers ++ more) after := by
  unfold readAll at hbefore hlater ⊢
  rw [List.mapM_append, Outcome.bind_of_ok hbefore, Outcome.bind_of_ok hlater]
  rfl

structure Cursor.Inside (input : List UInt8) (c : Cursor) : Prop where
  position_le : c.position ≤ input.length
  eq_at : c = .at input c.position

theorem Spans.inside {input bytes : List UInt8} {c : Cursor}
    (h : Spans (.ofBytes input) bytes c) : c.Inside input := by
  have hposition : c.position = bytes.length := by
    rw [h.position]
    exact Nat.zero_add bytes.length
  have hinput : input = bytes ++ c.rest := h.rest
  constructor
  · rw [hposition, hinput, List.length_append]
    exact Nat.le_add_right _ _
  · rw [Cursor.at, hposition, hinput, List.drop_left, ← hposition]

/-- After any operations the reader is at a place of its input, and the next one, whichever it is,
keeps to the discipline. Further operations leave it at a place that is not in front. -/
theorem operations_keep_discipline (input : List UInt8) (before : List Op) :
    ∃ answers c, Op.readAll before (.ofBytes input) = .ok answers c ∧ c.Inside input ∧
      (∀ op : Op, ∃ answer after, op.read c = .ok answer after ∧ op.Keeps c answer after) ∧
      ∀ later, ∃ more after,
        Op.readAll (before ++ later) (.ofBytes input) = .ok (answers ++ more) after ∧
        after.Inside input ∧ c.position ≤ after.position := by
  obtain ⟨answers, c, front, hbefore, hfront⟩ := Op.exists_readAll before (.ofBytes input)
  refine ⟨answers, c, hbefore, hfront.inside, fun op => op.exists_keeps c, fun later => ?_⟩
  obtain ⟨more, after, back, hlater, hback⟩ := Op.exists_readAll later c
  refine ⟨more, after, Op.readAll_append hbefore hlater, (hfront.trans hback).inside, ?_⟩
  rw [hback.position]
  exact Nat.le_add_right _ _

theorem item_of_array_taken :
    Op.readAll [.take .u64, .take .array] (.ofBytes [0x92, 0xcd, 0x01, 0x00, 0xa1]) =
        .ok [.nothing, .item (.array 2)] ⟨1, [0xcd, 0x01, 0x00, 0xa1]⟩ ∧
      Op.read (.take .u64) ⟨1, [0xcd, 0x01, 0x00, 0xa1]⟩ =
        .ok (.item (.uint ⟨256, by decide⟩)) ⟨4, [0xa1]⟩ ∧
      Op.peek.read ⟨1, [0xcd, 0x01, 0x00, 0xa1]⟩ =
        .ok (.format .integer) ⟨1, [0xcd, 0x01, 0x00, 0xa1]⟩ ∧
      Cursor.skip ⟨1, [0xcd, 0x01, 0x00, 0xa1]⟩ = .ok ⟨4, [0xa1]⟩ := by
  have hread : Op.readAll [.take .u64, .take .array] (.ofBytes [0x92, 0xcd, 0x01, 0x00, 0xa1]) =
      .ok [.nothing, .item (.array 2)] ⟨1, [0xcd, 0x01, 0x00, 0xa1]⟩ := rfl
  have htaken : Op.read (.take .u64) ⟨1, [0xcd, 0x01, 0x00, 0xa1]⟩ =
      .ok (.item (.uint ⟨256, by decide⟩)) ⟨4, [0xa1]⟩ := rfl
  obtain ⟨_, c, hrun, -, hkeeps, -⟩ := operations_keep_discipline
    [0x92, 0xcd, 0x01, 0x00, 0xa1] [.take .u64, .take .array]
  rw [hread] at hrun
  cases hrun
  obtain ⟨_, _, htake, -, -, hitem⟩ := hkeeps (.take .u64)
  rw [htaken] at htake
  cases htake
  obtain ⟨-, hpeek, hskip⟩ := hitem _ rfl
  exact ⟨hread, htaken, hpeek, hskip⟩

end SchemaPack.Wire
