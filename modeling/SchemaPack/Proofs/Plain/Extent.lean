import SchemaPack.Proofs.Plain.Agreement
import SchemaPack.Proofs.Plain.Traversal
import SchemaPack.Proofs.Wire.Delimiting

/-!
Where reading ends. A value that is read has moved over the bytes of one whole value and goes by
these bytes alone. So a read stops where the value could be skipped to, and neither what stands in
front nor what follows has a part in it.
-/
namespace SchemaPack

open Wire (Cursor Fronted Heads Spans Whole)

/-! ## Steps and the bytes they move over -/

namespace Read

variable {α β : Type} {P : α → List UInt8 → Prop} {Q : β → List UInt8 → Prop}

/-- A step that succeeds has moved over bytes with a property, and reads them alike anywhere. -/
def MovesOver (step : Read α) (P : α → List UInt8 → Prop) : Prop :=
  ∀ cursor a after, step cursor = .ok a after → ∃ bytes, Spans cursor bytes after ∧ P a bytes ∧
    ∀ position rest, step ⟨position, bytes ++ rest⟩ = .ok a ⟨position + bytes.length, rest⟩

theorem MovesOver.mono {step : Read α} (h : step.MovesOver P) {P' : α → List UInt8 → Prop}
    (hPP' : ∀ a bytes, P a bytes → P' a bytes) : step.MovesOver P' := by
  intro cursor a after hok
  obtain ⟨bytes, hspans, hP, hmoved⟩ := h cursor a after hok
  exact ⟨bytes, hspans, hPP' a bytes hP, hmoved⟩

theorem movesOver_pure {a : α} (h : P a []) : MovesOver (pure a) P := by
  intro cursor b after hok
  cases hok
  exact ⟨[], .refl cursor, h, fun _ _ => rfl⟩

theorem movesOver_throw (e : CodecError) : MovesOver (throw e : Read α) P := by
  intro cursor a after hok
  cases hok

theorem MovesOver.bind {first : Read α} {second : α → Read β} (hfirst : first.MovesOver P)
    (hsecond : ∀ a front, P a front → (second a).MovesOver fun b back => Q b (front ++ back)) :
    MovesOver (first >>= second) Q := by
  intro cursor b after hok
  obtain ⟨a, middle, hmiddle, hafter⟩ := Outcome.bind_eq_ok.mp hok
  obtain ⟨front, hspans, hP, hmoved⟩ := hfirst _ _ _ hmiddle
  obtain ⟨back, hspans', hQ, hmoved'⟩ := hsecond a front hP _ _ _ hafter
  refine ⟨front ++ back, hspans.trans hspans', hQ, fun position rest => ?_⟩
  rw [List.append_assoc, List.length_append, ← Nat.add_assoc]
  exact (Outcome.bind_of_ok (hmoved position (back ++ rest))).trans
    (hmoved' (position + front.length) rest)

theorem MovesOver.within {step : Read α} (h : step.MovesOver P) (s : Segment) :
    (Read.within s step).MovesOver P := by
  intro cursor a after hok
  obtain ⟨bytes, hspans, hP, hmoved⟩ := h _ _ _ (Outcome.adaptExcept_eq_ok.mp hok)
  exact ⟨bytes, hspans, hP, fun position rest =>
    Outcome.adaptExcept_eq_ok.mpr (hmoved position rest)⟩

theorem movesOver_demand {take : Cursor → Option (α × Cursor)} {due : α → Nat}
    (h : Fronted take due) (scope : Scope) (target : Ty) (fault : Wire.Format → ReadFault) :
    (demand take scope target fault).MovesOver fun a bytes => Heads (due a) bytes := by
  intro cursor a after hok
  obtain ⟨bytes, hspans, hyields, hheads⟩ := h.exists_bytes (demand_eq_ok.mp hok)
  exact ⟨bytes, hspans, hheads, fun position rest => demand_eq_ok.mpr (hyields position rest)⟩

theorem movesOver_skip (scope : Scope) (target : Ty) :
    (skip scope target).MovesOver fun _ bytes => Whole 1 bytes := by
  intro cursor a after hok
  obtain ⟨bytes, hspans, hwhole⟩ := Wire.whole_of_skipValues (skip_eq_ok.mp hok)
  exact ⟨bytes, hspans, hwhole, fun position rest => skip_eq_ok.mpr (hwhole.skip position rest)⟩

/-- A step that reads a value with no values inside off some bytes. -/
theorem movesOver_run {step : Cursor → Except ReadFault Value × Cursor}
    (h : ∀ c v after, step c = (.ok v, after) → ∃ bytes, Spans c bytes after ∧ Heads 0 bytes ∧
      ∀ position rest, step ⟨position, bytes ++ rest⟩ = (.ok v, ⟨position + bytes.length, rest⟩))
    (scope : Scope) (target : Ty) :
    (scope.run target step).MovesOver fun _ bytes => Whole 1 bytes := by
  intro cursor v after hok
  obtain ⟨bytes, hspans, hheads, hagain⟩ := h _ _ _ (Scope.run_eq_ok.mp hok)
  exact ⟨bytes, hspans, hheads.whole_of_none, fun position rest =>
    Scope.run_eq_ok.mpr (hagain position rest)⟩

/-- A step that goes by what stands at the front of a value takes the front and nothing else. -/
theorem exists_heads_of_take {take : Cursor → Option (α × Cursor)} (h : Fronted take fun _ => 0)
    {step : Cursor → Except ReadFault Value × Cursor} {c after : Cursor} {a : α} {v : Value}
    (htake : take c = some (a, after))
    (hstep : ∀ c after, take c = some (a, after) → step c = (.ok v, after)) :
    ∃ bytes, Spans c bytes after ∧ Heads 0 bytes ∧
      ∀ position rest, step ⟨position, bytes ++ rest⟩ =
        (.ok v, ⟨position + bytes.length, rest⟩) := by
  obtain ⟨bytes, hspans, hyields, hheads⟩ := h.exists_bytes htake
  exact ⟨bytes, hspans, hheads, fun position rest => hstep _ _ (hyields position rest)⟩

/-- A loop moves over as many values as its passes do together. -/
theorem movesOver_mapM {ι : Type} {xs : List ι} {step : ι → Read β} {n : Nat}
    (h : ∀ x ∈ xs, (step x).MovesOver fun _ bytes => Whole n bytes) :
    (xs.mapM step).MovesOver fun _ bytes => Whole (n * xs.length) bytes := by
  induction xs with
  | nil => exact movesOver_pure Wire.whole_nil
  | cons x xs ih =>
    have hrest := ih fun y hy => h y (List.mem_cons_of_mem _ hy)
    rw [List.mapM_cons]
    refine (h x List.mem_cons_self).bind fun b front hfront => hrest.bind fun bs back hback => ?_
    refine movesOver_pure ?_
    rw [List.append_nil, List.length_cons, Nat.mul_succ, Nat.add_comm]
    exact hfront.append hback

theorem movesOver_foldlM {ι : Type} {step : β → ι → Read β} {n : Nat}
    (h : ∀ b x, (step b x).MovesOver fun _ bytes => Whole n bytes) (xs : List ι) (b : β) :
    (xs.foldlM step b).MovesOver fun _ bytes => Whole (n * xs.length) bytes := by
  induction xs generalizing b with
  | nil => exact movesOver_pure Wire.whole_nil
  | cons x xs ih =>
    rw [List.foldlM_cons]
    refine (h b x).bind fun a front hfront => (ih a).mono fun _ back hback => ?_
    rw [List.length_cons, Nat.mul_succ, Nat.add_comm]
    exact hfront.append hback

/-- The items of a list are as many whole values as are read. -/
theorem movesOver_readAll {item : Read Value} (h : item.MovesOver fun _ bytes => Whole 1 bytes)
    (count : Nat) : (readAll item count 0 []).MovesOver fun _ bytes => Whole count bytes := by
  have hitem : ∀ i ∈ List.range count,
      (within (.index i) item).MovesOver fun _ bytes => Whole 1 bytes := fun i _ => h.within _
  have hall := movesOver_mapM hitem
  rwa [← readAll_eq_mapM, Nat.one_mul, List.length_range] at hall

theorem movesOver_readEntries {key value : Read Value}
    (hkey : key.MovesOver fun _ bytes => Whole 1 bytes)
    (hvalue : value.MovesOver fun _ bytes => Whole 1 bytes) (count : Nat) :
    (readEntries key value count 0 []).MovesOver fun _ bytes => Whole (2 * count) bytes := by
  have hentry : ∀ i ∈ List.range count,
      (entry key value i).MovesOver fun _ bytes => Whole 2 bytes := by
    intro i _
    refine (hkey.within _).bind fun k front hfront => ?_
    refine (hvalue.within _).bind fun v back hback => movesOver_pure ?_
    rw [List.append_nil]
    exact hfront.append hback
  have hall := movesOver_mapM hentry
  rwa [← readEntries_eq_mapM, List.length_range] at hall

end Read

/-! ## Values with no values inside -/

namespace Plain

abbrev OneValue (step : Read Value) : Prop := step.MovesOver fun _ bytes => Whole 1 bytes

theorem oneValue_primitive (p : Primitive) (scope : Scope) (target : Ty) :
    OneValue (scope.run target p.read) := by
  refine Read.movesOver_run (fun c v after h => ?_) scope target
  cases Primitive.read_eq_ok.mp h with
  | bool htake =>
    exact Read.exists_heads_of_take Wire.fronted_bool htake
      fun _ _ htake => Primitive.Taken.read_eq (.bool htake)
  | int htake =>
    exact Read.exists_heads_of_take Wire.fronted_int htake
      fun _ _ htake => Primitive.Taken.read_eq (.int htake)
  | f32 htake =>
    exact Read.exists_heads_of_take Wire.fronted_f32 htake
      fun _ _ htake => Primitive.Taken.read_eq (.f32 htake)
  | f64 htake =>
    exact Read.exists_heads_of_take Wire.fronted_f64 htake
      fun _ _ htake => Primitive.Taken.read_eq (.f64 htake)
  | widened _ htake =>
    -- the single is read only because no double stands there
    exact Read.exists_heads_of_take Wire.fronted_f32 htake
      fun _ _ htake => Primitive.Taken.read_eq (.widened (Wire.f64?_of_f32? htake) htake)
  | string htake =>
    exact Read.exists_heads_of_take Wire.fronted_string htake
      fun _ _ htake => Primitive.Taken.read_eq (.string htake)

theorem oneValue_bytes (scope : Scope) (target : Ty) : OneValue (scope.run target readBytes) := by
  refine Read.movesOver_run (fun c v after h => ?_) scope target
  obtain ⟨data, htake, rfl⟩ := readBytes_eq_ok.mp h
  exact Read.exists_heads_of_take Wire.fronted_binary htake
    fun _ _ htake => readBytes_eq_ok.mpr ⟨data, htake, rfl⟩

theorem oneValue_text (parse : String → Except TextError Value) (scope : Scope) (target : Ty) :
    OneValue (scope.run target (readText parse)) := by
  refine Read.movesOver_run (fun c v after h => ?_) scope target
  obtain ⟨text, htake, hparse⟩ := readText_eq_ok.mp h
  exact Read.exists_heads_of_take Wire.fronted_string htake
    fun _ _ htake => readText_eq_ok.mpr ⟨text, htake, hparse⟩

/-! ## Containers -/

variable {c : Catalog} {inside : Ty → Scope → Read Value}

theorem movesOver_readItems (h : ∀ t scope, OneValue (inside t scope)) (scope : Scope)
    (types : List Ty) :
    (readItems inside scope 0 types).MovesOver fun _ bytes => Whole types.length bytes := by
  have hitem : ∀ p ∈ types.zipIdx, OneValue (readItem inside scope p) :=
    fun p _ => (h p.1 _).within _
  have hall := Read.movesOver_mapM hitem
  rwa [← readItems_eq_mapM, Nat.one_mul, List.length_zipIdx] at hall

theorem oneValue_readTuple (h : ∀ t scope, OneValue (inside t scope)) (items : List Ty)
    (scope : Scope) : OneValue (readTuple inside items scope) := by
  refine (Read.movesOver_demand Wire.fronted_arrayHeader _ _ _).bind fun count front hfront => ?_
  split
  · rename_i hcount
    refine (movesOver_readItems h scope items).bind fun values back hback => ?_
    refine Read.movesOver_pure ?_
    rw [List.append_nil]
    exact hfront.whole (hcount ▸ hback)
  · exact Read.movesOver_throw _

/-- Whether a field is read or passed over, its name and its value are two values. -/
theorem movesOver_readField (h : ∀ t scope, OneValue (inside t scope)) (scope : Scope)
    (target : Ty) (fields : List Field) (before : List (String × Value)) :
    (readField inside scope target fields before).MovesOver fun _ bytes => Whole 2 bytes := by
  refine (Read.movesOver_demand Wire.fronted_string _ _ _).bind fun name front hfront => ?_
  have hentry : ∀ {back : List UInt8}, Whole 1 back → Whole 2 (front ++ (back ++ [])) := by
    intro back hback
    rw [List.append_nil]
    exact hfront.whole_of_none.append hback
  split
  · split
    · exact Read.movesOver_throw _
    · exact (Read.movesOver_skip _ _).bind fun _ back hback => Read.movesOver_pure (hentry hback)
  · split
    · exact Read.movesOver_throw _
    · exact ((h _ _).within _).bind fun v back hback => Read.movesOver_pure (hentry hback)

theorem movesOver_readFields (h : ∀ t scope, OneValue (inside t scope)) (scope : Scope)
    (target : Ty) (fields : List Field) (count : Nat) :
    (readFields inside scope target fields count []).MovesOver fun _ bytes =>
      Whole (2 * count) bytes := by
  have hall := Read.movesOver_foldlM
    (fun before (_ : Unit) => movesOver_readField h scope target fields before)
    (List.replicate count ()) []
  rwa [← readFields_eq_foldlM, List.length_replicate] at hall

theorem oneValue_readRecord (h : ∀ t scope, OneValue (inside t scope)) (name : TypeName)
    (scope : Scope) : OneValue (readRecord inside c name scope) := by
  unfold readRecord
  split
  · exact Read.movesOver_throw _
  · refine (Read.movesOver_demand Wire.fronted_mapHeader _ _ _).bind fun count front hfront => ?_
    refine (movesOver_readFields h scope _ _ count).bind fun filled back hback => ?_
    split
    · refine Read.movesOver_pure ?_
      rw [List.append_nil]
      exact hfront.whole hback
    · exact Read.movesOver_throw _

theorem oneValue_readUnion (h : ∀ t scope, OneValue (inside t scope)) (target : Ty)
    (isNullable : Bool) (alternatives : List Ty) (scope : Scope) :
    OneValue (readUnion inside target isNullable alternatives scope) := by
  refine (Read.movesOver_demand Wire.fronted_arrayHeader _ _ _).bind fun count front hfront => ?_
  split
  · rename_i hcount
    subst hcount
    refine (Read.movesOver_demand Wire.fronted_string _ _ _).bind fun tag middle hmiddle => ?_
    have hall : ∀ {back : List UInt8}, Whole 1 back → Whole 1 (front ++ (middle ++ back)) :=
      fun hback => hfront.whole (hmiddle.whole_of_none.append hback)
    unfold readAlternative
    split
    · refine ((h _ _).within _).bind fun held back hback => Read.movesOver_pure ?_
      rw [List.append_nil]
      exact hall hback
    · split
      · refine (Read.movesOver_skip _ _).bind fun _ back hback => Read.movesOver_pure ?_
        rw [List.append_nil]
        exact hall hback
      · exact Read.movesOver_throw _
  · exact Read.movesOver_throw _

theorem oneValue_readPresent (h : ∀ t scope, OneValue (inside t scope)) (t : Ty) (scope : Scope) :
    OneValue (readPresent inside c scope t) := by
  induction t with
  | primitive p => exact oneValue_primitive p scope _
  | bytes => exact oneValue_bytes scope _
  | decimal => exact oneValue_text _ scope _
  | version => exact oneValue_text _ scope _
  | tuple items _ => exact oneValue_readTuple h items scope
  | union alternatives _ => exact oneValue_readUnion h _ _ alternatives scope
  | list element _ =>
    refine (Read.movesOver_demand Wire.fronted_arrayHeader _ _ _).bind fun count front hfront => ?_
    refine (Read.movesOver_readAll (h element _) count).bind fun values back hback => ?_
    refine Read.movesOver_pure ?_
    rw [List.append_nil]
    exact hfront.whole hback
  | map key value _ _ =>
    refine (Read.movesOver_demand Wire.fronted_mapHeader _ _ _).bind fun count front hfront => ?_
    refine (Read.movesOver_readEntries (h key _) (h value _) count).bind
      fun entries back hback => Read.movesOver_pure ?_
    rw [List.append_nil]
    exact hfront.whole hback
  | nullable inner ih =>
    cases inner with
    | union alternatives => exact oneValue_readUnion h _ _ alternatives scope
    | _ => exact ih
  | record name => exact oneValue_readRecord h name scope

theorem oneValue_orNull {step : Read Value} (h : OneValue step) (isNullable : Bool) :
    OneValue (orNull isNullable step) := by
  intro cursor v after hok
  unfold orNull at hok
  split at hok
  · rename_i hnil
    cases hok
    split at hnil
    · rename_i hnullable
      obtain ⟨bytes, hspans, hheads, hmoved⟩ := Wire.exists_nil hnil
      refine ⟨bytes, hspans, hheads.whole_of_none, fun position rest => ?_⟩
      simp only [orNull, if_pos hnullable, hmoved position rest]
    · cases hnil
  · rename_i hnone
    obtain ⟨bytes, hspans, hwhole, hmoved⟩ := h _ _ _ hok
    refine ⟨bytes, hspans, hwhole, fun position rest => ?_⟩
    -- the first byte of the value is there again, and it is no nil
    have hnil : (if isNullable then Cursor.nil? ⟨position, bytes ++ rest⟩ else none) = none := by
      split at hnone
      · rename_i hnullable
        rw [hspans.eq] at hnone
        rw [if_pos hnullable]
        exact Wire.notNil_of_nil? hwhole.ne_nil hnone position rest
      · rename_i hnullable
        rw [if_neg hnullable]
    simp only [orNull, hnil]
    exact hmoved position rest

/-- Reading a value moves over the bytes of one whole value. -/
theorem oneValue_read (c : Catalog) (room : Nat) (t : Ty) (scope : Scope) :
    OneValue (read c room t scope) := by
  induction room generalizing t scope with
  | zero => exact Read.movesOver_throw _
  | succ room ih => exact oneValue_orNull (oneValue_readPresent ih t scope) t.isNullable

end Plain

/-! ## Served codecs -/

namespace Context

variable {catalog : Catalog} {config : Config} {history : List (Ty × Policy)} {type : Ty}
  {policy : Policy} {h : Handle}

theorem oneValue_readWith
    (hserved : (((fresh catalog config).after history).request type policy).1 = .ok h)
    (behaviour : Policy) : Plain.OneValue (h.readWith behaviour) := by
  rw [readWith_eq_plain hserved]
  exact Plain.oneValue_read _ _ _ _

/-- What is decoded is read wherever it stands in front. -/
theorem readWith_of_decode
    (hserved : (((fresh catalog config).after history).request type policy).1 = .ok h)
    {behaviour : Policy} {bytes : List UInt8} {v : Value}
    (hdecoded : (h.withPolicy behaviour).decode bytes = .ok v) (rest : List UInt8) :
    h.readWith behaviour (.ofBytes (bytes ++ rest)) = .ok v ⟨bytes.length, rest⟩ := by
  obtain ⟨after, hok, hempty⟩ := Handle.decode_eq_ok.mp hdecoded
  obtain ⟨taken, hspans, -, hmoved⟩ := oneValue_readWith hserved behaviour _ _ _ hok
  obtain rfl : bytes = taken := by
    have hrest := hspans.rest
    rwa [hempty, List.append_nil] at hrest
  have hagain := hmoved 0 rest
  rwa [Nat.zero_add] at hagain

/-- A served codec that reads a value off some place of an input stops behind it, where skipping
the value stops as well, and reads the same off every input with the same bytes between the two
places. So what it decodes it does not decode from less or from more. -/
theorem read_stops_behind_value
    (hserved : (((fresh catalog config).after history).request type policy).1 = .ok h)
    (behaviour : Policy) :
    (∀ input start v after, h.readWith behaviour (Cursor.at input start) = .ok v after →
      ∃ stop, after = .at input stop ∧ start < stop ∧ stop ≤ input.length ∧
        (Cursor.at input start).skip = .ok (.at input stop) ∧
        ∀ other, stop ≤ other.length →
          (other.take stop).drop start = (input.take stop).drop start →
            h.readWith behaviour (.at other start) = .ok v (.at other stop)) ∧
      ∀ bytes v, (h.withPolicy behaviour).decode bytes = .ok v →
        (∀ front, front <+: bytes → front ≠ bytes →
          ∃ e, (h.withPolicy behaviour).decode front = .error e) ∧
        ∀ tail, tail ≠ [] → (h.withPolicy behaviour).decode (bytes ++ tail) =
          .error (.ofReadFault Scope.rootName type (.trailingBytes tail.length)) := by
  constructor
  · intro input start v after hok
    obtain ⟨bytes, hspans, hwhole, hmoved⟩ := oneValue_readWith hserved behaviour _ _ _ hok
    obtain ⟨hafter, hbytes⟩ := hspans.at
    have hpositive : 0 < bytes.length := List.length_pos_iff.mpr hwhole.ne_nil
    have hlength : bytes.length + after.rest.length = input.length - start := by
      rw [← List.length_append, ← hspans.rest, Cursor.at, List.length_drop]
    have hskip := hwhole.skip start after.rest
    refine ⟨start + bytes.length, hafter, by omega, by omega, ?_, ?_⟩
    · rw [hafter] at hskip
      rw [hspans.eq, hafter]
      exact hskip
    · intro other hother hsame
      have hagain := hmoved start (other.drop (start + bytes.length))
      rw [Cursor.at_eq (Nat.le_add_right start bytes.length) hother, hsame, ← hbytes]
      exact hagain
  · intro bytes v hdecoded
    constructor
    · intro front hfront hne
      cases hless : (h.withPolicy behaviour).decode front with
      | error e => exact ⟨e, rfl⟩
      | ok w =>
        -- less would be read in front of the rest, and the rest is not empty
        exfalso
        obtain ⟨rest, rfl⟩ := hfront
        have hall := readWith_of_decode hserved hdecoded []
        rw [List.append_nil, readWith_of_decode hserved hless rest] at hall
        injection hall with _ hcursor
        injection hcursor with _ hrest
        rw [hrest, List.append_nil] at hne
        exact hne rfl
    · intro tail htail
      have hread := readWith_of_decode hserved hdecoded tail
      obtain ⟨-, -, htype, -⟩ := leads_of_served hserved
      refine Handle.decode_eq_error.mpr (.inr ⟨v, _, hread, htail, ?_⟩)
      exact congrArg (fun t => CodecError.ofReadFault Scope.rootName t
        (.trailingBytes tail.length)) htype.symm

/-- A folder with one file whose folder is left out, and with tags that are not declared. -/
def folderBytes : List UInt8 :=
  [0x83, 0xa4, 0x6e, 0x61, 0x6d, 0x65, 0xa1, 0x61,
    0xa5, 0x66, 0x69, 0x6c, 0x65, 0x73, 0x91, 0x81, 0xa4, 0x73, 0x69, 0x7a, 0x65, 0x05,
    0xa4, 0x74, 0x61, 0x67, 0x73, 0x92, 0x01, 0x81, 0xa1, 0x78, 0xc3]

def taggedFolder : Value :=
  .record [("files", .list [.record [("parent", .null), ("size", .int .u32 ⟨5, by decide⟩)]]),
    ("name", .string "a")]

set_option maxRecDepth 4000 in
theorem read_folderBytes :
    Plain.read folders (Scope.root .ignore 128).room (.record ⟨"Folder"⟩) (Scope.root .ignore 128)
      (.ofBytes folderBytes) = .ok taggedFolder ⟨33, []⟩ := by
  with_unfolding_all rfl

set_option maxRecDepth 4000 in
theorem read_folderBytes_behind :
    Plain.read folders (Scope.root .ignore 128).room (.record ⟨"Folder"⟩) (Scope.root .ignore 128)
      (.at (0x07 :: folderBytes ++ [0x07]) 1) = .ok taggedFolder ⟨34, [0x07]⟩ := by
  with_unfolding_all rfl

/-- The tags are passed over, and the folder ends where skipping it ends. -/
theorem folder_stops_behind_value : ∃ h,
    (((fresh folders {}).after folderHistory).request (.record ⟨"Folder"⟩) .throw).1 = .ok h ∧
      (h.withPolicy .ignore).decode folderBytes = .ok taggedFolder ∧
      Wire.Cursor.skip (.at (0x07 :: folderBytes ++ [0x07]) 1) = .ok ⟨34, [0x07]⟩ ∧
      (∀ front, front <+: folderBytes → front ≠ folderBytes →
        ∃ e, (h.withPolicy .ignore).decode front = .error e) ∧
      (h.withPolicy .ignore).decode (folderBytes ++ [0x07]) =
        .error (.ofReadFault Scope.rootName (.record ⟨"Folder"⟩) (.trailingBytes 1)) := by
  obtain ⟨h, hserved⟩ := folder_is_served
  have hbehind := read_folderBytes_behind
  rw [← readWith_eq_plain hserved] at hbehind
  have hdecoded := decode_of_read hserved read_folderBytes
  obtain ⟨hstops, hdecodes⟩ := read_stops_behind_value hserved .ignore
  obtain ⟨stop, hafter, -, -, hskip, -⟩ := hstops _ _ _ _ hbehind
  obtain ⟨hless, hmore⟩ := hdecodes _ _ hdecoded
  exact ⟨h, hserved, hdecoded, hafter ▸ hskip, hless, hmore [0x07] (by decide)⟩

end Context

end SchemaPack
