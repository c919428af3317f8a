import SchemaPack.Proofs.Catalog.Declarations
import SchemaPack.Proofs.Plain.Agreement
import SchemaPack.Proofs.Plain.Alteration

/-!
What the plain interpreter writes it reads back, as far as the room for levels goes: with one
catalog on both sides no record is altered. What writing a value leaves behind is read back as the
value if its height is below the room, and otherwise reading stops at the first part that lies too
deep.
-/
namespace SchemaPack

namespace Plain

variable {c : Catalog}

/-- The bytes are read back as a value of the type, if there is room for all its levels. -/
def Restores (c : Catalog) (v : Value) (t : Ty) (bytes : List UInt8) : Prop :=
  ∀ room scope, (read c room t scope).Recovers (room ≤ v.height) scope.maxDepth bytes v

/-- What is written is read back, if there is room for all levels of the value. -/
theorem leaves_write (hc : c.FieldsDistinct) (v : Value) (hv : v.Canonical) {t : Ty}
    (ht : Ty.Throughout c Ty.TagsDistinct t) : (write c v t).Leaves (Restores c v t) := by
  have hpass : Passes c c (fun _ => True) (fun _ fields => fields) (fun _ fields => fields) := by
    refine ⟨hc, fun name r hfind => ⟨r, hfind, ?_, .refl r⟩⟩
    exact .refl (hc r (Catalog.mem_of_find? hfind))
  refine (leaves_alter hpass (Or.inl rfl) v hv ht).mono fun bytes hbytes => ?_
  rw [Value.alter_id] at hbytes
  exact fun room scope => hbytes room scope trivial

end Plain

/-! ## Served codecs -/

namespace Catalog

/-- Declaring refuses a record that names two fields alike. -/
theorem Declared.fieldsDistinct {c : Catalog} (h : Declared c) : c.FieldsDistinct :=
  fun r hr => (h.wellFormed.agree r hr).distinct

end Catalog

namespace Context

theorem leaves_of_encode {catalog : Catalog} {config : Config} {history : List (Ty × Policy)}
    {type : Ty} {policy : Policy} {h : Handle}
    (hserved : (((fresh catalog config).after history).request type policy).1 = .ok h)
    {v : Value} {P : List UInt8 → Prop} (hwrite : (Plain.write catalog v type).Leaves P)
    {bytes : List UInt8} (hencoded : h.encode v = .ok bytes) : P bytes := by
  obtain ⟨output, hwritten, rfl⟩ := Handle.encode_eq_ok.mp hencoded
  rw [write_eq_plain hserved] at hwritten
  obtain ⟨written, hbytes, hP⟩ := hwrite _ _ _ hwritten
  rw [hbytes]
  exact hP

/-- What a served codec encodes it decodes, under either policy, to the very same value if no part
of it lies deeper than the limit, and otherwise it fails and names the limit. -/
theorem decode_encode {catalog : Catalog} {config : Config} {history : List (Ty × Policy)}
    {type : Ty} {policy : Policy} {h : Handle}
    (hserved : (((fresh catalog config).after history).request type policy).1 = .ok h)
    (hcatalog : catalog.Declared) (htags : Ty.Throughout catalog Ty.TagsDistinct type)
    {v : Value} (hv : v.Canonical) {bytes : List UInt8} (hencoded : h.encode v = .ok bytes)
    (behaviour : Policy) :
    (v.height ≤ config.maxDepth → (h.withPolicy behaviour).decode bytes = .ok v) ∧
      (config.maxDepth < v.height → ∃ e, (h.withPolicy behaviour).decode bytes = .error (.read e) ∧
        e.fault = .depthLimitExceeded config.maxDepth) := by
  have hrestores : Plain.Restores catalog v type bytes :=
    leaves_of_encode hserved (Plain.leaves_write hcatalog.fieldsDistinct v hv htags) hencoded
  obtain ⟨hok, herror⟩ := hrestores (Scope.root behaviour config.maxDepth).room
    (Scope.root behaviour config.maxDepth) 0 []
  rw [List.append_nil, ← readWith_eq_plain hserved] at hok herror
  have hroom : (Scope.root behaviour config.maxDepth).room = config.maxDepth + 1 := rfl
  constructor
  · intro hheight
    exact Handle.decode_eq_ok.mpr ⟨_, hok (by omega), rfl⟩
  · intro hheight
    obtain ⟨e, cursor, hfailed, hfault⟩ := herror (by omega)
    exact ⟨e, Handle.decode_eq_error.mpr (.inl ⟨cursor, hfailed⟩), hfault⟩

def link : RecordDef where
  name := ⟨"Link"⟩
  fields :=
    [⟨"next", .nullable (.record ⟨"Link"⟩), none⟩,
      ⟨"value", .union [.primitive (.int .i32), .primitive .string], none⟩]

def chain : Catalog := ⟨[link]⟩

theorem chain_declared : chain.Declared := .declare .empty (r := link) rfl

theorem chain_tagsDistinct : Ty.Throughout chain Ty.TagsDistinct link.type :=
  Ty.throughout_of_closed
    [link.type, .nullable link.type, .union [.primitive (.int .i32), .primitive .string],
      .primitive (.int .i32), .primitive .string] (by decide) (by decide) List.mem_cons_self

theorem chain_is_served (maxDepth : Nat) :
    ∃ h, (((fresh chain { maxDepth }).after []).request link.type .throw).1 = .ok h :=
  exists_handle rfl

def twoLinks : Value :=
  .record [("next", .record [("next", .null),
      ("value", .union (.primitive (.int .i32)) (.int .i32 ⟨-7, by decide⟩))]),
    ("value", .union (.primitive .string) (.string "é"))]

def twoLinksBytes : List UInt8 :=
  [0x82, 0xa4, 0x6e, 0x65, 0x78, 0x74,
    0x82, 0xa4, 0x6e, 0x65, 0x78, 0x74, 0xc0,
      0xa5, 0x76, 0x61, 0x6c, 0x75, 0x65, 0x92, 0xa5, 0x49, 0x6e, 0x74, 0x33, 0x32, 0xf9,
    0xa5, 0x76, 0x61, 0x6c, 0x75, 0x65, 0x92, 0xa6, 0x53, 0x74, 0x72, 0x69, 0x6e, 0x67,
      0xa2, 0xc3, 0xa9]

theorem twoLinks_canonical : twoLinks.Canonical := by
  simp only [twoLinks, Value.Canonical, Value.FieldsCanonical, Fields.Sorted, Fields.names]
  decide

theorem encode_twoLinks {maxDepth : Nat} {h : Handle}
    (hserved : (((fresh chain { maxDepth }).after []).request link.type .throw).1 = .ok h) :
    h.encode twoLinks = .ok twoLinksBytes :=
  encode_of_write hserved rfl

/-- The number lies three levels down: a limit of three admits it, and a limit of two does not. -/
theorem twoLinks_round_trip : ∃ wide narrow,
    (((fresh chain { maxDepth := 3 }).after []).request link.type .throw).1 = .ok wide ∧
      (((fresh chain { maxDepth := 2 }).after []).request link.type .throw).1 = .ok narrow ∧
      (∀ behaviour, (wide.withPolicy behaviour).decode twoLinksBytes = .ok twoLinks) ∧
      ∀ behaviour, ∃ e, (narrow.withPolicy behaviour).decode twoLinksBytes = .error (.read e) ∧
        e.fault = .depthLimitExceeded 2 := by
  obtain ⟨wide, hwide⟩ := chain_is_served 3
  obtain ⟨narrow, hnarrow⟩ := chain_is_served 2
  refine ⟨wide, narrow, hwide, hnarrow, fun behaviour => ?_, fun behaviour => ?_⟩
  · have hround := decode_encode hwide chain_declared chain_tagsDistinct twoLinks_canonical
      (encode_twoLinks hwide) behaviour
    exact hround.1 (by decide)
  · have hround := decode_encode hnarrow chain_declared chain_tagsDistinct twoLinks_canonical
      (encode_twoLinks hnarrow) behaviour
    exact hround.2 (by decide)

end Context

end SchemaPack
