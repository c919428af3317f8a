import SchemaPack.Proofs.Admission
import SchemaPack.Proofs.Plain.RoundTrip
import SchemaPack.Proofs.Portable

/-!
What can be written. Whether a step of writing succeeds does not depend on the output so far, and
all steps for a value succeed exactly if the type admits the value and the value is portable. The
induction is on the value, with the type running along.
-/
namespace SchemaPack

/-! ## Steps that succeed -/

namespace Write

/-- A step succeeds on an output exactly if a condition holds, which does not look at the output. -/
def SucceedsIff (step : Write Unit) (P : Prop) : Prop :=
  ∀ output, (∃ after, step output = .ok () after) ↔ P

variable {P Q : Prop}

theorem SucceedsIff.congr {step : Write Unit} (h : step.SucceedsIff P) (hPQ : P ↔ Q) :
    step.SucceedsIff Q := fun output => (h output).trans hPQ

theorem succeeds_pure : SucceedsIff (pure ()) True :=
  fun output => ⟨fun _ => trivial, fun _ => ⟨output, rfl⟩⟩

theorem succeeds_append (bytes : List UInt8) : (append bytes).SucceedsIff True :=
  fun _ => ⟨fun _ => trivial, fun _ => ⟨_, rfl⟩⟩

theorem fails_throw (e : CodecError) (hP : ¬ P) : SucceedsIff (throw e) P := by
  intro output
  refine ⟨?_, fun h => absurd h hP⟩
  rintro ⟨after, hok⟩
  cases hok

theorem fails (fault : WriteFault) (hP : ¬ P) : (fail fault).SucceedsIff P :=
  fails_throw _ hP

theorem succeeds_sized (length : Nat) (bytes : List UInt8) :
    (encoded (Wire.Encoding.sized length bytes)).SucceedsIff (length < Wire.lengthBound) := by
  unfold Wire.Encoding.sized
  split
  · rename_i hlt
    exact (succeeds_append bytes).congr (iff_of_true trivial hlt)
  · rename_i hle
    exact fails _ hle

theorem succeeds_arrayHeader (n : Nat) : (arrayHeader n).SucceedsIff (n < Wire.lengthBound) :=
  succeeds_sized n _

theorem succeeds_mapHeader (n : Nat) : (mapHeader n).SucceedsIff (n < Wire.lengthBound) :=
  succeeds_sized n _

theorem succeeds_string (s : String) :
    (string s).SucceedsIff (s.utf8ByteSize < Wire.lengthBound) := succeeds_sized _ _

theorem succeeds_binary (data : List UInt8) :
    (binary data).SucceedsIff (data.length < Wire.lengthBound) := succeeds_sized _ _

/-- Two steps in a row succeed if both do, whatever the first one leaves for the second. -/
theorem SucceedsIff.bind {first second : Write Unit} (hfirst : first.SucceedsIff P)
    (hsecond : second.SucceedsIff Q) : SucceedsIff (first >>= fun _ => second) (P ∧ Q) := by
  intro output
  constructor
  · rintro ⟨after, hok⟩
    obtain ⟨_, middle, hmiddle, hafter⟩ := Outcome.bind_eq_ok.mp hok
    exact ⟨(hfirst output).mp ⟨middle, hmiddle⟩, (hsecond middle).mp ⟨after, hafter⟩⟩
  · rintro ⟨hP, hQ⟩
    obtain ⟨middle, hmiddle⟩ := (hfirst output).mpr hP
    obtain ⟨after, hafter⟩ := (hsecond middle).mpr hQ
    exact ⟨after, (Outcome.bind_of_ok hmiddle).trans hafter⟩

theorem SucceedsIff.within {step : Write Unit} (h : step.SucceedsIff P) (s : Segment) :
    (Write.within s step).SucceedsIff P := by
  intro output
  rw [← h output]
  exact exists_congr fun after => Outcome.adaptExcept_eq_ok

/-- A loop succeeds if every pass does. -/
theorem succeeds_forM {ι : Type} {xs : List ι} {step : ι → Write Unit} {R : ι → Prop}
    (h : ∀ x ∈ xs, (step x).SucceedsIff (R x)) : (forM xs step).SucceedsIff (∀ x ∈ xs, R x) := by
  induction xs with
  | nil => exact succeeds_pure.congr (iff_of_true trivial (List.forall_mem_nil R))
  | cons x xs ih =>
    have hrest := ih fun y hy => h y (List.mem_cons_of_mem _ hy)
    rw [List.forM_cons]
    exact ((h x List.mem_cons_self).bind hrest).congr List.forall_mem_cons.symm

end Write

namespace Plain

open Write (SucceedsIff)

variable {c : Catalog} {t : Ty}

def Writable (c : Catalog) (v : Value) (t : Ty) : Prop := v.Portable ∧ t.admitsIn c v = true

/-! ## Values with no values inside -/

theorem succeeds_primitive {p : Primitive} {v : Value} {step : Write Unit} (h : p.Put v step) :
    p.admits v = true ∧ step.SucceedsIff v.Portable := by
  have happend : ∀ {bytes : List UInt8}, v.Portable → (Write.append bytes).SucceedsIff v.Portable :=
    fun hportable => (Write.succeeds_append _).congr (iff_of_true trivial hportable)
  cases h with
  | bool b => exact ⟨rfl, happend (Value.portable_bool b)⟩
  | int n => exact ⟨beq_self_eq_true _, happend (Value.portable_int _ n)⟩
  | f32 bits => exact ⟨rfl, happend (Value.portable_f32 bits)⟩
  | f64 bits => exact ⟨rfl, happend (Value.portable_f64 bits)⟩
  | string s => exact ⟨rfl, (Write.succeeds_string s).congr Value.portable_string.symm⟩

theorem succeeds_writeAtom (t : Ty) (v : Value) :
    (writeAtom t v).SucceedsIff (v.Portable ∧ t.admitsAtom v = true) := by
  have h := writesAtom t v
  generalize writeAtom t v = step at h ⊢
  cases h with
  | primitive hput =>
    obtain ⟨hadmits, hsucceeds⟩ := succeeds_primitive hput
    exact hsucceeds.congr (and_iff_left hadmits).symm
  | bytes data =>
    exact (Write.succeeds_binary data).congr
      (Value.portable_bytes.symm.trans (and_iff_left rfl).symm)
  | decimal d =>
    refine (Write.succeeds_string d.text).congr (iff_of_true d.utf8ByteSize_text_lt ?_)
    exact ⟨Value.portable_decimal d, rfl⟩
  | @version number hrange =>
    refine (Write.succeeds_string number.text).congr (iff_of_true number.utf8ByteSize_text_lt ?_)
    exact ⟨Value.portable_version.mpr (Version.checkRange_eq_ok.mp hrange), rfl⟩
  | outOfRange hrange =>
    refine Write.fails _ fun h => ?_
    rw [Version.checkRange_eq_ok.mpr (Value.portable_version.mp h.1)] at hrange
    cases hrange
  | refused hrefused => exact Write.fails _ fun h => hrefused h.2

/-! ## Containers -/

theorem writable_null : Writable c .null t ↔ t.isNullable = true :=
  and_iff_right Value.portable_null

theorem writable_tuple {values : List Value} : Writable c (.tuple values) t ↔
    ∃ types, t.unwrapped = .tuple types ∧ values.length < Wire.lengthBound ∧
      List.Forall₂ (Writable c) values types := by
  rw [Writable, Value.portable_tuple, Ty.admitsIn_tuple]
  constructor
  · rintro ⟨⟨hlength, hportable⟩, types, htype, hadmits⟩
    exact ⟨types, htype, hlength, (List.forall₂_and_left _ _).mpr ⟨hportable, hadmits⟩⟩
  · rintro ⟨types, htype, hlength, hvalues⟩
    obtain ⟨hportable, hadmits⟩ := (List.forall₂_and_left _ _).mp hvalues
    exact ⟨⟨hlength, hportable⟩, types, htype, hadmits⟩

theorem writable_union {alternative : Ty} {held : Value} :
    Writable c (.union alternative held) t ↔ ∃ isNullable alternatives,
      Provider.unionShape? t.unwrapped = some (isNullable, alternatives) ∧
        alternative ∈ alternatives ∧ alternative.tag.utf8ByteSize < Wire.lengthBound ∧
          Writable c held alternative := by
  rw [Writable, Value.portable_union, Ty.admitsIn_union]
  constructor
  · rintro ⟨⟨htag, hportable⟩, isNullable, alternatives, hshape, hmem, hadmits⟩
    exact ⟨isNullable, alternatives, hshape, hmem, htag, hportable, hadmits⟩
  · rintro ⟨isNullable, alternatives, hshape, hmem, htag, hportable, hadmits⟩
    exact ⟨⟨htag, hportable⟩, isNullable, alternatives, hshape, hmem, hadmits⟩

theorem writable_list {values : List Value} : Writable c (.list values) t ↔
    ∃ element, t.unwrapped = .list element ∧ values.length < Wire.lengthBound ∧
      ∀ v ∈ values, Writable c v element := by
  rw [Writable, Value.portable_list, Ty.admitsIn_list]
  constructor
  · rintro ⟨⟨hlength, hportable⟩, element, htype, hadmits⟩
    exact ⟨element, htype, hlength, fun v hv => ⟨hportable v hv, hadmits v hv⟩⟩
  · rintro ⟨element, htype, hlength, hvalues⟩
    exact ⟨⟨hlength, fun v hv => (hvalues v hv).1⟩, element, htype, fun v hv => (hvalues v hv).2⟩

theorem writable_map {entries : List (Value × Value)} : Writable c (.map entries) t ↔
    ∃ key value, t.unwrapped = .map key value ∧ entries.length < Wire.lengthBound ∧
      ∀ e ∈ entries, Writable c e.1 key ∧ Writable c e.2 value := by
  rw [Writable, Value.portable_map, Ty.admitsIn_map]
  constructor
  · rintro ⟨⟨hlength, hportable⟩, key, value, htype, hadmits⟩
    refine ⟨key, value, htype, hlength, fun e he => ?_⟩
    obtain ⟨hk, hv⟩ := hportable e he
    exact ⟨⟨hk, (hadmits e he).1⟩, hv, (hadmits e he).2⟩
  · rintro ⟨key, value, htype, hlength, hentries⟩
    refine ⟨⟨hlength, fun e he => ?_⟩, key, value, htype, fun e he => ?_⟩
    · exact ⟨(hentries e he).1.1, (hentries e he).2.1⟩
    · exact ⟨(hentries e he).1.2, (hentries e he).2.2⟩

/-- A filled record has as many fields as it declares. -/
theorem length_of_filledBy {r : RecordDef} (hnodup : (r.fields.map (·.name)).Nodup)
    {fields : List (String × Value)} (hsorted : Fields.Sorted fields) (h : r.FilledBy c fields) :
    fields.length = r.fields.length :=
  hsorted.length_eq hnodup h.1 fun f hf => (h.2 f hf).imp fun _ hv => hv.1

theorem writable_record (hc : c.FieldsDistinct) {fields : List (String × Value)}
    (hsorted : Fields.Sorted fields) : Writable c (.record fields) t ↔
      ∃ name r, t.unwrapped = .record name ∧ c.find? name = some r ∧
        (∀ f ∈ fields, r.declares f.1 = true) ∧ r.fields.length < Wire.lengthBound ∧
          ∀ f ∈ r.fields, f.name.utf8ByteSize < Wire.lengthBound ∧
            ∃ v, Fields.get? f.name fields = some v ∧ Writable c v f.type := by
  rw [Writable, Value.portable_record, Ty.admitsIn_record]
  constructor
  · rintro ⟨⟨hlength, hportable⟩, name, r, htype, hfind, hfilled⟩
    have hnodup := hc r (Catalog.mem_of_find? hfind)
    rw [length_of_filledBy hnodup hsorted hfilled] at hlength
    refine ⟨name, r, htype, hfind, hfilled.1, hlength, fun f hf => ?_⟩
    obtain ⟨v, hget, hadmits⟩ := hfilled.2 f hf
    obtain ⟨hname, hv⟩ := hportable _ (Fields.mem_of_get? hget)
    exact ⟨hname, v, hget, hv, hadmits⟩
  · rintro ⟨name, r, htype, hfind, hdeclared, hlength, hfields⟩
    have hnodup := hc r (Catalog.mem_of_find? hfind)
    have hfilled : r.FilledBy c fields := by
      refine ⟨hdeclared, fun f hf => ?_⟩
      obtain ⟨-, v, hget, -, hadmits⟩ := hfields f hf
      exact ⟨v, hget, hadmits⟩
    refine ⟨⟨length_of_filledBy hnodup hsorted hfilled ▸ hlength, fun p hp => ?_⟩,
      name, r, htype, hfind, hfilled⟩
    -- a field of the value is the one that was looked up under its name
    obtain ⟨f, hf, hname⟩ := List.any_eq_true.mp (hdeclared p hp)
    obtain ⟨hsize, v, hget, hv, -⟩ := hfields f hf
    rw [beq_iff_eq.mp hname] at hsize hget
    rw [hsorted.get?_of_mem hp] at hget
    cases hget
    exact ⟨hsize, hv⟩

theorem forall_mem_zipIdx {α : Type} {xs : List α} (P : α → Prop) :
    (∀ p ∈ xs.zipIdx, P p.1) ↔ ∀ x ∈ xs, P x := by
  have hfst := List.zipIdx_map_fst 0 xs
  rw [← List.forall_mem_map (f := Prod.fst), hfst]

theorem succeeds_writeItems {values : List Value} {types : List Ty}
    (hlength : values.length = types.length)
    (hvalues : ∀ v ∈ values, ∀ t, (write c v t).SucceedsIff (Writable c v t)) :
    (writeItems c values 0 types).SucceedsIff (List.Forall₂ (Writable c) values types) := by
  have hstep : ∀ p ∈ (values.zip types).zipIdx,
      (Write.within (.item p.2) (write c p.1.1 p.1.2)).SucceedsIff (Writable c p.1.1 p.1.2) :=
    fun p hp => (hvalues _ (List.of_mem_zip (List.fst_mem_of_mem_zipIdx hp)).1 _).within _
  rw [writeItems_eq_forM]
  refine (Write.succeeds_forM hstep).congr ?_
  rw [forall_mem_zipIdx fun p : Value × Ty => Writable c p.1 p.2, List.forall₂_iff_zip, Prod.forall,
    and_iff_right hlength]

theorem succeeds_writeAll {values : List Value} {t : Ty}
    (hvalues : ∀ v ∈ values, (write c v t).SucceedsIff (Writable c v t)) :
    (writeAll c values t 0).SucceedsIff (∀ v ∈ values, Writable c v t) := by
  have hstep : ∀ p ∈ values.zipIdx,
      (Write.within (.index p.2) (write c p.1 t)).SucceedsIff (Writable c p.1 t) :=
    fun p hp => (hvalues _ (List.fst_mem_of_mem_zipIdx hp)).within _
  rw [writeAll_eq_forM]
  exact (Write.succeeds_forM hstep).congr (forall_mem_zipIdx (Writable c · t))

theorem succeeds_writeEntries {entries : List (Value × Value)} {key value : Ty}
    (hentries : ∀ e ∈ entries, (write c e.1 key).SucceedsIff (Writable c e.1 key) ∧
      (write c e.2 value).SucceedsIff (Writable c e.2 value)) :
    (writeEntries c entries key value 0).SucceedsIff
      (∀ e ∈ entries, Writable c e.1 key ∧ Writable c e.2 value) := by
  have hstep : ∀ p ∈ entries.zipIdx, (writeEntry c key value p).SucceedsIff
      (Writable c p.1.1 key ∧ Writable c p.1.2 value) := by
    intro p hp
    obtain ⟨hkey, hvalue⟩ := hentries p.1 (List.fst_mem_of_mem_zipIdx hp)
    exact (hkey.within _).bind (hvalue.within _)
  rw [writeEntries_eq_forM]
  refine (Write.succeeds_forM hstep).congr ?_
  exact forall_mem_zipIdx fun e : Value × Value => Writable c e.1 key ∧ Writable c e.2 value

theorem succeeds_writeField {record : TypeName} {values : List (String × Value)}
    (hvalues : ∀ f ∈ values, ∀ t, (write c f.2 t).SucceedsIff (Writable c f.2 t)) (f : Field) :
    (writeField c record values f).SucceedsIff (f.name.utf8ByteSize < Wire.lengthBound ∧
      ∃ v, Fields.get? f.name values = some v ∧ Writable c v f.type) := by
  unfold writeField
  split
  · rename_i hnone
    refine Write.fails _ fun h => ?_
    obtain ⟨-, v, hv, -⟩ := h
    rw [hnone] at hv
    cases hv
  · rename_i v hget
    have hv := hvalues _ (Fields.mem_of_get? hget) f.type
    refine ((Write.succeeds_string f.name).bind (hv.within _)).congr ?_
    simp [hget]

theorem succeeds_writeRecord (hc : c.FieldsDistinct) {name : TypeName}
    {values : List (String × Value)} (hsorted : Fields.Sorted values)
    (htype : t.unwrapped = .record name)
    (hvalues : ∀ f ∈ values, ∀ t, (write c f.2 t).SucceedsIff (Writable c f.2 t)) :
    (writeRecord c name (fieldWriters c values)).SucceedsIff (Writable c (.record values) t) := by
  unfold writeRecord
  split
  · rename_i hnone
    refine Write.fails_throw _ fun h => ?_
    obtain ⟨_, r, hname, hfind, -⟩ := (writable_record hc hsorted).mp h
    rw [htype] at hname
    cases hname
    rw [hnone] at hfind
    cases hfind
  · rename_i r hfind
    split
    · rename_i undeclared writer hfound
      refine Write.fails _ fun h => ?_
      obtain ⟨_, d, hname, hd, hdeclared, -⟩ := (writable_record hc hsorted).mp h
      rw [htype] at hname
      cases hname
      rw [hfind] at hd
      cases hd
      rw [fieldWriters_eq_map] at hfound
      obtain ⟨f, hf, heq⟩ := List.mem_map.mp (List.mem_of_find?_eq_some hfound)
      have hundeclared := List.find?_some hfound
      rw [← heq] at hundeclared
      simp only [hdeclared f hf] at hundeclared
      cases hundeclared
    · rename_i hnone
      have hdeclared : ∀ f ∈ values, r.declares f.1 = true := by
        rw [fieldWriters_eq_map] at hnone
        simpa using hnone
      have hall : (forM r.fields (writeField c name values)).SucceedsIff _ :=
        Write.succeeds_forM fun f _ => succeeds_writeField hvalues f
      rw [writeFields_eq_forM]
      refine ((Write.succeeds_mapHeader _).bind hall).congr ?_
      rw [writable_record hc hsorted]
      constructor
      · rintro ⟨hlength, hfields⟩
        exact ⟨name, r, htype, hfind, hdeclared, hlength, hfields⟩
      · rintro ⟨_, d, hname, hd, -, hlength, hfields⟩
        rw [htype] at hname
        cases hname
        rw [hfind] at hd
        cases hd
        exact ⟨hlength, hfields⟩

/-! ## Every value -/

/-- Writing a value as a type succeeds exactly if the type admits it and it can travel. -/
theorem succeeds_write (hc : c.FieldsDistinct) (v : Value) (hv : v.Canonical) (t : Ty) :
    (write c v t).SucceedsIff (Writable c v t) := by
  induction v generalizing t with
  | null =>
    rw [write]
    split
    · rename_i hnullable
      exact (Write.succeeds_append _).congr (iff_of_true trivial (writable_null.mpr hnullable))
    · rename_i hnullable
      exact Write.fails _ fun h => hnullable (writable_null.mp h)
  | tuple values ih =>
    rw [write]
    split
    · rename_i types htype
      have hvalues : ∀ v ∈ values, ∀ t, (write c v t).SucceedsIff (Writable c v t) :=
        fun v hmem => ih v hmem (Value.AllCanonical.of_mem hv hmem)
      split
      · rename_i hlength
        have hitems := succeeds_writeItems hlength hvalues
        refine ((Write.succeeds_arrayHeader _).bind hitems).congr ?_
        rw [writable_tuple, htype, hlength]
        simp
      · rename_i hlength
        refine Write.fails _ fun h => ?_
        obtain ⟨_, hname, -, hitems⟩ := writable_tuple.mp h
        rw [htype] at hname
        cases hname
        exact hlength hitems.length_eq
    · rename_i hshape
      refine Write.fails _ fun h => ?_
      obtain ⟨types, htype, -⟩ := writable_tuple.mp h
      exact hshape types htype
  | union alternative held ih =>
    rw [write]
    split
    · rename_i isNullable alternatives hshape
      split
      · rename_i hmem
        have hheld := (ih hv alternative).within (.alternative alternative.tag)
        have htag := Write.succeeds_string alternative.tag
        refine ((Write.succeeds_arrayHeader 2).bind (htag.bind hheld)).congr ?_
        rw [writable_union, hshape]
        have htwo : 2 < Wire.lengthBound := by decide
        simp [htwo, hmem]
      · rename_i hmem
        refine Write.fails_throw _ fun h => ?_
        obtain ⟨_, _, hfound, hdeclared, -⟩ := writable_union.mp h
        rw [hshape] at hfound
        cases hfound
        exact hmem hdeclared
    · rename_i hshape
      refine Write.fails _ fun h => ?_
      obtain ⟨_, _, hfound, -⟩ := writable_union.mp h
      rw [hshape] at hfound
      cases hfound
  | list values ih =>
    rw [write]
    split
    · rename_i element htype
      have hitems := succeeds_writeAll fun v hmem =>
        ih v hmem (Value.AllCanonical.of_mem hv hmem) element
      refine ((Write.succeeds_arrayHeader _).bind hitems).congr ?_
      rw [writable_list, htype]
      simp
    · rename_i hshape
      refine Write.fails _ fun h => ?_
      obtain ⟨element, htype, -⟩ := writable_list.mp h
      exact hshape element htype
  | map entries ih =>
    rw [write]
    split
    · rename_i key value htype
      have hentries := succeeds_writeEntries fun e hmem =>
        ⟨(ih e hmem).1 (Value.EntriesCanonical.of_mem hv hmem).1 key,
          (ih e hmem).2 (Value.EntriesCanonical.of_mem hv hmem).2 value⟩
      refine ((Write.succeeds_mapHeader _).bind hentries).congr ?_
      rw [writable_map, htype]
      simp
    · rename_i hshape
      refine Write.fails _ fun h => ?_
      obtain ⟨key, value, htype, -⟩ := writable_map.mp h
      exact hshape key value htype
  | record fields ih =>
    rw [write]
    split
    · rename_i name htype
      exact succeeds_writeRecord hc hv.1 htype
        fun f hmem => ih f hmem (Value.FieldsCanonical.of_mem hv.2 hmem)
    · rename_i hshape
      refine Write.fails _ fun h => ?_
      obtain ⟨name, _, htype, -⟩ := (writable_record hc hv.1).mp h
      exact hshape name htype
  | _ =>
    rw [write]
    exact (succeeds_writeAtom _ _).congr (and_congr_right fun _ => Ty.admitsAtom_required.symm)

end Plain

/-! ## Served codecs -/

namespace Context

theorem encode_succeeds {h : Handle} {v : Value} {P : Prop} (hwrite : (h.write v).SucceedsIff P) :
    (∃ bytes, h.encode v = .ok bytes) ↔ P := by
  rw [← hwrite Wire.Output.empty]
  constructor
  · rintro ⟨bytes, hok⟩
    obtain ⟨after, hafter, -⟩ := Handle.encode_eq_ok.mp hok
    exact ⟨after, hafter⟩
  · rintro ⟨after, hafter⟩
    exact ⟨after.bytes, Handle.encode_eq_ok.mpr ⟨after, hafter, rfl⟩⟩

/-- A served codec encodes a value exactly if the type admits it in the catalog, all versions in it
are in the range of every peer, and every length that is written for a part of it fits 32 bits. -/
theorem encodes_iff {catalog : Catalog} {config : Config} {history : List (Ty × Policy)}
    {type : Ty} {policy : Policy} {h : Handle}
    (hserved : (((fresh catalog config).after history).request type policy).1 = .ok h)
    (hcatalog : catalog.Declared) {v : Value} (hv : v.Canonical) :
    (∃ bytes, h.encode v = .ok bytes) ↔
      type.admitsIn catalog v = true ∧
        (∀ n number, Value.Below n v (.version number) → number.InRange) ∧
          ∀ n w, Value.Below n v w → ∀ length ∈ w.lengths, length < Wire.lengthBound := by
  have hwrite := Plain.succeeds_write hcatalog.fieldsDistinct v hv type
  rw [← write_eq_plain hserved] at hwrite
  rw [encode_succeeds hwrite, Plain.Writable, Value.portable_iff, and_comm]

def release : RecordDef where
  name := ⟨"Release"⟩
  fields :=
    [⟨"version", .version, none⟩,
      ⟨"changes", .map (.primitive .string) (.union [.bytes, .tuple [.decimal, .version]]), none⟩,
      ⟨"previous", .nullable (.record ⟨"Release"⟩), none⟩]

def releases : Catalog := ⟨[release]⟩

theorem releases_declared : releases.Declared := .declare .empty (r := release) rfl

theorem release_is_served :
    ∃ h, (((fresh releases {}).after []).request release.type .throw).1 = .ok h :=
  exists_handle (by decide)

/-- A first release with one change, which concerns a version of something else. -/
def firstRelease (concerned : Version) : Value :=
  .record [("changes", .map [(.string "é", .union (.tuple [.decimal, .version])
      (.tuple [.decimal { mantissa := -15, scale := 1 }, .version concerned]))]),
    ("previous", .null), ("version", .version { components := [1, 0, 0, 2147483647] })]

theorem firstRelease_canonical (concerned : Version) : (firstRelease concerned).Canonical := by
  simp only [firstRelease, Value.Canonical, Value.AllCanonical, Value.EntriesCanonical,
    Value.FieldsCanonical, Fields.Sorted, Fields.names, List.map_cons, List.map_nil]
  decide

theorem firstRelease_portable {concerned : Version} :
    (firstRelease concerned).Portable ↔ concerned.InRange := by
  have htag : (Ty.tuple [.decimal, .version]).tag.utf8ByteSize < Wire.lengthBound := by decide
  have hnames : ∀ name ∈ ["é", "changes", "previous", "version"],
      name.utf8ByteSize < Wire.lengthBound := by decide
  have hcounts : 1 < Wire.lengthBound ∧ 2 < Wire.lengthBound ∧ 3 < Wire.lengthBound := by decide
  have hversion : Version.InRange { components := [1, 0, 0, 2147483647] } := by decide
  simp only [firstRelease, Value.portable_record, Value.portable_map, Value.portable_union,
    Value.portable_tuple, Value.portable_string, Value.portable_version, Value.portable_null,
    Value.portable_decimal, List.forall_mem_cons] at hnames ⊢
  simp [htag, hnames, hversion, hcounts]

/-- Of two values of one shape, only the one whose versions are all in range is encoded. -/
theorem firstRelease_encodes : ∃ h,
    (((fresh releases {}).after []).request release.type .throw).1 = .ok h ∧
      (∃ bytes, h.encode (firstRelease { components := [2, 2147483647] }) = .ok bytes) ∧
      ¬ ∃ bytes, h.encode (firstRelease { components := [2, 2147483648] }) = .ok bytes := by
  obtain ⟨h, hserved⟩ := release_is_served
  refine ⟨h, hserved, ?_, ?_⟩
  · apply (encodes_iff hserved releases_declared (firstRelease_canonical _)).mpr
    exact ⟨by decide, Value.portable_iff.mp (firstRelease_portable.mpr (by decide))⟩
  · intro hencodes
    have hok := (encodes_iff hserved releases_declared (firstRelease_canonical _)).mp hencodes
    have hrange := firstRelease_portable.mp (Value.portable_iff.mpr hok.2)
    exact absurd hrange (by decide)

end Context

end SchemaPack
