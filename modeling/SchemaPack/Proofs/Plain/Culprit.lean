import SchemaPack.Proofs.Plain.Acceptance
import SchemaPack.Proofs.Plain.Appending
import SchemaPack.Proofs.Plain.Components

/-!
What a failed write points at. A container is written as its components in order, so the first
component that fails is the one whose segment is put in front of the path, and those before it have
been written. The path therefore leads through the value and its type side by side to a value that
has the fault, and everything that goes on the wire before that value can be written.
-/
namespace SchemaPack

/-! ## When a fault is there -/

/-- The lengths that are written for a value itself, as a value of the type. -/
inductive Value.Announces (c : Catalog) (t : Ty) : Value → Nat → Prop
  | string (s : String) (ht : t.required = .primitive .string) :
      Announces c t (.string s) s.utf8ByteSize
  | bytes (data : List UInt8) (ht : t.required = .bytes) : Announces c t (.bytes data) data.length
  | tuple {types : List Ty} (values : List Value) (ht : t.required = .tuple types) :
      Announces c t (.tuple values) values.length
  | union {alternatives : List Ty} {a : Ty} (held : Value) (ht : t.required = .union alternatives)
      (ha : a ∈ alternatives) : Announces c t (.union a held) a.tag.utf8ByteSize
  | list {element : Ty} (values : List Value) (ht : t.required = .list element) :
      Announces c t (.list values) values.length
  | map {key value : Ty} (entries : List (Value × Value)) (ht : t.required = .map key value) :
      Announces c t (.map entries) entries.length
  | record {name : TypeName} {r : RecordDef} (fields : List (String × Value))
      (ht : t.required = .record name) (hfind : c.find? name = some r) :
      Announces c t (.record fields) r.fields.length
  | fieldName {name : TypeName} {r : RecordDef} {f : Field} (fields : List (String × Value))
      (ht : t.required = .record name) (hfind : c.find? name = some r) (hf : f ∈ r.fields) :
      Announces c t (.record fields) f.name.utf8ByteSize

/-- The fault is one of the value, taken as a value of the type. -/
inductive WriteFault.TrueOf (c : Catalog) (t : Ty) : Value → WriteFault → Prop
  | valueMismatch {expected : Ty} {v : Value} (ht : t.Sheds expected)
      (hshallow : t.admits v = false) (hdeep : t.admitsIn c v = false) :
      TrueOf c t v (.valueMismatch expected v.kind)
  | tupleArity {types : List Ty} {values : List Value} (ht : t.required = .tuple types)
      (hlength : values.length ≠ types.length) :
      TrueOf c t (.tuple values) (.tupleArity (.tuple types) values.length)
  | missingField {name : TypeName} {r : RecordDef} {f : Field} {fields : List (String × Value)}
      (ht : t.required = .record name) (hfind : c.find? name = some r) (hf : f ∈ r.fields)
      (hmissing : f.name ∉ Fields.names fields) :
      TrueOf c t (.record fields) (.missingField name f.name)
  | unexpectedField {name : TypeName} {r : RecordDef} {field : String}
      {fields : List (String × Value)} (ht : t.required = .record name)
      (hfind : c.find? name = some r) (hfield : field ∈ Fields.names fields)
      (hundeclared : r.declares field = false) :
      TrueOf c t (.record fields) (.unexpectedField name field)
  | invalidValue {number : Version} {component : UInt32} (ht : t.required = .version)
      (hcomponent : component ∈ number.components) (hlarge : Version.maxComponent < component) :
      TrueOf c t (.version number)
        (.invalidValue .version (.componentOutOfRange number.text component))
  | lengthOverflow {v : Value} {length : Nat} (h : v.Announces c t length)
      (hlarge : Wire.lengthBound ≤ length) : TrueOf c t v (.lengthOverflow ⟨length⟩)

/-- A component that can be written, whatever has been written before. -/
def Component.Written (c : Catalog) (x : Component) : Prop :=
  ∃ bytes, (Plain.write c x.value x.type).Appends bytes (.ok ())

/-- The path of the failure leads to the value that has the fault, past components that can be
written. -/
def WriteError.Blames (c : Catalog) (v : Value) (t : Ty) (w : WriteError) : Prop :=
  ∃ u s before, LeadsTo c v t w.path.segments u s before ∧ w.fault.TrueOf c s u ∧
    ∀ x ∈ before, x.Written c

/-! ## Steps that fail -/

/-- What holds of a failed write. Failures of the codec itself are not meant. -/
def CodecError.Tells (P : WriteError → Prop) (e : CodecError) : Prop := ∀ w, e = .write w → P w

theorem CodecError.Tells.mono {P Q : WriteError → Prop} {e : CodecError} (h : e.Tells P)
    (hPQ : ∀ w, P w → Q w) : e.Tells Q := fun w hw => hPQ w (h w hw)

namespace Write

open CodecError (Tells)

variable {P : WriteError → Prop} {α : Type}

theorem tells_throw (e : InternalError) : FailsOnly (Tells P) (throw (.internal e) : Write α) :=
  .throw fun _ hw => nomatch hw

theorem tells_fail {fault : WriteFault} (h : P { fault }) :
    FailsOnly (Tells P) (fail fault : Write α) := by
  refine .throw fun w hw => ?_
  cases hw
  exact h

theorem tells_sized {length : Nat} {bytes : List UInt8}
    (h : Wire.lengthBound ≤ length → P { fault := .lengthOverflow ⟨length⟩ }) :
    FailsOnly (Tells P) (encoded (Wire.Encoding.sized length bytes)) := by
  unfold Wire.Encoding.sized
  split
  · exact failsOnly_append bytes
  · rename_i hlarge
    exact tells_fail (h (Nat.le_of_not_lt hlarge))

end Write

/-! ## Components in a row -/

/-- The failure is one of the components, and those before it can be written. -/
inductive WriteError.StopsIn (c : Catalog) : List Component → WriteError → Prop
  | here {x : Component} {rest : List Component} {w : WriteError} (h : w.Blames c x.value x.type) :
      StopsIn c (x :: rest) { w with path := w.path.within x.segment }
  | behind {x : Component} {rest : List Component} {w : WriteError} (hx : x.Written c)
      (h : StopsIn c rest w) : StopsIn c (x :: rest) w

variable {c : Catalog} {v : Value} {t : Ty} {w : WriteError}

theorem WriteError.StopsIn.exists_split {xs : List Component} (h : w.StopsIn c xs) :
    ∃ (front : List Component) (x : Component) (back : List Component) (inner : WriteError),
      xs = front ++ x :: back ∧ (∀ y ∈ front, y.Written c) ∧ inner.Blames c x.value x.type ∧
        w = { inner with path := inner.path.within x.segment } := by
  induction h with
  | here h => exact ⟨[], _, _, _, rfl, List.forall_mem_nil _, h, rfl⟩
  | @behind x rest w hx _ ih =>
    obtain ⟨front, y, back, inner, rfl, hfront, hinner, rfl⟩ := ih
    exact ⟨x :: front, y, back, inner, rfl, List.forall_mem_cons.mpr ⟨hx, hfront⟩, hinner, rfl⟩

/-- A failure of a component is one of the value. -/
theorem WriteError.StopsIn.blames (h : w.StopsIn c (v.components c t)) : w.Blames c v t := by
  obtain ⟨front, x, back, inner, hsplit, hfront, ⟨u, s, before, hleads, htrue, hbefore⟩, rfl⟩ :=
    h.exists_split
  refine ⟨u, s, front ++ before, .inside hsplit hleads, htrue, fun y hy => ?_⟩
  rcases List.mem_append.mp hy with hy | hy
  · exact hfront y hy
  · exact hbefore y hy

/-- A fault of the value itself. -/
theorem WriteFault.TrueOf.blames {fault : WriteFault} (h : fault.TrueOf c t v) :
    WriteError.Blames c v t { fault } :=
  ⟨v, t, [], .here v t, h, List.forall_mem_nil _⟩

namespace Plain

open CodecError (Tells)

def writeComponent (c : Catalog) (x : Component) : Write Unit :=
  Write.within x.segment (write c x.value x.type)

abbrev Blamed (c : Catalog) (v : Value) (t : Ty) : Prop :=
  FailsOnly (Tells (WriteError.Blames c v t)) (write c v t)

theorem written_of_ok {x : Component} {output after : Wire.Output}
    (h : writeComponent c x output = .ok () after) : x.Written c := by
  obtain ⟨bytes, -, ⟨⟩, happends⟩ := (onlyAppends_write x.value x.type).leaves _ _ _
    (Outcome.adaptExcept_eq_ok.mp h)
  exact ⟨bytes, happends⟩

theorem stopsIn_component {x : Component} (h : Blamed c x.value x.type) (rest : List Component) :
    FailsOnly (Tells (WriteError.StopsIn c (x :: rest))) (writeComponent c x) := by
  refine h.adaptExcept fun e he w hw => ?_
  cases e with
  | write inner =>
    cases hw
    exact .here (he inner rfl)
  | _ => cases hw

theorem stopsIn_writeComponents {xs : List Component} (h : ∀ x ∈ xs, Blamed c x.value x.type) :
    FailsOnly (Tells (WriteError.StopsIn c xs)) (forM xs (writeComponent c)) := by
  induction xs with
  | nil => exact .pure ()
  | cons x rest ih =>
    have hrest := ih fun y hy => h y (List.mem_cons_of_mem _ hy)
    rw [List.forM_cons]
    refine .bind_of_ok (stopsIn_component (h x List.mem_cons_self) rest) fun _ _ _ hok => ?_
    exact hrest.mono fun e he => he.mono fun w hw => .behind (written_of_ok hok) hw

theorem writeItems_eq (values : List Value) (types : List Ty) :
    writeItems c values 0 types =
      forM ((values.zip types).zipIdx.map fun p => ⟨.item p.2, p.1.1, p.1.2⟩)
        (writeComponent c) := by
  rw [writeItems_eq_forM, List.forM_map]
  rfl

theorem writeAll_eq (values : List Value) (element : Ty) :
    writeAll c values element 0 =
      forM (values.zipIdx.map fun p => ⟨.index p.2, p.1, element⟩) (writeComponent c) := by
  rw [writeAll_eq_forM, List.forM_map]
  rfl

theorem forM_flatMap {ι κ : Type} (xs : List ι) (parts : ι → List κ) (step : κ → Write Unit) :
    forM (xs.flatMap parts) step = forM xs fun x => forM (parts x) step := by
  induction xs with
  | nil => rfl
  | cons x xs ih => rw [List.flatMap_cons, List.forM_append, ih, List.forM_cons]

theorem writeEntries_eq (entries : List (Value × Value)) (key value : Ty) :
    writeEntries c entries key value 0 =
      forM (entries.zipIdx.flatMap fun p =>
        [⟨.mapKey p.2, p.1.1, key⟩, ⟨.mapValue p.2, p.1.2, value⟩]) (writeComponent c) := by
  rw [writeEntries_eq_forM, forM_flatMap]
  congr 1
  funext p
  simp only [List.forM_cons, List.forM_nil, writeComponent, writeEntry, bind_pure_unit]

/-- A container that is written as its header and its components. -/
theorem blamed_container {header : Write Unit}
    (hheader : FailsOnly (Tells (WriteError.Blames c v t)) header)
    (h : ∀ x ∈ v.components c t, Blamed c x.value x.type) :
    FailsOnly (Tells (WriteError.Blames c v t))
      (header >>= fun _ => forM (v.components c t) (writeComponent c)) :=
  .bind hheader fun _ => (stopsIn_writeComponents h).mono fun _ he => he.mono fun _ hw => hw.blames

/-! ## Values with no values inside -/

/-- A value that does not fit, with a catalog or without one, is reported as it should be. -/
theorem blames_mismatch {expected : Ty} (ht : t.Sheds expected)
    (h : ∀ catalog, v.fits catalog t = false) :
    WriteError.Blames c v t { fault := .mismatch expected v } :=
  (WriteFault.TrueOf.valueMismatch ht (h none) (h (some c))).blames

theorem blames_length {length : Nat} (h : v.Announces c t length)
    (hlarge : Wire.lengthBound ≤ length) :
    WriteError.Blames c v t { fault := .lengthOverflow ⟨length⟩ } :=
  (WriteFault.TrueOf.lengthOverflow h hlarge).blames

theorem blamed_primitive {p : Primitive} {step : Write Unit} (ht : t.required = .primitive p)
    (h : p.Put v step) : FailsOnly (Tells (WriteError.Blames c v t)) step := by
  cases h with
  | bool | int | f32 | f64 => exact Write.failsOnly_append _
  | string s => exact Write.tells_sized (blames_length (.string s ht))

/-- The text of a number is never too long. -/
theorem tells_string {P : WriteError → Prop} {text : String}
    (h : text.utf8ByteSize < Wire.lengthBound) : FailsOnly (Tells P) (Write.string text) :=
  Write.tells_sized fun hlarge => absurd h (Nat.not_lt.mpr hlarge)

theorem blames_version {number : Version} {e : VersionError} (ht : t.required = .version)
    (h : number.checkRange = .error e) :
    WriteError.Blames c (.version number) t { fault := .invalidValue .version e } := by
  unfold Version.checkRange at h
  split at h
  · rename_i component hfind
    cases h
    have hlarge := List.find?_some hfind
    simp only [decide_eq_true_eq] at hlarge
    exact (WriteFault.TrueOf.invalidValue ht (List.mem_of_find?_eq_some hfind) hlarge).blames
  · cases h

theorem blamed_writeAtom (hfits : ∀ catalog, v.fits catalog t = t.required.admitsAtom v) :
    FailsOnly (Tells (WriteError.Blames c v t)) (writeAtom t.unwrapped v) := by
  have hrefused (h : ¬ t.unwrapped.admitsAtom v = true) (catalog : Option Catalog) :
      v.fits catalog t = false := by
    rw [hfits, Bool.eq_false_iff]
    exact fun hadmits => h (Ty.admitsAtom_required.mp hadmits)
  have hsheds := t.sheds_unwrapped
  have h := writesAtom t.unwrapped v
  generalize htype : t.unwrapped = u, writeAtom t.unwrapped v = step at h ⊢
  cases h with
  | primitive hput => exact blamed_primitive ((Ty.required_eq_iff rfl rfl).mpr htype) hput
  | bytes data =>
    have ht : t.required = .bytes := (Ty.required_eq_iff rfl rfl).mpr htype
    exact Write.tells_sized (blames_length (.bytes data ht))
  | decimal d => exact tells_string d.utf8ByteSize_text_lt
  | @version number _ => exact tells_string number.utf8ByteSize_text_lt
  | outOfRange hrange =>
    have ht : t.required = .version := (Ty.required_eq_iff rfl rfl).mpr htype
    exact Write.tells_fail (blames_version ht hrange)
  | refused hnot =>
    rw [htype] at hrefused hsheds
    exact Write.tells_fail (blames_mismatch hsheds (hrefused hnot))

/-! ## Containers -/

section

variable {catalog : Option Catalog}

theorem fits_tuple_eq_false {values : List Value} (h : ∀ types, t.unwrapped ≠ .tuple types) :
    (Value.tuple values).fits catalog t = false := by
  rw [Value.fits]
  split
  · rename_i types ht
    exact absurd ((Ty.required_eq_iff rfl rfl).mp ht) (h types)
  · rfl

theorem fits_list_eq_false {values : List Value} (h : ∀ element, t.unwrapped ≠ .list element) :
    (Value.list values).fits catalog t = false := by
  rw [Value.fits]
  split
  · rename_i element ht
    exact absurd ((Ty.required_eq_iff rfl rfl).mp ht) (h element)
  · rfl

theorem fits_map_eq_false {entries : List (Value × Value)}
    (h : ∀ key value, t.unwrapped ≠ .map key value) :
    (Value.map entries).fits catalog t = false := by
  rw [Value.fits]
  split
  · rename_i key value ht
    exact absurd ((Ty.required_eq_iff rfl rfl).mp ht) (h key value)
  · rfl

theorem fits_record_eq_false {fields : List (String × Value)}
    (h : ∀ name, t.unwrapped ≠ .record name) : (Value.record fields).fits catalog t = false := by
  rw [Value.fits]
  split
  · rename_i name ht
    exact absurd ((Ty.required_eq_iff rfl rfl).mp ht) (h name)
  · rfl

theorem fits_union_eq_false {a : Ty} {held : Value}
    (h : Provider.unionShape? t.unwrapped = none) :
    (Value.union a held).fits catalog t = false := by
  rw [Value.fits]
  split
  · rename_i alternatives ht
    obtain ⟨isNullable, hshape⟩ := Ty.required_eq_union_iff.mp ht
    rw [h] at hshape
    cases hshape
  · rfl

end

def fieldComponents (values : List (String × Value)) (fields : List Field) : List Component :=
  fields.filterMap fun f => (Fields.get? f.name values).map fun w => ⟨.field f.name, w, f.type⟩

variable {name : TypeName} {r : RecordDef} {values : List (String × Value)}

theorem not_mem_names_of_get? {field : String} (h : Fields.get? field values = none) :
    field ∉ Fields.names values := by
  intro hmem
  obtain ⟨f, hf, hname⟩ := List.mem_map.mp hmem
  exact Fields.get?_eq_none_iff.mp h f hf hname

/-- Between its components, a record can lack a field or have a name that is too long. -/
theorem stopsIn_writeFields (ht : t.required = .record name) (hfind : c.find? name = some r)
    {fields : List Field} (hfields : ∀ f ∈ fields, f ∈ r.fields)
    (h : ∀ x ∈ fieldComponents values fields, Blamed c x.value x.type) :
    FailsOnly (Tells fun w => w.Blames c (.record values) t ∨
      w.StopsIn c (fieldComponents values fields))
      (forM fields (writeField c name values)) := by
  induction fields with
  | nil => exact .pure ()
  | cons f fields ih =>
    have hf := hfields f List.mem_cons_self
    have hrest := ih fun g hg => hfields g (List.mem_cons_of_mem _ hg)
    rw [List.forM_cons, writeField]
    cases hget : Fields.get? f.name values with
    | none =>
      have habsent := not_mem_names_of_get? hget
      have hmissing := WriteFault.TrueOf.missingField ht hfind hf habsent
      refine .bind_of_ok (Write.tells_fail (.inl hmissing.blames)) fun _ _ _ hok => ?_
      cases hok
    | some v =>
      have hcomponents : fieldComponents values (f :: fields) =
          ⟨.field f.name, v, f.type⟩ :: fieldComponents values fields := by
        simp [fieldComponents, hget]
      rw [hcomponents] at h ⊢
      have hfirst := stopsIn_component (h _ List.mem_cons_self) (fieldComponents values fields)
      simp only [bind_assoc]
      refine .bind (Write.tells_sized fun hlarge => ?_) fun _ => ?_
      · exact .inl (blames_length (.fieldName values ht hfind hf) hlarge)
      · refine .bind_of_ok (hfirst.mono fun e he => he.mono fun w => .inr) fun _ _ _ hok => ?_
        refine (hrest fun x hx => h x (List.mem_cons_of_mem _ hx)).mono fun e he => ?_
        exact he.mono fun w hw => hw.imp_right (.behind (written_of_ok hok))

theorem blamed_writeRecord (ht : t.unwrapped = .record name)
    (h : ∀ x ∈ (Value.record values).components c t, Blamed c x.value x.type) :
    FailsOnly (Tells (WriteError.Blames c (.record values) t))
      (writeRecord c name (fieldWriters c values)) := by
  have hrequired : t.required = .record name := (Ty.required_eq_iff rfl rfl).mpr ht
  unfold writeRecord
  split
  · exact .throw fun _ hw => nomatch hw
  · rename_i r hfind
    have hcomponents : (Value.record values).components c t = fieldComponents values r.fields := by
      simp only [Value.components, hrequired, hfind, fieldComponents]
    rw [hcomponents] at h
    split
    · rename_i undeclared _ hundeclared
      have hmem := List.mem_of_find?_eq_some hundeclared
      rw [fieldWriters_eq_map] at hmem
      obtain ⟨f, hf, heq⟩ := List.mem_map.mp hmem
      cases heq
      have hunknown := List.find?_some hundeclared
      rw [Bool.not_eq_true'] at hunknown
      exact Write.tells_fail (WriteFault.TrueOf.unexpectedField hrequired hfind
        (List.mem_map_of_mem hf) hunknown).blames
    · refine .bind (Write.tells_sized (blames_length (.record values hrequired hfind))) fun _ => ?_
      rw [writeFields_eq_forM]
      refine (stopsIn_writeFields hrequired hfind (fun f hf => hf) h).mono fun e he => ?_
      refine he.mono fun w hw => hw.elim id fun hstops => ?_
      exact (hcomponents ▸ hstops : w.StopsIn c _).blames

theorem blamed_tuple {values : List Value} (h : ∀ v ∈ values, ∀ t, Blamed c v t) :
    Blamed c (.tuple values) t := by
  rw [Blamed, write]
  split
  · rename_i types ht
    have hrequired : t.required = .tuple types := (Ty.required_eq_iff rfl rfl).mpr ht
    have hcomponents : (Value.tuple values).components c t =
        (values.zip types).zipIdx.map fun p => ⟨.item p.2, p.1.1, p.1.2⟩ := by
      simp only [Value.components, hrequired]
    split
    · rename_i hlength
      rw [writeItems_eq, ← hcomponents]
      refine blamed_container (Write.tells_sized ?_) fun x hx => ?_
      · rw [← hlength]
        exact blames_length (.tuple values hrequired)
      · cases (mem_components hx).1 with
        | item hmem => exact h _ hmem x.type
    · rename_i hlength
      exact Write.tells_fail (WriteFault.TrueOf.tupleArity hrequired hlength).blames
  · rename_i ht
    exact Write.tells_fail (blames_mismatch t.sheds_unwrapped fun _ => fits_tuple_eq_false ht)

theorem blamed_union {a : Ty} {held : Value} (h : Blamed c held a) :
    Blamed c (.union a held) t := by
  rw [Blamed, write]
  split
  · rename_i isNullable alternatives hshape
    have hrequired : t.required = .union alternatives :=
      Ty.required_eq_union_iff.mpr ⟨isNullable, hshape⟩
    split
    · rename_i ha
      have hcomponents : (Value.union a held).components c t =
          [⟨.alternative a.tag, held, a⟩] := by
        simp only [Value.components, hrequired, if_pos ha]
      refine .bind (Write.tells_sized fun hlarge => absurd hlarge (by decide)) fun _ => ?_
      refine .bind (Write.tells_sized (blames_length (.union held hrequired ha))) fun _ => ?_
      have hheld := stopsIn_component (x := ⟨.alternative a.tag, held, a⟩) h []
      rw [← hcomponents] at hheld
      exact hheld.mono fun _ he => he.mono fun _ hw => hw.blames
    · exact Write.tells_throw _
  · rename_i hshape
    exact Write.tells_fail (blames_mismatch t.sheds_unwrapped fun _ => fits_union_eq_false hshape)

theorem blamed_list {values : List Value} (h : ∀ v ∈ values, ∀ t, Blamed c v t) :
    Blamed c (.list values) t := by
  rw [Blamed, write]
  split
  · rename_i element ht
    have hrequired : t.required = .list element := (Ty.required_eq_iff rfl rfl).mpr ht
    have hcomponents : (Value.list values).components c t =
        values.zipIdx.map fun p => ⟨.index p.2, p.1, element⟩ := by
      simp only [Value.components, hrequired]
    rw [writeAll_eq, ← hcomponents]
    refine blamed_container (Write.tells_sized (blames_length (.list values hrequired)))
      fun x hx => ?_
    cases (mem_components hx).1 with
    | element hmem => exact h _ hmem x.type
  · rename_i ht
    exact Write.tells_fail (blames_mismatch t.sheds_unwrapped fun _ => fits_list_eq_false ht)

theorem blamed_map {entries : List (Value × Value)}
    (h : ∀ e ∈ entries, (∀ t, Blamed c e.1 t) ∧ ∀ t, Blamed c e.2 t) :
    Blamed c (.map entries) t := by
  rw [Blamed, write]
  split
  · rename_i key value ht
    have hrequired : t.required = .map key value := (Ty.required_eq_iff rfl rfl).mpr ht
    have hcomponents : (Value.map entries).components c t =
        entries.zipIdx.flatMap fun p =>
          [⟨.mapKey p.2, p.1.1, key⟩, ⟨.mapValue p.2, p.1.2, value⟩] := by
      simp only [Value.components, hrequired]
    rw [writeEntries_eq, ← hcomponents]
    refine blamed_container (Write.tells_sized (blames_length (.map entries hrequired)))
      fun x hx => ?_
    obtain ⟨hholds, -⟩ := mem_components hx
    generalize x.value = w at hholds
    cases hholds with
    | key hmem => exact (h _ hmem).1 x.type
    | value hmem => exact (h _ hmem).2 x.type
  · rename_i ht
    exact Write.tells_fail (blames_mismatch t.sheds_unwrapped fun _ => fits_map_eq_false ht)

theorem blamed_record (h : ∀ f ∈ values, ∀ t, Blamed c f.2 t) : Blamed c (.record values) t := by
  rw [Blamed, write]
  split
  · rename_i name ht
    refine blamed_writeRecord ht fun x hx => ?_
    obtain ⟨hholds, -⟩ := mem_components hx
    generalize x.value = w at hholds
    cases hholds with
    | field hmem => exact h _ hmem x.type
  · rename_i ht
    exact Write.tells_fail (blames_mismatch t.sheds_unwrapped fun _ => fits_record_eq_false ht)

/-- A failed write points at a value with the fault it names, past components that can be
written. -/
theorem blamed_write (v : Value) (t : Ty) : Blamed c v t := by
  induction v generalizing t with
  | null =>
    rw [Blamed, write]
    split
    · exact Write.failsOnly_append _
    · rename_i hnullable
      refine Write.tells_fail (blames_mismatch (.refl t) fun catalog => ?_)
      rw [Value.fits_null, Bool.eq_false_iff]
      exact hnullable
  | tuple values ih => exact blamed_tuple ih
  | union a held ih => exact blamed_union (ih a)
  | list values ih => exact blamed_list ih
  | map entries ih => exact blamed_map ih
  | record fields ih => exact blamed_record ih
  | _ =>
    rw [Blamed, write]
    exact blamed_writeAtom fun _ => by rw [Value.fits]

end Plain

/-! ## Served codecs -/

namespace Library

variable {lib : Library}

/-- What lies inside a value of a published type has a published type. -/
theorem Faithful.contains_part (h : lib.Faithful c) {u : Ty} (ht : lib.contains t = true)
    (hpart : Ty.Part c t.required u) : lib.contains u = true := by
  have hready : Link.ready ≠ .poisoned := nofun
  obtain ⟨x, hx, htype, -⟩ := h.follows_writer.land_present ht hready
  have hdescribed := h.writer x hx
  rw [htype] at hdescribed
  rcases t.unwrapped_eq_required with heq | ⟨alternatives, hunwrapped, hrequired⟩
  · rw [heq] at hdescribed
    rcases hpart with hdirect | hindirect
    · exact h.contains_edge hx (hdescribed.edge_of_direct hdirect)
    · rcases hdescribed.edge_of_indirect hindirect with hedge | ⟨_, -, hnullable⟩
      · exact h.contains_edge hx hedge
      · exact absurd hnullable (t.required_ne_nullable u)
  · rw [hunwrapped] at hdescribed
    rw [hrequired] at hpart
    rcases hpart with hdirect | hindirect
    · cases hdirect
    · cases hindirect with
      | alternative ha => exact h.contains_edge hx (hdescribed.edge_of_alternative ha)

theorem Faithful.contains_component (h : lib.Faithful c) {u : Value} {s : Ty}
    {segments : List Segment} {before : List Component} (hleads : LeadsTo c v t segments u s before)
    (ht : lib.contains t = true) : ∀ x ∈ before, lib.contains x.type = true := by
  induction hleads with
  | here => exact List.forall_mem_nil _
  | @inside v u t s x front back before segments hcomponents _ ih =>
    have hinside : ∀ y ∈ front ++ x :: back, lib.contains y.type = true := fun y hy =>
      h.contains_part ht (mem_components (hcomponents ▸ hy)).2
    have hx := hinside x (List.mem_append_right _ List.mem_cons_self)
    exact List.forall_mem_append.mpr ⟨fun y hy => hinside y (List.mem_append_left _ hy), ih hx⟩

end Library

namespace Context

variable {catalog : Catalog} {config : Config} {history : List (Ty × Policy)} {type : Ty}
  {policy : Policy} {h : Handle}

theorem blamed_of_served
    (hserved : (((fresh catalog config).after history).request type policy).1 = .ok h)
    {v : Value} {w : WriteError} {output after : Wire.Output}
    (hfailed : h.write v output = .error (.write w) after) : w.Blames catalog v type := by
  rw [write_eq_plain hserved] at hfailed
  exact Plain.blamed_write v type _ _ _ hfailed w rfl

/-- A failed write points at the culprit. From the value that was to be written and the type of the
codec, the path of the error leads to a value inside and its type, and the fault that is named is
one of that value. Whatever is written before that value, on every level, is written by the codec of
its own type without a failure. Where the names of the fields of a record differ, the path leads
nowhere else. -/
theorem write_error_points_at_culprit
    (hserved : (((fresh catalog config).after history).request type policy).1 = .ok h)
    {v : Value} {w : WriteError}
    (hfailed : h.encode v = .error (.write w) ∨
      ∃ output after, h.write v output = .error (.write w) after) :
    ∃ u s before, LeadsTo catalog v type w.path.segments u s before ∧ w.fault.TrueOf catalog s u ∧
      (∀ x ∈ before, ∃ bytes, (h.library.write x.value ⟨x.type, .ready⟩).Appends bytes (.ok ())) ∧
      (catalog.FieldsDistinct → ∀ u' s' before',
        LeadsTo catalog v type w.path.segments u' s' before' →
          u' = u ∧ s' = s ∧ before' = before) := by
  have hblames : w.Blames catalog v type := by
    rcases hfailed with hencode | ⟨output, after, hwrite⟩
    · obtain ⟨output, hwrite⟩ := Handle.encode_eq_error.mp hencode
      exact blamed_of_served hserved hwrite
    · exact blamed_of_served hserved hwrite
  obtain ⟨u, s, before, hleads, htrue, hbefore⟩ := hblames
  refine ⟨u, s, before, hleads, htrue, fun x hx => ?_, fun hc _ _ _ hother => hleads.eq hc hother⟩
  obtain ⟨hfaithful, ⟨-, hpublished⟩, htype, -⟩ := leads_of_served hserved
  have hx' : h.library.Leads ⟨x.type, .ready⟩ :=
    ⟨nofun, hfaithful.contains_component hleads (htype ▸ hpublished) x hx⟩
  rw [hfaithful.follows_writer.write_eq x.value hx']
  exact hbefore x hx

def looseFile (size : Value) : Value := .record [("parent", .null), ("size", size)]

/-- The size of the second file is a text. -/
def missizedFolder : Value :=
  .record [("files", .list [looseFile (.int .u32 ⟨7, by decide⟩), looseFile (.string "big")]),
    ("name", .string "a")]

def missizedPath : List Segment := [.field "files", .index 1, .field "size"]

set_option maxRecDepth 4000 in
theorem write_missizedFolder : ∃ after,
    Plain.write folders missizedFolder (.record ⟨"Folder"⟩) Wire.Output.empty =
      .error (.write ⟨⟨missizedPath⟩, .valueMismatch (.primitive (.int .u32)) "string"⟩) after :=
  ⟨_, by with_unfolding_all rfl⟩

theorem leadsTo_missized :
    LeadsTo folders missizedFolder (.record ⟨"Folder"⟩) missizedPath (.string "big")
      (.primitive (.int .u32))
      [⟨.field "name", .string "a", .primitive .string⟩,
        ⟨.index 0, looseFile (.int .u32 ⟨7, by decide⟩), .record ⟨"File"⟩⟩] := by
  have hfolder : missizedFolder.components folders (.record ⟨"Folder"⟩) =
      [⟨.field "name", .string "a", .primitive .string⟩] ++ ⟨.field "files", _, _⟩ :: [] := rfl
  have hfile : Value.components folders (.list (.record ⟨"File"⟩))
      (.list [looseFile (.int .u32 ⟨7, by decide⟩), looseFile (.string "big")]) =
        [⟨.index 0, _, _⟩] ++ ⟨.index 1, _, _⟩ :: [] := rfl
  have hsize : (looseFile (.string "big")).components folders (.record ⟨"File"⟩) =
      [] ++ ⟨.field "size", _, _⟩ :: [⟨.field "parent", _, _⟩] := rfl
  exact .inside hfolder (.inside hfile (.inside hsize (.here _ _)))

/-- The name and the first file are written before the size of the second one. -/
theorem missized_folder_points_at_size : ∃ h,
    (((fresh folders {}).after folderHistory).request (.record ⟨"Folder"⟩) .throw).1 = .ok h ∧
      (WriteFault.valueMismatch (.primitive (.int .u32)) "string").TrueOf folders
        (.primitive (.int .u32)) (.string "big") ∧
      ∀ x ∈ ([⟨.field "name", .string "a", .primitive .string⟩,
          ⟨.index 0, looseFile (.int .u32 ⟨7, by decide⟩), .record ⟨"File"⟩⟩] : List Component),
        ∃ bytes, (h.library.write x.value ⟨x.type, .ready⟩).Appends bytes (.ok ()) := by
  obtain ⟨h, hserved⟩ := folder_is_served
  obtain ⟨after, hwrite⟩ := write_missizedFolder
  rw [← write_eq_plain hserved] at hwrite
  obtain ⟨u, s, before, -, htrue, hbefore, honly⟩ :=
    write_error_points_at_culprit hserved (.inr ⟨_, _, hwrite⟩)
  have hdistinct : folders.FieldsDistinct := by
    unfold Catalog.FieldsDistinct
    decide
  obtain ⟨rfl, rfl, rfl⟩ := honly hdistinct _ _ _ leadsTo_missized
  exact ⟨h, hserved, htrue, hbefore⟩

end Context

end SchemaPack
