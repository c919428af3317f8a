import SchemaPack.Proofs.Height
import SchemaPack.Proofs.Plain.Delivery

/-!
Values of one catalog as values of another. Where two catalogs declare a record differently, a value
that is written with the one is read with the other with its records altered, at any depth: of the
fields that were written those are taken which the reader knows, and it completes them as it does
any payload.
-/
namespace SchemaPack

namespace Value

mutual

/-- A value of a type, with the fields of every record inside changed as the name of the record
tells. A part that does not have the shape of its type is left as it is. -/
def alter (c : Catalog) (change : TypeName → List (String × Value) → List (String × Value)) :
    Value → Ty → Value
  | .null, _ => .null
  | .bool b, _ => .bool b
  | .int u n, _ => .int u n
  | .f32 bits, _ => .f32 bits
  | .f64 bits, _ => .f64 bits
  | .string s, _ => .string s
  | .bytes data, _ => .bytes data
  | .decimal d, _ => .decimal d
  | .version v, _ => .version v
  | .tuple values, t =>
    match t.unwrapped with
    | .tuple types => .tuple (alterItems c change values types)
    | _ => .tuple values
  | .union alternative held, _ => .union alternative (alter c change held alternative)
  | .list values, t =>
    match t.unwrapped with
    | .list element => .list (alterAll c change values element)
    | _ => .list values
  | .map entries, t =>
    match t.unwrapped with
    | .map key value => .map (alterEntries c change entries key value)
    | _ => .map entries
  | .record fields, t =>
    match t.unwrapped with
    | .record name =>
      match c.find? name with
      | some r => .record (change name (alterFields c change fields r))
      | none => .record fields
    | _ => .record fields
termination_by structural v => v

def alterItems (c : Catalog)
    (change : TypeName → List (String × Value) → List (String × Value)) :
    List Value → List Ty → List Value
  | v :: values, t :: types => alter c change v t :: alterItems c change values types
  | values, _ => values
termination_by structural values => values

def alterAll (c : Catalog)
    (change : TypeName → List (String × Value) → List (String × Value)) :
    List Value → Ty → List Value
  | [], _ => []
  | v :: values, t => alter c change v t :: alterAll c change values t
termination_by structural values => values

def alterEntries (c : Catalog)
    (change : TypeName → List (String × Value) → List (String × Value)) :
    List (Value × Value) → Ty → Ty → List (Value × Value)
  | [], _, _ => []
  | (k, v) :: entries, key, value =>
    (alter c change k key, alter c change v value) :: alterEntries c change entries key value
termination_by structural entries => entries

def alterFields (c : Catalog)
    (change : TypeName → List (String × Value) → List (String × Value)) :
    List (String × Value) → RecordDef → List (String × Value)
  | [], _ => []
  | (name, v) :: fields, r =>
    let altered :=
      match r.fields.find? (·.name == name) with
      | some f => alter c change v f.type
      | none => v
    (name, altered) :: alterFields c change fields r
termination_by structural fields => fields

end

section Alter

variable {c : Catalog} {change : TypeName → List (String × Value) → List (String × Value)}

theorem alterItems_eq {values : List Value} {types : List Ty}
    (hlength : values.length = types.length) :
    alterItems c change values types = (values.zip types).map fun p => alter c change p.1 p.2 := by
  induction values generalizing types with
  | nil => cases types <;> rfl
  | cons v values ih =>
    obtain ⟨t, types, rfl⟩ := List.exists_cons_of_length_eq_add_one hlength.symm
    rw [alterItems, ih (Nat.succ.inj hlength), List.zip_cons_cons, List.map_cons]

theorem alterAll_eq (values : List Value) (t : Ty) :
    alterAll c change values t = values.map (alter c change · t) := by
  induction values with
  | nil => rfl
  | cons v values ih => rw [alterAll, ih, List.map_cons]

theorem alterEntries_eq (entries : List (Value × Value)) (key value : Ty) :
    alterEntries c change entries key value =
      entries.map fun e => (alter c change e.1 key, alter c change e.2 value) := by
  induction entries with
  | nil => rfl
  | cons e entries ih => rw [alterEntries, ih, List.map_cons]

theorem mem_alterFields {values : List (String × Value)} {r : RecordDef} {q : String × Value} :
    q ∈ alterFields c change values r ↔ ∃ v, (q.1, v) ∈ values ∧
      q.2 = match r.fields.find? (·.name == q.1) with
        | some f => alter c change v f.type
        | none => v := by
  induction values with
  | nil => simp [alterFields]
  | cons f values ih =>
    obtain ⟨name, v⟩ := f
    rw [alterFields, List.mem_cons, ih]
    constructor
    · rintro (rfl | ⟨w, hw, hq⟩)
      · exact ⟨v, List.mem_cons_self, rfl⟩
      · exact ⟨w, List.mem_cons_of_mem _ hw, hq⟩
    · rintro ⟨w, hw, hq⟩
      rcases List.mem_cons.mp hw with heq | hw
      · cases heq
        exact Or.inl (Prod.ext rfl hq)
      · exact Or.inr ⟨w, hw, hq⟩

theorem alter_tuple {values : List Value} {t : Ty} {types : List Ty}
    (htype : t.unwrapped = .tuple types) (hlength : values.length = types.length) :
    alter c change (.tuple values) t =
      .tuple ((values.zip types).map fun p => alter c change p.1 p.2) := by
  rw [← alterItems_eq hlength]
  simp only [alter, htype]

theorem alter_list {values : List Value} {t element : Ty} (htype : t.unwrapped = .list element) :
    alter c change (.list values) t = .list (values.map (alter c change · element)) := by
  rw [← alterAll_eq]
  simp only [alter, htype]

theorem alter_map {entries : List (Value × Value)} {t key value : Ty}
    (htype : t.unwrapped = .map key value) :
    alter c change (.map entries) t =
      .map (entries.map fun e => (alter c change e.1 key, alter c change e.2 value)) := by
  rw [← alterEntries_eq]
  simp only [alter, htype]

theorem alter_record {fields : List (String × Value)} {t : Ty} {name : TypeName} {r : RecordDef}
    (htype : t.unwrapped = .record name) (hfind : c.find? name = some r) :
    alter c change (.record fields) t = .record (change name (alterFields c change fields r)) := by
  simp only [alter, htype, hfind]

/-- The height of fields goes by what fields there are. -/
theorem heightFields_congr {a b : List (String × Value)} (h : ∀ q, q ∈ a ↔ q ∈ b) :
    heightFields a = heightFields b := by
  refine eq_of_forall_lt_iff fun n => ?_
  simp only [lt_heightFields, h]

theorem names_alterFields (values : List (String × Value)) (r : RecordDef) :
    Fields.names (alterFields c change values r) = Fields.names values := by
  induction values with
  | nil => rfl
  | cons f values ih =>
    simp only [Fields.names] at ih
    simp only [alterFields, Fields.names, List.map_cons, ih]

theorem alterItems_eq_self {values : List Value}
    (h : ∀ v ∈ values, ∀ t, alter c change v t = v) (types : List Ty) :
    alterItems c change values types = values := by
  induction values generalizing types with
  | nil => rfl
  | cons v values ih =>
    cases types with
    | nil => rfl
    | cons t types =>
      have hrest := ih (fun w hw => h w (List.mem_cons_of_mem _ hw)) types
      rw [alterItems, h v List.mem_cons_self, hrest]

theorem alterFields_eq_self {fields : List (String × Value)}
    (h : ∀ f ∈ fields, ∀ t, alter c change f.2 t = f.2) (r : RecordDef) :
    alterFields c change fields r = fields := by
  induction fields with
  | nil => rfl
  | cons f fields ih =>
    rw [alterFields, ih fun g hg => h g (List.mem_cons_of_mem _ hg)]
    simp only [h f List.mem_cons_self]
    split
    · rfl
    · rfl

/-- Nothing is altered where no record is changed. -/
theorem alter_id (v : Value) (t : Ty) : alter c (fun _ fields => fields) v t = v := by
  induction v generalizing t with
  | tuple values ih =>
    rw [alter]
    split
    · rw [alterItems_eq_self ih]
    · rfl
  | union alternative held ih => rw [alter, ih]
  | list values ih =>
    rw [alter]
    split
    · rw [alterAll_eq, List.map_congr_left fun v hv => ih v hv _, List.map_id']
    · rfl
  | map entries ih =>
    rw [alter]
    split
    · rw [alterEntries_eq]
      congr 1
      refine (List.map_congr_left fun e he => ?_).trans (List.map_id' _)
      rw [(ih e he).1, (ih e he).2]
    · rfl
  | record fields ih =>
    rw [alter]
    split
    · split
      · rw [alterFields_eq_self ih]
      · rfl
    · rfl
  | _ => rfl

end Alter

end Value

structure RecordDef.NamedBy (r : RecordDef) (values : List (String × Value)) : Prop where
  sorted : Fields.Sorted values
  declared : ∀ p ∈ values, r.declares p.1 = true
  present : ∀ f ∈ r.fields, ∃ v, Fields.get? f.name values = some v

theorem RecordDef.NamedBy.alterFields {r : RecordDef} {values : List (String × Value)}
    (h : r.NamedBy values) (c : Catalog)
    (change : TypeName → List (String × Value) → List (String × Value)) :
    r.NamedBy (Value.alterFields c change values r) := by
  have hsorted : Fields.Sorted (Value.alterFields c change values r) := by
    rw [Fields.Sorted, Value.names_alterFields]
    exact h.sorted
  refine ⟨hsorted, fun p hp => ?_, fun f hf => ?_⟩
  · obtain ⟨v, hv, -⟩ := Value.mem_alterFields.mp hp
    exact h.declared (p.1, v) hv
  · obtain ⟨v, hv⟩ := h.present f hf
    have hname : f.name ∈ Fields.names (Value.alterFields c change values r) := by
      rw [Value.names_alterFields]
      exact List.mem_map_of_mem (f := (·.1)) (Fields.mem_of_get? hv)
    obtain ⟨q, hq, hname⟩ := List.mem_map.mp hname
    exact ⟨q.2, hname ▸ hsorted.get?_of_mem hq⟩

namespace Plain

variable {c cw cr : Catalog} {under : Policy → Prop}
  {take change : TypeName → List (String × Value) → List (String × Value)}

/-- Of the fields that were written those are known which the reader declares. -/
theorem Known.mem_images {writer reader : RecordDef} {values : List (String × Value)}
    {pairs : List (Field × Value)} (h : Known reader writer.fields values pairs)
    (hnamed : writer.NamedBy values) (hnodup : (writer.fields.map (·.name)).Nodup)
    {change : TypeName → List (String × Value) → List (String × Value)} (q : String × Value) :
    q ∈ images (Value.alter cw change) pairs ↔
      q ∈ Value.alterFields cw change values writer ∧ reader.declares q.1 = true := by
  rw [images, List.mem_map, Value.mem_alterFields]
  constructor
  · rintro ⟨p, hp, rfl⟩
    have hfield : p.1 ∈ writer.fields.filter (reader.declares ·.name) := by
      rw [← h.fields]
      exact List.mem_map_of_mem hp
    obtain ⟨hmem, hknown⟩ := List.mem_filter.mp hfield
    refine ⟨⟨p.2, Fields.mem_of_get? (h.values p hp), ?_⟩, hknown⟩
    rw [find?_field hnodup hmem]
  · rintro ⟨⟨v, hv, hq⟩, hknown⟩
    obtain ⟨f, hf, hname⟩ := RecordDef.declares_iff.mp (hnamed.declared _ hv)
    have hfield : f ∈ pairs.map (·.1) := by
      rw [h.fields, List.mem_filter, hname]
      exact ⟨hf, hknown⟩
    obtain ⟨p, hp, rfl⟩ := List.mem_map.mp hfield
    have hvalue := h.values p hp
    rw [hname, hnamed.sorted.get?_of_mem hv] at hvalue
    rw [← hname, find?_field hnodup hf] at hq
    refine ⟨p, hp, Prod.ext hname ?_⟩
    rw [hq, Option.some.inj hvalue]

/-- What a reader makes of the values of a record that were written by another declaration of it:
some of their fields are taken, and from them the record is completed with its changes. -/
structure Turns (writer reader : RecordDef)
    (take change : List (String × Value) → List (String × Value)) : Prop where
  taken : ∀ values, writer.NamedBy values →
    ∀ p, p ∈ take values ↔ p ∈ values ∧ reader.declares p.1 = true
  completed : ∀ values, writer.NamedBy values →
    completeRecord values reader.fields [] = .ok (change values)

theorem Meets.refl {r : RecordDef} (hnodup : (r.fields.map (·.name)).Nodup) :
    Meets under r.fields r where
  shared f hf g hg hname := by rw [List.inj_on_of_nodup_map hnodup hg hf hname]
  ignored f hf hunknown :=
    absurd (RecordDef.declares_iff.mpr ⟨f, hf, rfl⟩) (Bool.eq_false_iff.mp hunknown)

/-- A record that is declared as it was written comes back unchanged. -/
theorem Turns.refl (r : RecordDef) : Turns r r (fun fields => fields) (fun fields => fields) where
  taken _ hnamed p := (and_iff_left_of_imp (hnamed.declared p)).symm
  completed _ hnamed :=
    completeRecord_of_values hnamed.sorted hnamed.declared fun f hf =>
      (hnamed.present f hf).imp fun _ hv => ⟨hv, hv⟩

/-- A reader with another catalog can read what is written, and makes of every record what the
changes tell. -/
structure Passes (cw cr : Catalog) (under : Policy → Prop)
    (take change : TypeName → List (String × Value) → List (String × Value)) : Prop where
  distinct : cw.FieldsDistinct
  record : ∀ name writer, cw.find? name = some writer → ∃ reader, cr.find? name = some reader ∧
    Meets under writer.fields reader ∧ Turns writer reader (take name) (change name)

/-- Like a field of the writer, a field that the reader knows is part of the record for both. -/
theorem Passes.part (hpass : Passes cw cr under take change) (hc : c = cw ∨ c = cr)
    {name : TypeName} {writer reader : RecordDef} (hwriter : cw.find? name = some writer)
    (hreader : cr.find? name = some reader) {f : Field} (hf : f ∈ writer.fields)
    (hknown : reader.declares f.name = true) : Ty.Part c (.record name) f.type := by
  rcases hc with rfl | rfl
  · exact (Ty.Direct.field hwriter hf).part
  · obtain ⟨reader', hreader', hmeets, -⟩ := hpass.record name writer hwriter
    obtain rfl := Option.some.inj (hreader.symm.trans hreader')
    obtain ⟨g, hg, htype⟩ := hmeets.exists_known hf hknown
    rw [← htype]
    exact (Ty.Direct.field hreader (List.mem_of_find?_eq_some hg)).part

theorem leaves_alter_record (hpass : Passes cw cr under take change) (hc : c = cw ∨ c = cr)
    {name : TypeName} {values : List (String × Value)} (hsorted : Fields.Sorted values)
    (hvalues : ∀ f ∈ values, ∀ t, Ty.Throughout c Ty.TagsDistinct t → (write cw f.2 t).Leaves
      (Delivers cr under (f.2.alter cw take t).height (f.2.alter cw change t) t))
    {t : Ty} (htype : t.unwrapped = .record name)
    (ht : Ty.Throughout c Ty.TagsDistinct (.record name)) :
    (writeRecord cw name (fieldWriters cw values)).Leaves
      (DeliversPresent cr under ((Value.record values).alter cw take t).height
        ((Value.record values).alter cw change t) (.record name)) := by
  cases hwriter : cw.find? name with
  | none =>
    rw [writeRecord, hwriter]
    exact Write.leaves_throw _
  | some writer =>
    obtain ⟨reader, hreader, hmeets, hturns⟩ := hpass.record name writer hwriter
    have hnodup := hpass.distinct writer (Catalog.mem_of_find? hwriter)
    have hwritten := @leaves_writeRecord under cw cr (Value.alter cw take) (Value.alter cw change)
      writer reader values name hwriter hreader hmeets hnodup fun f hf hknown v hv =>
        hvalues _ hv f.type (ht.part (hpass.part hc hwriter hreader hf hknown))
    refine hwritten.mono fun bytes ⟨hdeclared, hpresent, pairs, hpairs, hread⟩ => ?_
    have hnamed : writer.NamedBy values := ⟨hsorted, hdeclared, hpresent⟩
    have hlevels : Value.heightFields (images (Value.alter cw take) pairs) =
        Value.heightFields (take name (Value.alterFields cw take values writer)) :=
      Value.heightFields_congr fun q => by
        rw [hpairs.mem_images hnamed hnodup, hturns.taken _ (hnamed.alterFields cw take)]
    have hcomplete :
        completeRecord (images (Value.alter cw change) pairs).reverse reader.fields [] =
          .ok (change name (Value.alterFields cw change values writer)) := by
      have hnamed' := hnamed.alterFields cw change
      -- the fields are read in the order of the wire, and looked up by name only
      rw [← hturns.completed _ hnamed']
      refine completeRecord_congr (fun g hg => ?_) []
      refine hnamed'.sorted.get?_eq_of_mem_iff fun v => ?_
      rw [List.mem_reverse, hpairs.mem_images hnamed hnodup]
      exact and_iff_left (RecordDef.declares_iff.mpr ⟨g, hg, rfl⟩)
    rw [Value.alter_record htype hwriter, Value.alter_record htype hwriter, Value.height, ← hlevels]
    exact hread _ hcomplete

/-- What is written with one catalog is read with the other as the value with its records altered,
if there is room for all levels of what is taken. Only types that both catalogs reach are read, so
the tags have to tell alternatives apart in one of them. -/
theorem leaves_alter (hpass : Passes cw cr under take change) (hc : c = cw ∨ c = cr) (v : Value)
    (hv : v.Canonical) {t : Ty} (ht : Ty.Throughout c Ty.TagsDistinct t) :
    (write cw v t).Leaves
      (Delivers cr under (v.alter cw take t).height (v.alter cw change t) t) := by
  induction v generalizing t with
  | null =>
    rw [write]
    split
    · rename_i hnullable
      exact Write.leaves_append (delivers_null hnullable)
    · exact Write.leaves_fail _
  | tuple values ih =>
    rw [write]
    split
    · rename_i types htype
      split
      · rename_i hlength
        have hitems : ∀ v ∈ values, ∀ u ∈ types, (write cw v u).Leaves
            (Delivers cr under (v.alter cw take u).height (v.alter cw change u) u) := by
          intro v hmem u hu
          exact ih v hmem (Value.AllCanonical.of_mem hv hmem)
            ((htype ▸ ht.unwrapped).part (Ty.Direct.item hu).part)
        rw [Value.alter_tuple htype hlength, Value.alter_tuple htype hlength]
        exact leaves_of_unwrapped (leaves_writeTuple hitems hlength) htype
      · exact Write.leaves_fail _
    · exact Write.leaves_fail _
  | union alternative held ih =>
    rw [write]
    split
    · rename_i isNullable alternatives hshape
      split
      · rename_i hmem
        have hunion := unionShape?_tagsDistinct ht.unwrapped hshape
        have hheld := ih hv (hunion.part (Ty.Indirect.alternative hmem).part)
        rw [Value.alter, Value.alter]
        exact leaves_of_unwrapped (leaves_writeUnion hshape hunion.here hmem hheld) rfl
      · exact Write.leaves_throw _
    · exact Write.leaves_fail _
  | list values ih =>
    rw [write]
    split
    · rename_i element htype
      have helement := (htype ▸ ht.unwrapped).part (Ty.Indirect.element element).part
      have hvalues := fun v hmem => ih v hmem (Value.AllCanonical.of_mem hv hmem) helement
      rw [Value.alter_list htype, Value.alter_list htype]
      exact leaves_of_unwrapped (leaves_writeList hvalues) htype
    · exact Write.leaves_fail _
  | map entries ih =>
    rw [write]
    split
    · rename_i key value htype
      have hkey := (htype ▸ ht.unwrapped).part (Ty.Indirect.key key value).part
      have hvalue := (htype ▸ ht.unwrapped).part (Ty.Indirect.value key value).part
      have hentries := fun e hmem =>
        And.intro ((ih e hmem).1 (Value.EntriesCanonical.of_mem hv hmem).1 hkey)
          ((ih e hmem).2 (Value.EntriesCanonical.of_mem hv hmem).2 hvalue)
      rw [Value.alter_map htype, Value.alter_map htype]
      exact leaves_of_unwrapped (leaves_writeMap hentries) htype
    · exact Write.leaves_fail _
  | record fields ih =>
    rw [write]
    split
    · rename_i name htype
      have hrecord := leaves_alter_record hpass hc hv.1
        (fun f hmem t ht => ih f hmem (Value.FieldsCanonical.of_mem hv.2 hmem) ht) htype
        (htype ▸ ht.unwrapped)
      exact leaves_of_unwrapped hrecord htype
    · exact Write.leaves_fail _
  | _ =>
    rw [write]
    exact leaves_of_unwrapped (leaves_writeAtom _ _) rfl

end Plain

end SchemaPack
