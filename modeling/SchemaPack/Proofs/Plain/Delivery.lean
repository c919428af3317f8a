import SchemaPack.Proofs.Height
import SchemaPack.Proofs.Plain.Reading
import SchemaPack.Proofs.Plain.Whole
import SchemaPack.Proofs.RecordFields
import SchemaPack.Proofs.Text.Decimal
import SchemaPack.Proofs.Text.Version

/-!
How what is written with one catalog is read with another. Of each part that is written something is
taken, and it is read as some value if there is room for the levels of what is taken. The lemmas
say what follows for the container around the parts, whatever is taken of them and whatever values
they are read as. A record may be written with fields that the reader does not know, and lack others
that it does.
-/
namespace SchemaPack

open Wire (Cursor NotNil Whole Yields)

/-- Two alternatives of a union that have one tag are one type. -/
def Ty.TagsDistinct (t : Ty) : Prop :=
  ∀ alternatives, t = .union alternatives →
    ∀ a ∈ alternatives, ∀ b ∈ alternatives, a.tag = b.tag → a = b

instance (t : Ty) : Decidable t.TagsDistinct :=
  match t with
  | .union alternatives =>
    decidable_of_iff (∀ a ∈ alternatives, ∀ b ∈ alternatives, a.tag = b.tag → a = b)
      ⟨fun h _ heq => Ty.union.inj heq ▸ h, fun h => h alternatives rfl⟩
  | .primitive _ | .bytes | .decimal | .version | .tuple _ | .list _ | .map _ _ | .nullable _
  | .record _ => isTrue nofun

/-- No record of the catalog has two fields of one name. -/
def Catalog.FieldsDistinct (c : Catalog) : Prop :=
  ∀ r ∈ c.records, (r.fields.map (·.name)).Nodup

theorem RecordDef.declares_iff {r : RecordDef} {name : String} :
    r.declares name = true ↔ ∃ f ∈ r.fields, f.name = name := by
  simp [declares]

namespace Plain

variable {c : Catalog} {under : Policy → Prop}

/-- Under the policies in question, the bytes are read as a value of the type if there is room for
more than so many levels. -/
def Delivers (c : Catalog) (under : Policy → Prop) (levels : Nat) (v : Value) (t : Ty)
    (bytes : List UInt8) : Prop :=
  ∀ room scope, under scope.policy →
    (read c room t scope).Recovers (room ≤ levels) scope.maxDepth bytes v

/-- The bytes are no nil, and are read as a value that is not null. -/
structure DeliversPresent (c : Catalog) (under : Policy → Prop) (levels : Nat) (v : Value) (t : Ty)
    (bytes : List UInt8) : Prop where
  notNil : NotNil bytes
  recovers : ∀ room scope, under scope.policy →
    (readPresent (read c room) c scope t).Recovers (room < levels) scope.maxDepth bytes v

/-- Neither the wrappers of a type nor its null stand in the way of a value that is not null. -/
theorem DeliversPresent.delivers {levels : Nat} {v : Value} {t : Ty} {bytes : List UInt8}
    (h : DeliversPresent c under levels v t.unwrapped bytes) :
    Delivers c under levels v t bytes := by
  intro room scope hpolicy
  cases room with
  | zero => exact (Read.recovers_tooDeep scope t v).congr (by simp)
  | succ room =>
    intro position rest
    have hrecovers := h.recovers room scope hpolicy position rest
    rw [readPresent_unwrapped] at hrecovers
    have hread : read c (room + 1) t scope ⟨position, bytes ++ rest⟩ =
        readPresent (read c room) c scope t ⟨position, bytes ++ rest⟩ := by
      simp only [read, orNull, h.notNil position rest, ite_self]
    rw [hread]
    exact hrecovers

theorem leaves_of_unwrapped {levels : Nat} {v : Value} {t u : Ty} {step : Write Unit}
    (h : step.Leaves (DeliversPresent c under levels v u)) (htype : t.unwrapped = u) :
    step.Leaves (Delivers c under levels v t) := by
  subst htype
  exact h.mono fun _ hbytes => hbytes.delivers

theorem delivers_null {t : Ty} (ht : t.isNullable = true) :
    Delivers c under 0 .null t Wire.Encoding.nil := by
  intro room scope _
  cases room with
  | zero => exact (Read.recovers_tooDeep scope t Value.null).congr (by simp)
  | succ room =>
    intro position rest
    refine ⟨fun _ => ?_, fun hdeep => absurd hdeep (Nat.not_succ_le_zero room)⟩
    simp only [read, orNull, ht, if_true, Wire.nil?_nil]

/-! ## Values with no values inside -/

/-- A value with no values inside is read if it can be taken off the bytes. Then they are no nil. -/
theorem deliversPresent_of_take {α : Type} {t : Ty} {v : Value} {bytes : List UInt8} {a : α}
    {take : Cursor → Option (α × Cursor)} {step : Cursor → Except ReadFault Value × Cursor}
    (hyields : Yields take bytes a)
    (hrefuses : ∀ cursor after, cursor.marker? = some (.nil, after) → take cursor = none)
    (htype : ∀ inside scope, readPresent inside c scope t = scope.run t step)
    (hstep : ∀ cursor after, take cursor = some (a, after) → step cursor = (.ok v, after)) :
    DeliversPresent c under 0 v t bytes := by
  refine ⟨hyields.notNil hrefuses, fun room scope _ => ?_⟩
  rw [htype]
  refine Read.Recovers.congr (Read.recovers_run (fun position rest => ?_) scope t) (by simp)
  exact hstep _ _ (hyields position rest)

theorem leaves_primitive {p : Primitive} {v : Value} {step : Write Unit} (h : p.Put v step) :
    step.Leaves (DeliversPresent c under 0 v (.primitive p)) := by
  cases h with
  | bool b =>
    exact Write.leaves_append (deliversPresent_of_take (Wire.yields_bool b) Wire.refuses_nil_bool
      (fun _ _ => rfl) fun _ _ htake => Primitive.Taken.read_eq (.bool htake))
  | int n =>
    exact Write.leaves_append (deliversPresent_of_take (yields_int n) Wire.refuses_nil_int
      (fun _ _ => rfl) fun _ _ htake => Primitive.Taken.read_eq (.int htake))
  | f32 bits =>
    exact Write.leaves_append (deliversPresent_of_take (Wire.yields_f32 bits) Wire.refuses_nil_f32
      (fun _ _ => rfl) fun _ _ htake => Primitive.Taken.read_eq (.f32 htake))
  | f64 bits =>
    exact Write.leaves_append (deliversPresent_of_take (Wire.yields_f64 bits) Wire.refuses_nil_f64
      (fun _ _ => rfl) fun _ _ htake => Primitive.Taken.read_eq (.f64 htake))
  | string s =>
    exact (Write.leaves_string s).mono fun _ hyields => deliversPresent_of_take hyields
      Wire.refuses_nil_string (fun _ _ => rfl) fun _ _ htake =>
        Primitive.Taken.read_eq (.string htake)

/-- A text from which a value can be read. -/
theorem leaves_text {t : Ty} {v : Value} {text : String} {parse : String → Except TextError Value}
    (htype : ∀ inside scope, readPresent inside c scope t = scope.run t (readText parse))
    (hparse : parse text = .ok v) : (Write.string text).Leaves (DeliversPresent c under 0 v t) := by
  exact (Write.leaves_string text).mono fun _ hyields => deliversPresent_of_take hyields
    Wire.refuses_nil_string htype fun _ _ htake => readText_eq_ok.mpr ⟨text, htake, hparse⟩

theorem leaves_writeAtom (t : Ty) (v : Value) :
    (writeAtom t v).Leaves (DeliversPresent c under 0 v t) := by
  have h := writesAtom t v
  generalize writeAtom t v = step at h ⊢
  cases h with
  | primitive hput => exact leaves_primitive hput
  | bytes data =>
    exact (Write.leaves_binary data).mono fun _ hyields => deliversPresent_of_take hyields
      Wire.refuses_nil_binary (fun _ _ => rfl) fun _ _ htake =>
        readBytes_eq_ok.mpr ⟨data, htake, rfl⟩
  | decimal d => exact leaves_text (fun _ _ => rfl) (by rw [Decimal.read, Decimal.parse_text])
  | version hrange =>
    exact leaves_text (fun _ _ => rfl) (by rw [Version.read, Version.parse_text hrange])
  | outOfRange | refused => exact Write.leaves_fail _

/-! ## Containers -/

section Containers

variable {cw cr : Catalog} {taken image : Value → Ty → Value}

/-- A loop that writes and a loop that reads, pass by pass over one row. -/
theorem leaves_row {ι α : Type} {row : List ι} {step : ι → Write Unit}
    {item : Nat → Scope → ι → Read α} {tooDeep : Nat → ι → Prop} {result : ι → α}
    (h : ∀ x ∈ row, (step x).Leaves fun bytes => ∀ room scope, under scope.policy →
      (item room scope x).Recovers (tooDeep room x) scope.maxDepth bytes (result x)) :
    (forM row step).Leaves fun bytes => ∀ room scope, under scope.policy →
      (row.mapM (item room scope)).Recovers (∃ x ∈ row, tooDeep room x) scope.maxDepth bytes
        (row.map result) := by
  refine (Write.leaves_forM h).mono fun bytes hbytes room scope hpolicy => ?_
  obtain ⟨parts, hparts, rfl⟩ := hbytes
  exact Read.recovers_mapM (hparts.imp fun _ _ hpart => hpart room scope hpolicy)

theorem map_fst_zipIdx {α β : Type} (f : α → β) (xs : List α) :
    xs.zipIdx.map (fun p => f p.1) = xs.map f := by
  rw [← Function.comp_def, ← List.map_map, List.zipIdx_map_fst]

theorem leaves_writeAll {values : List Value} {t : Ty}
    (hvalues : ∀ v ∈ values,
      (write cw v t).Leaves (Delivers cr under (taken v t).height (image v t) t)) :
    (writeAll cw values t 0).Leaves fun bytes => ∀ room scope, under scope.policy →
      (readAll (read cr room t scope) values.length 0 []).Recovers
        (room < Value.heightAll (values.map (taken · t))) scope.maxDepth bytes
          (values.map (image · t)) := by
  have hstep : ∀ p ∈ values.zipIdx, (Write.within (.index p.2) (write cw p.1 t)).Leaves
      fun bytes => ∀ room scope, under scope.policy →
        (Read.within (.index p.2) (read cr room t scope)).Recovers
          (room ≤ (taken p.1 t).height) scope.maxDepth bytes (image p.1 t) := by
    intro p hp
    refine ((hvalues p.1 (List.fst_mem_of_mem_zipIdx hp)).within _).mono ?_
    exact fun bytes hbytes room scope hpolicy => (hbytes room scope hpolicy).within _
  rw [writeAll_eq_forM]
  refine (leaves_row hstep).mono fun bytes hbytes room scope hpolicy => ?_
  rw [Read.readAll_eq_mapM, List.range_eq_range', ← List.zipIdx_map_snd, List.mapM_map,
    ← map_fst_zipIdx (image · t), ← map_fst_zipIdx (taken · t)]
  refine (hbytes room scope hpolicy).congr ?_
  simp only [Value.lt_heightAll, List.mem_map, exists_exists_and_eq_and]

theorem leaves_writeList {values : List Value} {element : Ty}
    (hvalues : ∀ v ∈ values,
      (write cw v element).Leaves
        (Delivers cr under (taken v element).height (image v element) element)) :
    Write.Leaves
      (do
        Write.arrayHeader values.length
        writeAll cw values element 0)
      (DeliversPresent cr under (Value.list (values.map (taken · element))).height
        (.list (values.map (image · element))) (.list element)) := by
  refine (Write.leaves_arrayHeader _).bind fun _ front hfront => ?_
  refine (leaves_writeAll hvalues).mono fun back hback => ?_
  refine ⟨(hfront.notNil Wire.refuses_nil_arrayHeader).append back, fun room scope hpolicy => ?_⟩
  refine Read.Recovers.after ?_ (Read.recovers_demand hfront scope _ _)
  exact (hback room (scope.child scope.name) hpolicy).map rfl

theorem leaves_writeItems {values : List Value} {types : List Ty}
    (hvalues : ∀ v ∈ values, ∀ t ∈ types,
      (write cw v t).Leaves (Delivers cr under (taken v t).height (image v t) t))
    (hlength : values.length = types.length) :
    (writeItems cw values 0 types).Leaves fun bytes => ∀ room scope, under scope.policy →
      (readItems (read cr room) scope 0 types).Recovers
        (room < Value.heightAll ((values.zip types).map fun p => taken p.1 p.2)) scope.maxDepth
          bytes ((values.zip types).map fun p => image p.1 p.2) := by
  have hstep : ∀ p ∈ (values.zip types).zipIdx,
      (Write.within (.item p.2) (write cw p.1.1 p.1.2)).Leaves
        fun bytes => ∀ room scope, under scope.policy →
          (readItem (read cr room) scope (p.1.2, p.2)).Recovers
            (room ≤ (taken p.1.1 p.1.2).height) scope.maxDepth bytes (image p.1.1 p.1.2) := by
    intro p hp
    obtain ⟨hv, ht⟩ := List.of_mem_zip (List.fst_mem_of_mem_zipIdx hp)
    refine ((hvalues _ hv _ ht).within _).mono fun bytes hbytes room scope hpolicy => ?_
    exact (hbytes room (scope.child _) hpolicy).within _
  have htypes : types.zipIdx = (values.zip types).zipIdx.map (Prod.map Prod.snd id) := by
    rw [← List.zipIdx_map, List.map_snd_zip hlength.ge]
  rw [writeItems_eq_forM]
  refine (leaves_row hstep).mono fun bytes hbytes room scope hpolicy => ?_
  rw [readItems_eq_mapM, htypes, List.mapM_map,
    ← map_fst_zipIdx fun p : Value × Ty => image p.1 p.2,
    ← map_fst_zipIdx fun p : Value × Ty => taken p.1 p.2]
  refine (hbytes room scope hpolicy).congr ?_
  simp only [Value.lt_heightAll, List.mem_map, exists_exists_and_eq_and]

theorem leaves_writeTuple {values : List Value} {types : List Ty}
    (hvalues : ∀ v ∈ values, ∀ t ∈ types,
      (write cw v t).Leaves (Delivers cr under (taken v t).height (image v t) t))
    (hlength : values.length = types.length) :
    Write.Leaves
      (do
        Write.arrayHeader types.length
        writeItems cw values 0 types)
      (DeliversPresent cr under (Value.tuple ((values.zip types).map fun p => taken p.1 p.2)).height
        (.tuple ((values.zip types).map fun p => image p.1 p.2)) (.tuple types)) := by
  refine (Write.leaves_arrayHeader _).bind fun _ front hfront => ?_
  refine (leaves_writeItems hvalues hlength).mono fun back hback => ?_
  refine ⟨(hfront.notNil Wire.refuses_nil_arrayHeader).append back, fun room scope hpolicy => ?_⟩
  refine Read.Recovers.after ?_ (Read.recovers_demand hfront scope _ _)
  simp only [if_true]
  exact (hback room scope hpolicy).map rfl

theorem leaves_writeEntries {entries : List (Value × Value)} {key value : Ty}
    (hentries : ∀ e ∈ entries,
      (write cw e.1 key).Leaves (Delivers cr under (taken e.1 key).height (image e.1 key) key) ∧
        (write cw e.2 value).Leaves
          (Delivers cr under (taken e.2 value).height (image e.2 value) value)) :
    (writeEntries cw entries key value 0).Leaves fun bytes =>
      ∀ room scope, under scope.policy →
        (readEntries (read cr room key scope) (read cr room value scope) entries.length 0
          []).Recovers
            (room < Value.heightEntries (entries.map fun e => (taken e.1 key, taken e.2 value)))
            scope.maxDepth bytes (entries.map fun e => (image e.1 key, image e.2 value)) := by
  have hstep : ∀ p ∈ entries.zipIdx, (writeEntry cw key value p).Leaves
      fun bytes => ∀ room scope, under scope.policy →
        (Read.entry (read cr room key scope) (read cr room value scope) p.2).Recovers
          (room ≤ (taken p.1.1 key).height ∨ room ≤ (taken p.1.2 value).height) scope.maxDepth
            bytes (image p.1.1 key, image p.1.2 value) := by
    intro p hp
    obtain ⟨hkey, hvalue⟩ := hentries p.1 (List.fst_mem_of_mem_zipIdx hp)
    refine (hkey.within _).bind fun _ front hfront => (hvalue.within _).mono fun back hback => ?_
    intro room scope hpolicy
    have hk := (hfront room scope hpolicy).within (.mapKey p.2)
    have hv := (hback room scope hpolicy).within (.mapValue p.2)
    exact hk.bind (hv.map rfl)
  rw [writeEntries_eq_forM]
  refine (leaves_row hstep).mono fun bytes hbytes room scope hpolicy => ?_
  rw [Read.readEntries_eq_mapM, List.range_eq_range', ← List.zipIdx_map_snd, List.mapM_map,
    ← map_fst_zipIdx fun e : Value × Value => (image e.1 key, image e.2 value),
    ← map_fst_zipIdx fun e : Value × Value => (taken e.1 key, taken e.2 value)]
  refine (hbytes room scope hpolicy).congr ?_
  simp only [Value.lt_heightEntries, List.mem_map, exists_exists_and_eq_and]

theorem leaves_writeMap {entries : List (Value × Value)} {key value : Ty}
    (hentries : ∀ e ∈ entries,
      (write cw e.1 key).Leaves (Delivers cr under (taken e.1 key).height (image e.1 key) key) ∧
        (write cw e.2 value).Leaves
          (Delivers cr under (taken e.2 value).height (image e.2 value) value)) :
    Write.Leaves
      (do
        Write.mapHeader entries.length
        writeEntries cw entries key value 0)
      (DeliversPresent cr under
        (Value.map (entries.map fun e => (taken e.1 key, taken e.2 value))).height
        (.map (entries.map fun e => (image e.1 key, image e.2 value))) (.map key value)) := by
  refine (Write.leaves_mapHeader _).bind fun _ front hfront => ?_
  refine (leaves_writeEntries hentries).mono fun back hback => ?_
  refine ⟨(hfront.notNil Wire.refuses_nil_mapHeader).append back, fun room scope hpolicy => ?_⟩
  refine Read.Recovers.after ?_ (Read.recovers_demand hfront scope _ _)
  exact (hback room (scope.child scope.name) hpolicy).map rfl

/-- What has a key of its own is the one found under it. -/
theorem find?_key {α : Type} (key : α → String) {all : List α} {a : α} (ha : a ∈ all)
    (hown : ∀ b ∈ all, key b = key a → b = a) : all.find? (key · == key a) = some a := by
  have hsome : (all.find? (key · == key a)).isSome = true :=
    List.find?_isSome.mpr ⟨a, ha, beq_self_eq_true (key a)⟩
  obtain ⟨b, hb⟩ := Option.isSome_iff_exists.mp hsome
  have hkey : key b = key a := by simpa using List.find?_some hb
  rw [hb, hown b (List.mem_of_find?_eq_some hb) hkey]

theorem readPresent_union {inside : Ty → Scope → Read Value} {t : Ty} {isNullable : Bool}
    {alternatives : List Ty} (h : Provider.unionShape? t = some (isNullable, alternatives))
    (scope : Scope) :
    readPresent inside c scope t = readUnion inside t isNullable alternatives scope := by
  unfold Provider.unionShape? at h
  split at h
  · cases h
    rfl
  · cases h
    rfl
  · cases h

theorem unionShape?_tagsDistinct {t : Ty} (ht : Ty.Throughout c Ty.TagsDistinct t)
    {isNullable : Bool} {alternatives : List Ty}
    (h : Provider.unionShape? t = some (isNullable, alternatives)) :
    Ty.Throughout c Ty.TagsDistinct (.union alternatives) := by
  unfold Provider.unionShape? at h
  split at h
  · cases h
    exact ht
  · cases h
    exact ht.part (Ty.Indirect.inner _).part
  · cases h

theorem leaves_writeUnion {t alternative : Ty} {held : Value} {isNullable : Bool}
    {alternatives : List Ty} (hshape : Provider.unionShape? t = some (isNullable, alternatives))
    (htags : (Ty.union alternatives).TagsDistinct) (hmem : alternative ∈ alternatives)
    (hheld : (write cw held alternative).Leaves
      (Delivers cr under (taken held alternative).height (image held alternative) alternative)) :
    Write.Leaves
      (do
        Write.arrayHeader 2
        Write.string alternative.tag
        Write.within (.alternative alternative.tag) (write cw held alternative))
      (DeliversPresent cr under (Value.union alternative (taken held alternative)).height
        (.union alternative (image held alternative)) t) := by
  refine (Write.leaves_arrayHeader 2).bind fun _ front hfront => ?_
  refine (Write.leaves_string _).bind fun _ middle hmiddle => ?_
  refine (hheld.within _).mono fun back hback => ?_
  refine ⟨(hfront.notNil Wire.refuses_nil_arrayHeader).append _, fun room scope hpolicy => ?_⟩
  rw [readPresent_union hshape]
  have hfind := find?_key Ty.tag hmem fun b hb htag => htags _ rfl b hb alternative hmem htag
  refine Read.Recovers.after ?_ (Read.recovers_demand hfront scope _ _)
  simp only [if_true]
  refine Read.Recovers.after ?_ (Read.recovers_demand hmiddle scope _ _)
  simp only [readAlternative, hfind]
  have hitem := (hback room (scope.child scope.name) hpolicy).within (.alternative alternative.tag)
  exact Read.Recovers.congr (hitem.map rfl) Nat.lt_succ_iff.symm

end Containers

/-! ## Records -/

theorem Read.recovers_skip {bytes : List UInt8} (h : Whole 1 bytes) (scope : Scope) (target : Ty)
    {limit : Nat} : (Read.skip scope target).Recovers False limit bytes () := by
  intro position rest
  refine ⟨fun _ => ?_, False.elim⟩
  simp only [Read.skip, h.skip position rest]

/-- A field of a record is the one found under its name. -/
theorem find?_field {fields : List Field} (hnodup : (fields.map (·.name)).Nodup) {f : Field}
    (hf : f ∈ fields) : fields.find? (·.name == f.name) = some f :=
  find?_key Field.name hf fun _ hg hname => List.inj_on_of_nodup_map hnodup hg hf hname

/-- Where a reader knows a field under a name, it knows it as the writer does. It ignores the fields
that only the writer has. -/
structure Meets (under : Policy → Prop) (fields : List Field) (reader : RecordDef) : Prop where
  shared : ∀ f ∈ fields, ∀ g ∈ reader.fields, g.name = f.name → g.type = f.type
  ignored : ∀ f ∈ fields, reader.declares f.name = false → ∀ policy, under policy → policy = .ignore

/-- The fields of a record value that the reader knows, in the order of their declaration. -/
structure Known (reader : RecordDef) (fields : List Field) (values : List (String × Value))
    (pairs : List (Field × Value)) : Prop where
  fields : pairs.map (·.1) = fields.filter (reader.declares ·.name)
  values : ∀ p ∈ pairs, Fields.get? p.1.name values = some p.2

theorem find?_eq_none_of_unknown {reader : RecordDef} {name : String}
    (h : reader.declares name = false) : reader.fields.find? (·.name == name) = none := by
  simpa [RecordDef.declares] using h

/-- A field that the reader knows is read as the type as which it is written. -/
theorem Meets.exists_known {fields : List Field} {reader : RecordDef}
    (h : Meets under fields reader) {f : Field} (hf : f ∈ fields)
    (hknown : reader.declares f.name = true) :
    ∃ g, reader.fields.find? (·.name == f.name) = some g ∧ g.type = f.type := by
  have hsome : (reader.fields.find? (·.name == f.name)).isSome = true := by
    rw [List.isSome_find?]
    exact hknown
  obtain ⟨g, hfind⟩ := Option.isSome_iff_exists.mp hsome
  have hname : g.name = f.name := by simpa using List.find?_some hfind
  exact ⟨g, hfind, h.shared f hf g (List.mem_of_find?_eq_some hfind) hname⟩

section Known

variable {reader : RecordDef} {f : Field} {fields : List Field} {values : List (String × Value)}
  {pairs : List (Field × Value)}

theorem Known.unknown (h : Known reader fields values pairs)
    (hunknown : reader.declares f.name = false) : Known reader (f :: fields) values pairs := by
  refine ⟨?_, h.values⟩
  rw [List.filter_cons, if_neg (Bool.eq_false_iff.mp hunknown), h.fields]

theorem Known.known (h : Known reader fields values pairs)
    (hknown : reader.declares f.name = true) {v : Value}
    (hget : Fields.get? f.name values = some v) :
    Known reader (f :: fields) values ((f, v) :: pairs) := by
  refine ⟨?_, List.forall_mem_cons.mpr ⟨hget, h.values⟩⟩
  rw [List.filter_cons, if_pos hknown, List.map_cons, h.fields]

end Known

section Records

variable {cw cr : Catalog} {taken image : Value → Ty → Value} {writer reader : RecordDef}
  {values : List (String × Value)}

def images (image : Value → Ty → Value) (pairs : List (Field × Value)) : List (String × Value) :=
  pairs.map fun p => (p.1.name, image p.2 p.1.type)

theorem images_cons (f : Field) (v : Value) (pairs : List (Field × Value)) :
    images image ((f, v) :: pairs) = (f.name, image v f.type) :: images image pairs := rfl

theorem leaves_writeFields {record : TypeName} {fields : List Field}
    (hmeets : Meets under fields reader) (hnodup : (fields.map (·.name)).Nodup)
    (hvalues : ∀ f ∈ fields, reader.declares f.name = true → ∀ v, (f.name, v) ∈ values →
      (write cw v f.type).Leaves
        (Delivers cr under (taken v f.type).height (image v f.type) f.type)) :
    (writeFields record (fieldWriters cw values) fields).Leaves fun bytes =>
      (∀ f ∈ fields, ∃ v, Fields.get? f.name values = some v) ∧
      ∃ pairs, Known reader fields values pairs ∧
        ∀ room scope target filled, under scope.policy →
          (∀ f ∈ fields, Fields.contains f.name filled = false) →
          (readFields (read cr room) scope target reader.fields fields.length filled).Recovers
            (room < Value.heightFields (images taken pairs)) scope.maxDepth bytes
            ((images image pairs).reverse ++ filled) := by
  induction fields with
  | nil =>
    refine Write.leaves_pure ⟨List.forall_mem_nil _, [], ⟨rfl, List.forall_mem_nil _⟩,
      fun room scope target filled _ _ => ?_⟩
    exact (Read.recovers_pure filled).congr (by simp [images, Value.heightFields])
  | cons f fields ih =>
    obtain ⟨hfresh, hrest⟩ := List.nodup_cons.mp hnodup
    have hfields := ih
      ⟨fun g hg => hmeets.shared g (List.mem_cons_of_mem _ hg),
        fun g hg => hmeets.ignored g (List.mem_cons_of_mem _ hg)⟩
      hrest fun g hg => hvalues g (List.mem_cons_of_mem _ hg)
    rw [fieldWriters_eq_map] at hfields ⊢
    simp only [writeFields, Fields.get?_map]
    cases hget : Fields.get? f.name values with
    | none => exact Write.leaves_fail _
    | some v =>
      refine (Write.leaves_string f.name).bind fun _ front hfront => ?_
      cases hknown : reader.declares f.name with
      | false =>
        have hignored := hmeets.ignored f List.mem_cons_self hknown
        refine ((whole_write v f.type).within _).bind fun _ middle hmiddle => ?_
        refine hfields.mono fun back hwritten => ?_
        obtain ⟨hpresent, pairs, hpairs, hback⟩ := hwritten
        refine ⟨List.forall_mem_cons.mpr ⟨⟨v, hget⟩, hpresent⟩, pairs, hpairs.unknown hknown,
          fun room scope target filled hpolicy hfilled => ?_⟩
        have htail := hback room scope target filled hpolicy
          fun g hg => hfilled g (List.mem_cons_of_mem _ hg)
        refine Read.Recovers.after ?_ (Read.recovers_demand hfront scope target _)
        simp only [find?_eq_none_of_unknown hknown, hignored _ hpolicy, reduceCtorEq, if_false]
        exact Read.Recovers.after htail (Read.recovers_skip hmiddle scope target)
      | true =>
        obtain ⟨g, hfind, htype⟩ := hmeets.exists_known List.mem_cons_self hknown
        have hvalue := hvalues f List.mem_cons_self hknown v (Fields.mem_of_get? hget)
        refine (hvalue.within _).bind fun _ middle hmiddle => ?_
        refine hfields.mono fun back hwritten => ?_
        obtain ⟨hpresent, pairs, hpairs, hback⟩ := hwritten
        refine ⟨List.forall_mem_cons.mpr ⟨⟨v, hget⟩, hpresent⟩, (f, v) :: pairs,
          hpairs.known hknown hget, fun room scope target filled hpolicy hfilled => ?_⟩
        have hnew : ∀ g ∈ fields,
            Fields.contains g.name ((f.name, image v f.type) :: filled) = false := by
          intro g hg
          have hmem : g.name ∈ fields.map (·.name) := List.mem_map_of_mem hg
          have hne : f.name ≠ g.name := by
            intro heq
            rw [← heq] at hmem
            exact hfresh hmem
          have hold := hfilled g (List.mem_cons_of_mem _ hg)
          simp only [Fields.contains, List.any_cons, beq_eq_false_iff_ne.mpr hne,
            Bool.false_or] at hold ⊢
          exact hold
        have hitem := (hmiddle room (scope.child f.name) hpolicy).within (.field f.name)
        have htail := hback room scope target ((f.name, image v f.type) :: filled) hpolicy hnew
        rw [images_cons, images_cons, List.reverse_cons, List.append_assoc]
        refine Read.Recovers.after ?_ (Read.recovers_demand hfront scope target _)
        simp only [hfind, htype, hfilled f List.mem_cons_self, Bool.false_eq_true, if_false]
        refine Read.Recovers.congr (hitem.bind htail) ?_
        simp only [Value.heightFields]
        omega

/-- A record is written with all the fields that the writer declares and no others. It is read as
the record that is completed from the known ones. -/
theorem leaves_writeRecord {name : TypeName} (hwriter : cw.find? name = some writer)
    (hreader : cr.find? name = some reader) (hmeets : Meets under writer.fields reader)
    (hnodup : (writer.fields.map (·.name)).Nodup)
    (hvalues : ∀ f ∈ writer.fields, reader.declares f.name = true → ∀ v, (f.name, v) ∈ values →
      (write cw v f.type).Leaves
        (Delivers cr under (taken v f.type).height (image v f.type) f.type)) :
    (writeRecord cw name (fieldWriters cw values)).Leaves fun bytes =>
      (∀ p ∈ values, writer.declares p.1 = true) ∧
      (∀ f ∈ writer.fields, ∃ v, Fields.get? f.name values = some v) ∧
      ∃ pairs, Known reader writer.fields values pairs ∧
        ∀ complete, completeRecord (images image pairs).reverse reader.fields [] = .ok complete →
          DeliversPresent cr under (Value.record (images taken pairs)).height (.record complete)
            (.record name) bytes := by
  unfold writeRecord
  rw [hwriter]
  simp only
  split
  · exact Write.leaves_fail _
  · rename_i hnone
    have hdeclared : ∀ p ∈ values, writer.declares p.1 = true := by
      rw [fieldWriters_eq_map] at hnone
      simpa using hnone
    refine (Write.leaves_mapHeader _).bind fun _ front hfront => ?_
    refine (leaves_writeFields hmeets hnodup hvalues).mono
      fun back ⟨hpresent, pairs, hpairs, hback⟩ => ?_
    refine ⟨hdeclared, hpresent, pairs, hpairs, fun complete hcomplete => ?_⟩
    refine ⟨(hfront.notNil Wire.refuses_nil_mapHeader).append back, fun room scope hpolicy => ?_⟩
    have hread := hback room scope (.record name) [] hpolicy fun _ _ => rfl
    rw [List.append_nil] at hread
    simp only [readPresent, readRecord, hreader]
    refine Read.Recovers.after ?_ (Read.recovers_demand hfront scope _ _)
    refine hread.map ?_
    simp only [hcomplete]

end Records

end Plain

end SchemaPack
