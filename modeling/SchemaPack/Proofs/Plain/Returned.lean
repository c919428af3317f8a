import SchemaPack.Proofs.Plain.Recovery
import SchemaPack.Proofs.Plain.RoundTrip
import SchemaPack.Proofs.Plain.Traversal
import SchemaPack.Proofs.Portable
import SchemaPack.Proofs.Wire.Bounds

/-!
What reading can return, whatever the input. A property of the values of types holds of every value
that is read if it is kept by each way in which a value comes about: off the wire, where all lengths
fit, by putting a container together, or by filling in what the payload leaves out.
-/
namespace SchemaPack

open Wire (Cursor)

/-! ## Steps and their results -/

namespace Read

/-- Wherever the step begins, a result has the property. -/
def Returns {α : Type} (step : Read α) (P : α → Prop) : Prop :=
  ∀ cursor a after, step cursor = .ok a after → P a

variable {α β : Type} {P : α → Prop} {Q : β → Prop}

theorem Returns.mono {step : Read α} (h : step.Returns P) {P' : α → Prop}
    (hPP' : ∀ a, P a → P' a) : step.Returns P' :=
  fun cursor a after hok => hPP' a (h cursor a after hok)

theorem returns_pure {a : α} (h : P a) : Returns (pure a) P := by
  intro cursor b after hok
  cases hok
  exact h

theorem returns_throw (e : CodecError) : Returns (throw e : Read α) P := by
  intro cursor a after hok
  cases hok

theorem Returns.bind {first : Read α} {second : α → Read β} (hfirst : first.Returns P)
    (hsecond : ∀ a, P a → (second a).Returns Q) : Returns (first >>= second) Q := by
  intro cursor b after hok
  obtain ⟨a, middle, hmiddle, hafter⟩ := Outcome.bind_eq_ok.mp hok
  exact hsecond a (hfirst _ _ _ hmiddle) _ _ _ hafter

theorem Returns.within {step : Read α} (h : step.Returns P) (s : Segment) :
    (Read.within s step).Returns P :=
  fun cursor a after hok => h cursor a after (Outcome.adaptExcept_eq_ok.mp hok)

theorem returns_demand {take : Cursor → Option (α × Cursor)}
    (h : ∀ cursor a after, take cursor = some (a, after) → P a) (scope : Scope) (target : Ty)
    (fault : Wire.Format → ReadFault) : (demand take scope target fault).Returns P :=
  fun cursor a after hok => h cursor a after (demand_eq_ok.mp hok)

theorem returns_arrayHeader (scope : Scope) (target : Ty) (fault : Wire.Format → ReadFault) :
    (demand Cursor.arrayHeader? scope target fault).Returns (· < Wire.lengthBound) :=
  returns_demand (fun _ _ _ => Wire.arrayHeader?_lt) scope target fault

theorem returns_mapHeader (scope : Scope) (target : Ty) (fault : Wire.Format → ReadFault) :
    (demand Cursor.mapHeader? scope target fault).Returns (· < Wire.lengthBound) :=
  returns_demand (fun _ _ _ => Wire.mapHeader?_lt) scope target fault

theorem returns_string (scope : Scope) (target : Ty) (fault : Wire.Format → ReadFault) :
    (demand Cursor.string? scope target fault).Returns (·.utf8ByteSize < Wire.lengthBound) :=
  returns_demand (fun _ _ _ => Wire.string?_lt) scope target fault

theorem returns_skip (scope : Scope) (target : Ty) :
    (skip scope target).Returns fun _ => True := fun _ _ _ _ => trivial

theorem returns_run {P : Value → Prop} {step : Cursor → Except ReadFault Value × Cursor}
    (h : ∀ cursor v after, step cursor = (.ok v, after) → P v) (scope : Scope) (target : Ty) :
    (scope.run target step).Returns P :=
  fun cursor v after hok => h cursor v after (Scope.run_eq_ok.mp hok)

/-- Every pass of a loop adds a result of its own. -/
theorem returns_mapM {ι : Type} {xs : List ι} {step : ι → Read β} {R : β → ι → Prop}
    (h : ∀ x ∈ xs, (step x).Returns (R · x)) :
    (xs.mapM step).Returns fun results => List.Forall₂ R results xs := by
  induction xs with
  | nil => exact returns_pure .nil
  | cons x xs ih =>
    have hrest := ih fun y hy => h y (List.mem_cons_of_mem _ hy)
    rw [List.mapM_cons]
    refine (h x List.mem_cons_self).bind fun b hb => hrest.bind fun bs hbs => ?_
    exact returns_pure (.cons hb hbs)

/-- What every pass of a loop keeps holds of its result. The passes are counted. -/
theorem returns_foldlM {ι : Type} {step : β → ι → Read β} {I : Nat → β → Prop}
    (h : ∀ n b x, I n b → (step b x).Returns (I (n + 1))) (xs : List ι) {n : Nat} {b : β}
    (hb : I n b) : (xs.foldlM step b).Returns (I (n + xs.length)) := by
  induction xs generalizing n b with
  | nil => exact returns_pure hb
  | cons x xs ih =>
    rw [List.foldlM_cons, List.length_cons, Nat.add_comm xs.length, ← Nat.add_assoc]
    exact (h n b x hb).bind fun a ha => ih ha

theorem forall_of_forall₂ {as : List α} {bs : List β} (h : List.Forall₂ (fun a _ => P a) as bs) :
    ∀ a ∈ as, P a :=
  ((List.forall₂_and_left as bs).mp (h.imp fun _ _ ha => ⟨ha, trivial⟩)).1

/-- The items of a list are as many as announced, and each is returned by the step for an item. -/
theorem returns_readAll {P : Value → Prop} {item : Read Value} (h : item.Returns P) (count : Nat) :
    (readAll item count 0 []).Returns fun values => values.length = count ∧ ∀ v ∈ values, P v := by
  rw [readAll_eq_mapM]
  refine (returns_mapM fun i _ => h.within (.index i)).mono fun values hvalues => ?_
  exact ⟨hvalues.length_eq.trans List.length_range, forall_of_forall₂ hvalues⟩

theorem returns_readEntries {P Q : Value → Prop} {key value : Read Value} (hkey : key.Returns P)
    (hvalue : value.Returns Q) (count : Nat) :
    (readEntries key value count 0 []).Returns fun entries =>
      entries.length = count ∧ ∀ e ∈ entries, P e.1 ∧ Q e.2 := by
  have hentry : ∀ i ∈ List.range count, (entry key value i).Returns fun e => P e.1 ∧ Q e.2 :=
    fun i _ => (hkey.within _).bind fun k hk => (hvalue.within _).bind fun v hv =>
      returns_pure ⟨hk, hv⟩
  rw [readEntries_eq_mapM]
  refine (returns_mapM hentry).mono fun entries hentries => ?_
  exact ⟨hentries.length_eq.trans List.length_range, forall_of_forall₂ hentries⟩

end Read

/-! ## Values with no values inside -/

/-- A value of a type whose values hold no others, such as can be read. -/
def Ty.Atom (t : Ty) (v : Value) : Prop := t.admitsAtom v = true ∧ v.Portable

theorem Version.inRange_of_parse {input : String} {v : Version} (h : parse input = .ok v) :
    v.InRange := by
  unfold parse at h
  simp only at h
  split at h
  · split at h
    · cases h
    · split at h
      · rename_i hrange
        cases h
        exact checkRange_eq_ok.mp hrange
      · cases h
  · cases h

namespace Plain

theorem atom_of_primitive {p : Primitive} {cursor after : Cursor} {v : Value}
    (h : p.read cursor = (.ok v, after)) : (Ty.primitive p).Atom v := by
  cases Primitive.read_eq_ok.mp h with
  | bool => exact ⟨rfl, Value.portable_bool _⟩
  | int => exact ⟨beq_self_eq_true _, Value.portable_int _ _⟩
  | f32 => exact ⟨rfl, Value.portable_f32 _⟩
  | f64 | widened => exact ⟨rfl, Value.portable_f64 _⟩
  | string htake => exact ⟨rfl, Value.portable_string.mpr (Wire.string?_lt htake)⟩

theorem atom_of_bytes {cursor after : Cursor} {v : Value}
    (h : readBytes cursor = (.ok v, after)) : Ty.bytes.Atom v := by
  obtain ⟨data, htake, rfl⟩ := readBytes_eq_ok.mp h
  exact ⟨rfl, Value.portable_bytes.mpr (Wire.binary?_lt htake)⟩

/-- A text stands for a value that its parser has checked. -/
theorem atom_of_text {t : Ty} {parse : String → Except TextError Value}
    (hparse : ∀ text v, parse text = .ok v → t.Atom v) {cursor after : Cursor} {v : Value}
    (h : readText parse cursor = (.ok v, after)) : t.Atom v := by
  obtain ⟨text, -, hok⟩ := readText_eq_ok.mp h
  exact hparse text v hok

theorem atom_of_decimal (text : String) (v : Value) (h : Decimal.read text = .ok v) :
    Ty.decimal.Atom v := by
  unfold Decimal.read at h
  split at h
  · cases h
    exact ⟨rfl, Value.portable_decimal _⟩
  · cases h

theorem atom_of_version (text : String) (v : Value) (h : Version.read text = .ok v) :
    Ty.version.Atom v := by
  unfold Version.read at h
  split at h
  · rename_i hparse
    cases h
    exact ⟨rfl, Value.portable_version.mpr (Version.inRange_of_parse hparse)⟩
  · cases h

/-! ## What is kept by reading -/

/-- The fields of a record that has been read. Each was taken off the wire or is what its field
falls back to, and there are more than can be announced only if some were filled in. -/
structure Completed (P : Ty → Value → Prop) (r : RecordDef) (values : List (String × Value)) :
    Prop where
  sorted : Fields.Sorted values
  declared : ∀ p ∈ values, r.declares p.1 = true
  filled : ∀ f ∈ r.fields, ∃ v, Fields.get? f.name values = some v ∧
    (f.name.utf8ByteSize < Wire.lengthBound ∧ P f.type v ∨ f.fallback = some v)
  few : values.length < Wire.lengthBound ∨
    ∃ f ∈ r.fields, ∃ v, Fields.get? f.name values = some v ∧ f.fallback = some v

/-- Every field of the value is a field of the record, with what was taken or filled in for it. -/
theorem Completed.of_mem {P : Ty → Value → Prop} {r : RecordDef} {values : List (String × Value)}
    (h : Completed P r values) {p : String × Value} (hp : p ∈ values) :
    ∃ f ∈ r.fields, f.name = p.1 ∧
      (f.name.utf8ByteSize < Wire.lengthBound ∧ P f.type p.2 ∨ f.fallback = some p.2) := by
  obtain ⟨f, hf, hname⟩ := List.any_eq_true.mp (h.declared p hp)
  obtain ⟨v, hget, hvalue⟩ := h.filled f hf
  rw [beq_iff_eq.mp hname, h.sorted.get?_of_mem hp] at hget
  cases hget
  exact ⟨f, hf, beq_iff_eq.mp hname, hvalue⟩

/-- The property holds of all values that arise in reading if it holds of their parts. -/
structure KeptByReading (c : Catalog) (P : Ty → Value → Prop) : Prop where
  atom : ∀ {t v}, t.Atom v → P t v
  null : ∀ {t}, t.isNullable = true → P t .null
  nullable : ∀ {t v}, P t v → P (.nullable t) v
  tuple : ∀ {types values}, values.length < Wire.lengthBound →
    List.Forall₂ (fun v t => P t v) values types → P (.tuple types) (.tuple values)
  union : ∀ {t isNullable alternatives alternative held},
    Provider.unionShape? t = some (isNullable, alternatives) → alternative ∈ alternatives →
      alternative.tag.utf8ByteSize < Wire.lengthBound → P alternative held →
        P t (.union alternative held)
  list : ∀ {t values}, values.length < Wire.lengthBound → (∀ v ∈ values, P t v) →
    P (.list t) (.list values)
  map : ∀ {key value entries}, entries.length < Wire.lengthBound →
    (∀ e ∈ entries, P key e.1 ∧ P value e.2) → P (.map key value) (.map entries)
  record : ∀ {name r values}, c.find? name = some r → Completed P r values →
    P (.record name) (.record values)

variable {c : Catalog} {P : Ty → Value → Prop} {inside : Ty → Scope → Read Value}

theorem returns_readItems {types : List Ty}
    (h : ∀ t ∈ types, ∀ scope, (inside t scope).Returns (P t)) (scope : Scope) :
    (readItems inside scope 0 types).Returns fun values =>
      List.Forall₂ (fun v t => P t v) values types := by
  have hitem : ∀ p ∈ types.zipIdx, (readItem inside scope p).Returns (P p.1) :=
    fun p hp => (h p.1 (List.fst_mem_of_mem_zipIdx hp) _).within _
  rw [readItems_eq_mapM]
  refine (Read.returns_mapM hitem).mono fun values hvalues => ?_
  rwa [← List.zipIdx_map_fst 0 types, List.forall₂_map_right_iff]

theorem returns_readTuple (hkept : KeptByReading c P) {types : List Ty}
    (h : ∀ t ∈ types, ∀ scope, (inside t scope).Returns (P t)) (scope : Scope) :
    (readTuple inside types scope).Returns (P (.tuple types)) := by
  refine (Read.returns_arrayHeader _ _ _).bind fun count hcount => ?_
  split
  · rename_i heq
    refine (returns_readItems h scope).bind fun values hvalues => Read.returns_pure ?_
    refine hkept.tuple ?_ hvalues
    rwa [hvalues.length_eq, ← heq]
  · exact Read.returns_throw _

/-- Fields as they are read: each is the one that its name stands for. -/
def Taken (P : Ty → Value → Prop) (fields : List Field) (values : List (String × Value)) : Prop :=
  ∀ p ∈ values, p.1.utf8ByteSize < Wire.lengthBound ∧
    ∃ f, fields.find? (·.name == p.1) = some f ∧ P f.type p.2

theorem returns_readField {fields : List Field}
    (h : ∀ f ∈ fields, ∀ scope, (inside f.type scope).Returns (P f.type)) (scope : Scope)
    (target : Ty) {count : Nat} {before : List (String × Value)}
    (hbefore : before.length ≤ count ∧ Taken P fields before) :
    (readField inside scope target fields before).Returns fun values =>
      values.length ≤ count + 1 ∧ Taken P fields values := by
  refine (Read.returns_string _ _ _).bind fun name hname => ?_
  split
  · split
    · exact Read.returns_throw _
    · refine (Read.returns_skip _ _).bind fun _ _ => Read.returns_pure ?_
      exact ⟨Nat.le_succ_of_le hbefore.1, hbefore.2⟩
  · rename_i f hfind
    split
    · exact Read.returns_throw _
    · have hfield := h f (List.mem_of_find?_eq_some hfind) (scope.child name)
      refine (hfield.within _).bind fun v hv => Read.returns_pure ⟨?_, ?_⟩
      · exact Nat.succ_le_succ hbefore.1
      · exact List.forall_mem_cons.mpr ⟨⟨hname, f, hfind, hv⟩, hbefore.2⟩

theorem returns_readFields {fields : List Field}
    (h : ∀ f ∈ fields, ∀ scope, (inside f.type scope).Returns (P f.type)) (scope : Scope)
    (target : Ty) (count : Nat) :
    (readFields inside scope target fields count []).Returns fun values =>
      values.length ≤ count ∧ Taken P fields values := by
  have hall := Read.returns_foldlM (I := fun n values => values.length ≤ n ∧ Taken P fields values)
    (fun n before _ => returns_readField h scope target) (List.replicate count ())
    (b := []) ⟨Nat.le_refl 0, nofun⟩
  rwa [← readFields_eq_foldlM, List.length_replicate, Nat.zero_add] at hall

/-- What was taken for a field has its type. -/
theorem Taken.of_get? {fields : List Field} {taken : List (String × Value)}
    (h : Taken P fields taken) (hnodup : (fields.map (·.name)).Nodup) {f : Field} (hf : f ∈ fields)
    {v : Value} (hget : Fields.get? f.name taken = some v) :
    f.name.utf8ByteSize < Wire.lengthBound ∧ P f.type v := by
  obtain ⟨hname, g, hfind, hv⟩ := h _ (Fields.mem_of_get? hget)
  rw [find?_field hnodup hf] at hfind
  cases hfind
  exact ⟨hname, hv⟩

/-- A record that was put together from fields that were taken. -/
theorem completed_of_taken {r : RecordDef} (hnodup : (r.fields.map (·.name)).Nodup)
    {taken values : List (String × Value)} (htaken : Taken P r.fields taken)
    (hfew : taken.length < Wire.lengthBound)
    (hcomplete : completeRecord taken r.fields [] = .ok values) : Completed P r values := by
  obtain ⟨hsorted, -, hfields⟩ := get?_of_completeRecord hcomplete Fields.sorted_nil hnodup
  obtain ⟨hdeclared, hlength⟩ := declared_of_completeRecord hcomplete hnodup
  refine ⟨hsorted, hdeclared, fun f hf => ?_, ?_⟩
  · obtain ⟨v, hget, hvalue⟩ := hfields f hf
    refine ⟨v, hget, ?_⟩
    cases htake : Fields.get? f.name taken with
    | none =>
      rw [htake, Option.none_or] at hvalue
      exact Or.inr hvalue
    | some w =>
      rw [htake, Option.some_or] at hvalue
      cases hvalue
      exact Or.inl (htaken.of_get? hnodup hf htake)
  · by_cases hall : ∀ f ∈ r.fields, ∃ v, Fields.get? f.name taken = some v
    · -- all fields were taken, and there are no more of them than were announced
      left
      rw [hlength]
      exact Nat.lt_of_le_of_lt (length_le_of_get? hnodup hall) hfew
    · right
      simp only [not_forall, not_exists] at hall
      obtain ⟨f, hf, hmissing⟩ := hall
      obtain ⟨v, hget, hvalue⟩ := hfields f hf
      rw [Option.eq_none_iff_forall_ne_some.mpr hmissing, Option.none_or] at hvalue
      exact ⟨f, hf, v, hget, hvalue⟩

theorem returns_readRecord (hc : c.FieldsDistinct) (hkept : KeptByReading c P) {name : TypeName}
    (h : ∀ r, c.find? name = some r → ∀ f ∈ r.fields, ∀ scope,
      (inside f.type scope).Returns (P f.type))
    (scope : Scope) : (readRecord inside c name scope).Returns (P (.record name)) := by
  unfold readRecord
  split
  · exact Read.returns_throw _
  · rename_i r hfind
    refine (Read.returns_mapHeader _ _ _).bind fun count hcount => ?_
    refine (returns_readFields (h r hfind) scope _ count).bind fun taken htaken => ?_
    obtain ⟨hlength, htaken⟩ := htaken
    split
    · rename_i values hcomplete
      refine Read.returns_pure (hkept.record hfind ?_)
      exact completed_of_taken (hc r (Catalog.mem_of_find? hfind)) htaken
        (Nat.lt_of_le_of_lt hlength hcount) hcomplete
    · exact Read.returns_throw _

theorem isNullable_of_unionShape? {t : Ty} {isNullable : Bool} {alternatives : List Ty}
    (hshape : Provider.unionShape? t = some (isNullable, alternatives)) :
    t.isNullable = isNullable := by
  unfold Provider.unionShape? at hshape
  split at hshape
  · cases hshape
    rfl
  · cases hshape
    rfl
  · cases hshape

theorem returns_readUnion (hkept : KeptByReading c P) {t : Ty} {isNullable : Bool}
    {alternatives : List Ty} (hshape : Provider.unionShape? t = some (isNullable, alternatives))
    (h : ∀ t ∈ alternatives, ∀ scope, (inside t scope).Returns (P t)) (scope : Scope) :
    (readUnion inside t isNullable alternatives scope).Returns (P t) := by
  refine (Read.returns_arrayHeader _ _ _).bind fun count _ => ?_
  split
  · refine (Read.returns_string _ _ _).bind fun tag htag => ?_
    unfold readAlternative
    split
    · rename_i alternative hfind
      have hmem := List.mem_of_find?_eq_some hfind
      have hsame : alternative.tag = tag := by simpa using List.find?_some hfind
      refine ((h alternative hmem _).within _).bind fun held hheld => Read.returns_pure ?_
      exact hkept.union hshape hmem (hsame ▸ htag) hheld
    · split
      · rename_i hignored
        refine (Read.returns_skip _ _).bind fun _ _ => Read.returns_pure (hkept.null ?_)
        exact (isNullable_of_unionShape? hshape).trans hignored.1
      · exact Read.returns_throw _
  · exact Read.returns_throw _

theorem returns_orNull (hkept : KeptByReading c P) {t : Ty} {step : Read Value}
    (h : step.Returns (P t)) : (orNull t.isNullable step).Returns (P t) := by
  intro cursor v after hok
  unfold orNull at hok
  split at hok
  · rename_i hnil
    cases hok
    split at hnil
    · rename_i hnullable
      exact hkept.null hnullable
    · cases hnil
  · exact h _ _ _ hok

theorem returns_readPresent (hc : c.FieldsDistinct) (hkept : KeptByReading c P)
    (hinside : ∀ t scope, (inside t scope).Returns (P t)) (t : Ty) (scope : Scope) :
    (readPresent inside c scope t).Returns (P t) := by
  induction t with
  | primitive p => exact Read.returns_run (fun _ _ _ h => hkept.atom (atom_of_primitive h)) _ _
  | bytes => exact Read.returns_run (fun _ _ _ h => hkept.atom (atom_of_bytes h)) _ _
  | decimal =>
    exact Read.returns_run (fun _ _ _ h => hkept.atom (atom_of_text atom_of_decimal h)) _ _
  | version =>
    exact Read.returns_run (fun _ _ _ h => hkept.atom (atom_of_text atom_of_version h)) _ _
  | tuple items _ => exact returns_readTuple hkept (fun t _ => hinside t) scope
  | union alternatives _ => exact returns_readUnion hkept rfl (fun t _ => hinside t) scope
  | list element _ =>
    refine (Read.returns_arrayHeader _ _ _).bind fun count hcount => ?_
    have hitems := Read.returns_readAll (hinside element (scope.child scope.name)) count
    refine hitems.bind fun values hvalues => Read.returns_pure (hkept.list ?_ hvalues.2)
    rwa [hvalues.1]
  | map key value _ _ =>
    refine (Read.returns_mapHeader _ _ _).bind fun count hcount => ?_
    have hentries := Read.returns_readEntries (hinside key (scope.child scope.name))
      (hinside value (scope.child scope.name)) count
    refine hentries.bind fun entries hall => Read.returns_pure (hkept.map ?_ hall.2)
    rwa [hall.1]
  | nullable inner ih =>
    cases inner with
    | union alternatives => exact returns_readUnion hkept rfl (fun t _ => hinside t) scope
    | _ =>
      intro cursor v after hok
      exact hkept.nullable (ih cursor v after hok)
  | record name => exact returns_readRecord hc hkept (fun r _ f _ => hinside f.type) scope

/-- Whatever is read has every property that is kept by reading. -/
theorem returns_read (hc : c.FieldsDistinct) (hkept : KeptByReading c P) (room : Nat) (t : Ty)
    (scope : Scope) : (read c room t scope).Returns (P t) := by
  induction room generalizing t scope with
  | zero => exact Read.returns_throw _
  | succ room ih => exact returns_orNull hkept (returns_readPresent hc hkept ih t scope)

end Plain

end SchemaPack
