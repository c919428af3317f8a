import SchemaPack.Proofs.Admission
import SchemaPack.Proofs.Plain.Failures

/-!
What a failed read names. The path is put together from the inside outwards, the name is handed on
from the outside inwards, and the type is that of the codec that fails. They agree: the path is a
walk through the type that was asked for, it ends at the type that is named but for nullables around
it, and the name is that of the last field on the way.
-/
namespace SchemaPack

/-! ## Walks through types -/

namespace Ty

/-- The type without some of its outer nullables. -/
inductive Sheds : Ty → Ty → Prop
  | refl (t : Ty) : Sheds t t
  | nullable {inner t : Ty} (h : Sheds inner t) : Sheds (.nullable inner) t

/-- The segment leads from a value of the outer type to one of the inner type. -/
inductive Inside (c : Catalog) : Ty → Segment → Ty → Prop
  | item {types : List Ty} {i : Nat} {t : Ty} (h : types[i]? = some t) :
      Inside c (.tuple types) (.item i) t
  | field {name : TypeName} {r : RecordDef} {field : String} {f : Field}
      (hfind : c.find? name = some r) (h : r.fields.find? (·.name == field) = some f) :
      Inside c (.record name) (.field field) f.type
  | element (t : Ty) (i : Nat) : Inside c (.list t) (.index i) t
  | key (k v : Ty) (i : Nat) : Inside c (.map k v) (.mapKey i) k
  | value (k v : Ty) (i : Nat) : Inside c (.map k v) (.mapValue i) v
  | alternative {alternatives : List Ty} {tag : String} {t : Ty}
      (h : alternatives.find? (·.tag == tag) = some t) :
      Inside c (.union alternatives) (.alternative tag) t

/-- The segments lead from one type to another. Nullables around a container are passed without a
segment. -/
inductive Walk (c : Catalog) : Ty → List Segment → Ty → Prop
  | nil (t : Ty) : Walk c t [] t
  | cons {t u s : Ty} {segment : Segment} {segments : List Segment}
      (h : Inside c t.required segment u) (hrest : Walk c u segments s) :
      Walk c t (segment :: segments) s

variable {c : Catalog} {t u s : Ty} {segment : Segment} {segments : List Segment}

theorem item_inj {i j : Nat} (h : Segment.item i = Segment.item j) : i = j := by
  have hdigits : Nat.toDigits 10 (i + 1) = Nat.toDigits 10 (j + 1) := by
    have htexts : (i + 1).repr = (j + 1).repr := by simpa [Segment.item] using h
    simpa [Nat.repr] using congrArg String.toList htexts
  have hnumber := congrArg (Nat.ofDigitChars 10 · 0) hdigits
  simp only [Nat.ofDigitChars_ten_toDigits] at hnumber
  exact Nat.succ.inj hnumber

theorem Inside.eq (h : Inside c t segment u) (h' : Inside c t segment s) : u = s := by
  -- The texts of two items are compared only once it is known that both are items.
  generalize hsegment : segment = other at h'
  cases h with
  | item hi =>
    cases h' with
    | item hi' =>
      cases item_inj hsegment
      exact Option.some.inj (hi.symm.trans hi')
  | field hfind hfield =>
    cases h' with
    | field hfind' hfield' =>
      cases hsegment
      cases hfind.symm.trans hfind'
      cases hfield.symm.trans hfield'
      rfl
  | element => cases h' with
    | element => rfl
  | key => cases h' with
    | key => rfl
    | value => cases hsegment
  | value => cases h' with
    | key => cases hsegment
    | value => rfl
  | alternative htag =>
    cases h' with
    | alternative htag' =>
      cases hsegment
      exact Option.some.inj (htag.symm.trans htag')

/-- A walk leads to one type. -/
theorem Walk.eq (h : Walk c t segments u) (h' : Walk c t segments s) : u = s := by
  induction h with
  | nil t =>
    cases h'
    rfl
  | cons hstep _ ih =>
    cases h' with
    | cons hstep' hrest =>
      obtain rfl := hstep.eq hstep'
      exact ih hrest

theorem sheds_unwrapped (t : Ty) : t.Sheds t.unwrapped := by
  induction t with
  | nullable inner ih =>
    by_cases hunion : ∃ alternatives, inner = .union alternatives
    · obtain ⟨alternatives, rfl⟩ := hunion
      exact .refl _
    · rw [unwrapped_nullable fun alternatives heq => hunion ⟨alternatives, heq⟩]
      exact .nullable ih
  | _ => exact .refl _

end Ty

def Segment.name? : Segment → Option String
  | field name => some name
  | _ => none

def Path.lastField? (p : Path) : Option String := (p.segments.filterMap Segment.name?).getLast?

theorem Path.getD_lastField?_within (p : Path) (s : Segment) (name : String) :
    (p.within s).lastField?.getD name = p.lastField?.getD (s.name?.getD name) := by
  cases hs : s.name? with
  | none => simp only [lastField?, within, List.filterMap_cons_none hs, Option.getD_none]
  | some field =>
    simp only [lastField?, within, List.filterMap_cons_some hs, List.getLast?_cons,
      Option.getD_some]

/-! ## Failures and what is being read -/

/-- What was being read is a value of the type, and it is called by the name. From there the path
leads to the type that failed, and the name is the one that comes last. -/
structure ReadError.Located (c : Catalog) (t : Ty) (name : String) (e : ReadError) : Prop where
  walk : ∃ s, Ty.Walk c t e.path.segments s ∧ s.Sheds e.target
  name_eq : e.name = e.path.lastField?.getD name

def CodecError.Located (c : Catalog) (t : Ty) (name : String) (e : CodecError) : Prop :=
  ∃ r, e = .read r ∧ r.Located c t name

variable {c : Catalog} {t u inner target : Ty} {name : String} {e : CodecError} {s : Segment}
  {scope : Scope}

theorem Scope.located_fail (h : t.Sheds target) (fault : ReadFault) :
    (scope.fail target fault).Located c t scope.name :=
  ⟨_, rfl, ⟨t, .nil t, h⟩, rfl⟩

/-- A container puts its segment in front. What is inside is called by the segment if it is a field,
and by the name of the container if it is not. -/
theorem CodecError.Located.within (h : e.Located c u (s.name?.getD name))
    (hinside : Ty.Inside c t.required s u) : (e.within s).Located c t name := by
  obtain ⟨r, rfl, ⟨⟨v, hwalk, hsheds⟩, hname⟩⟩ := h
  refine ⟨_, rfl, ⟨v, .cons hinside hwalk, hsheds⟩, ?_⟩
  rw [Path.getD_lastField?_within]
  exact hname

/-- What fails inside a nullable fails in the same place of the nullable. -/
theorem CodecError.Located.nullable (h : e.Located c inner name) :
    e.Located c (.nullable inner) name := by
  obtain ⟨r, rfl, ⟨⟨v, hwalk, hsheds⟩, hname⟩⟩ := h
  refine ⟨r, rfl, ?_, hname⟩
  generalize r.path.segments = segments at hwalk
  cases hwalk with
  | nil => exact ⟨_, .nil _, .nullable hsheds⟩
  | cons hinside hrest => exact ⟨v, .cons hinside hrest, hsheds⟩

namespace Read

open CodecError (Located)

variable {α : Type} {step : Read α}

theorem located_throw (h : t.Sheds target) (fault : ReadFault) :
    FailsOnly (Located c t scope.name) (throw (scope.fail target fault) : Read α) :=
  .throw (Scope.located_fail h fault)

theorem located_demand (take : Wire.Cursor → Option (α × Wire.Cursor)) (h : t.Sheds target)
    (fault : Wire.Format → ReadFault) :
    FailsOnly (Located c t scope.name) (demand take scope target fault) := by
  intro cursor e after hfailed
  obtain ⟨-, rfl, -⟩ := demand_eq_error.mp hfailed
  exact Scope.located_fail h _

theorem located_skip (h : t.Sheds target) :
    FailsOnly (Located c t scope.name) (skip scope target) := by
  intro cursor e after hfailed
  obtain ⟨d, -, rfl, -⟩ := skip_eq_error.mp hfailed
  exact Scope.located_fail h _

theorem located_run (h : t.Sheds target)
    (step : Wire.Cursor → Except ReadFault Value × Wire.Cursor) :
    FailsOnly (Located c t scope.name) (scope.run target step) := by
  intro cursor e after hfailed
  obtain ⟨fault, -, rfl⟩ := Scope.run_eq_error.mp hfailed
  exact Scope.located_fail h _

theorem located_within (hinside : Ty.Inside c t.required s u)
    (h : FailsOnly (Located c u (s.name?.getD name)) step) :
    FailsOnly (Located c t name) (within s step) :=
  h.adaptExcept fun _ he => he.within hinside

theorem located_readAll {element : Ty} {item : Read Value} (ht : t.required = .list element)
    (h : FailsOnly (Located c element name) item) (count : Nat) :
    FailsOnly (Located c t name) (readAll item count 0 []) := by
  rw [readAll_eq_mapM]
  exact .mapM fun i _ => located_within (ht ▸ .element element i) h

theorem located_readEntries {k v : Ty} {key value : Read Value} (ht : t.required = .map k v)
    (hkey : FailsOnly (Located c k name) key) (hvalue : FailsOnly (Located c v name) value)
    (count : Nat) : FailsOnly (Located c t name) (readEntries key value count 0 []) := by
  rw [readEntries_eq_mapM]
  refine .mapM fun i _ => ?_
  have hkey' := located_within (ht ▸ Ty.Inside.key k v i) hkey
  have hvalue' := located_within (ht ▸ Ty.Inside.value k v i) hvalue
  exact .bind hkey' fun x => .bind hvalue' fun y => .pure _

end Read

namespace Plain

open CodecError (Located)

variable {inside : Ty → Scope → Read Value}

theorem located_readItems {items : List Ty}
    (h : ∀ t ∈ items, ∀ scope, FailsOnly (Located c t scope.name) (inside t scope)) :
    FailsOnly (Located c (.tuple items) scope.name) (readItems inside scope 0 items) := by
  rw [readItems_eq_mapM]
  refine .mapM fun p hp => ?_
  obtain ⟨u, i⟩ := p
  have hitem := h u (List.fst_mem_of_mem_zipIdx hp) (scope.child s!"Item{i + 1}")
  exact Read.located_within (.item (List.mem_zipIdx_iff_getElem?.mp hp)) hitem

theorem located_readTuple {items : List Ty}
    (h : ∀ t ∈ items, ∀ scope, FailsOnly (Located c t scope.name) (inside t scope)) :
    FailsOnly (Located c (.tuple items) scope.name) (readTuple inside items scope) := by
  refine .bind (Read.located_demand _ (.refl _) _) fun count => ?_
  split
  · exact .bind (located_readItems h) fun values => .pure _
  · exact Read.located_throw (.refl _) _

theorem located_readField {record : TypeName} {r : RecordDef} (hfind : c.find? record = some r)
    (h : ∀ f ∈ r.fields, ∀ scope, FailsOnly (Located c f.type scope.name) (inside f.type scope))
    (filled : List (String × Value)) :
    FailsOnly (Located c (.record record) scope.name)
      (readField inside scope (.record record) r.fields filled) := by
  refine .bind (Read.located_demand _ (.refl _) _) fun field => ?_
  split
  · split
    · exact Read.located_throw (.refl _) _
    · exact .bind (Read.located_skip (.refl _)) fun _ => .pure _
  · rename_i f hfield
    split
    · exact Read.located_throw (.refl _) _
    · have hvalue := h f (List.mem_of_find?_eq_some hfield) (scope.child field)
      exact .bind (Read.located_within (.field hfind hfield) hvalue) fun v => .pure _

theorem located_readRecord {record : TypeName} {r : RecordDef} (hfind : c.find? record = some r)
    (h : ∀ f ∈ r.fields, ∀ scope, FailsOnly (Located c f.type scope.name) (inside f.type scope)) :
    FailsOnly (Located c (.record record) scope.name) (readRecord inside c record scope) := by
  unfold readRecord
  simp only [hfind]
  refine .bind (Read.located_demand _ (.refl _) _) fun count => ?_
  rw [readFields_eq_foldlM]
  refine .bind (.foldlM (fun before _ _ => located_readField hfind h before) []) fun filled => ?_
  split
  · exact .pure _
  · exact Read.located_throw (.refl _) _

/-- The type that is named for a nullable union is the union with its nullable. -/
theorem located_readUnion {alternatives : List Ty} {isNullable : Bool}
    (ht : t.required = .union alternatives)
    (h : ∀ u ∈ alternatives, ∀ scope, FailsOnly (Located c u scope.name) (inside u scope)) :
    FailsOnly (Located c t scope.name) (readUnion inside t isNullable alternatives scope) := by
  refine .bind (Read.located_demand _ (.refl _) _) fun count => ?_
  split
  · refine .bind (Read.located_demand _ (.refl _) _) fun tag => ?_
    unfold readAlternative
    split
    · rename_i u htag
      have hheld := h u (List.mem_of_find?_eq_some htag) (scope.child scope.name)
      have htagged := List.find?_some htag
      simp only [beq_iff_eq] at htagged
      subst htagged
      refine .bind (Read.located_within ?_ hheld) fun held => .pure _
      exact ht ▸ .alternative htag
    · split
      · exact .bind (Read.located_skip (.refl _)) fun _ => .pure _
      · exact Read.located_throw (.refl _) _
  · exact Read.located_throw (.refl _) _

theorem located_orNull {isNullable : Bool} {step : Read Value}
    (h : FailsOnly (Located c t name) step) :
    FailsOnly (Located c t name) (orNull isNullable step) := by
  intro cursor e after hfailed
  unfold orNull at hfailed
  split at hfailed
  · cases hfailed
  · exact h _ _ _ hfailed

theorem located_readPresent
    (hinside : ∀ t, c.Covers t → ∀ scope, FailsOnly (Located c t scope.name) (inside t scope))
    (h : c.Covers t) (scope : Scope) :
    FailsOnly (Located c t scope.name) (readPresent inside c scope t) := by
  induction t with
  | primitive p => exact Read.located_run (.refl _) _
  | bytes => exact Read.located_run (.refl _) _
  | decimal => exact Read.located_run (.refl _) _
  | version => exact Read.located_run (.refl _) _
  | tuple items _ =>
    exact located_readTuple fun t ht => hinside t (h.part (Ty.Direct.item ht).part)
  | union alternatives _ =>
    exact located_readUnion rfl fun t ht => hinside t (h.part (Ty.Indirect.alternative ht).part)
  | list element _ =>
    have helement := hinside element (h.part (Ty.Indirect.element element).part)
      (scope.child scope.name)
    refine .bind (Read.located_demand _ (.refl _) _) fun count => ?_
    exact .bind (Read.located_readAll rfl helement count) fun items => .pure _
  | map key value _ _ =>
    have hkey := hinside key (h.part (Ty.Indirect.key key value).part) (scope.child scope.name)
    have hvalue := hinside value (h.part (Ty.Indirect.value key value).part)
      (scope.child scope.name)
    refine .bind (Read.located_demand _ (.refl _) _) fun count => ?_
    exact .bind (Read.located_readEntries rfl hkey hvalue count) fun entries => .pure _
  | nullable inner ih =>
    have hinner : c.Covers inner := h.part (Ty.Indirect.inner inner).part
    cases inner with
    | union alternatives =>
      exact located_readUnion rfl fun t ht =>
        hinside t (hinner.part (Ty.Indirect.alternative ht).part)
    | _ =>
      intro cursor e after hfailed
      exact (ih hinner _ _ _ hfailed).nullable
  | record record =>
    obtain ⟨r, hfind⟩ := h.here record rfl
    exact located_readRecord hfind fun f hf =>
      hinside f.type (h.part (Ty.Direct.field hfind hf).part)

/-- A failed read is located in the type and under the name that it was asked for. -/
theorem located_read (room : Nat) (h : c.Covers t) (scope : Scope) :
    FailsOnly (Located c t scope.name) (read c room t scope) := by
  induction room generalizing t scope with
  | zero => exact Read.located_throw (.refl _) _
  | succ room ih => exact located_orNull (located_readPresent (fun t ht => ih ht) h scope)

end Plain

/-! ## Served codecs -/

namespace Context

variable {catalog : Catalog} {config : Config} {history : List (Ty × Policy)} {type : Ty}
  {policy : Policy} {h : Handle}

theorem located_readWith
    (hserved : (((fresh catalog config).after history).request type policy).1 = .ok h)
    (behaviour : Policy) :
    FailsOnly (CodecError.Located catalog type Scope.rootName) (h.readWith behaviour) := by
  rw [readWith_eq_plain hserved]
  exact Plain.located_read _ (covers_of_served hserved) (Scope.root behaviour config.maxDepth)

theorem located_decode
    (hserved : (((fresh catalog config).after history).request type policy).1 = .ok h)
    {behaviour : Policy} {bytes : List UInt8} {e : CodecError}
    (hfailed : (h.withPolicy behaviour).decode bytes = .error e) :
    e.Located catalog type Scope.rootName := by
  obtain ⟨-, -, htype, -, -⟩ := faithful_of_request hserved
  rcases Handle.decode_eq_error.mp hfailed with ⟨after, hread⟩ | ⟨v, after, -, -, rfl⟩
  · exact located_readWith hserved behaviour _ _ _ hread
  · exact Scope.located_fail (htype ▸ .refl _) _

/-- Whatever the input and however it is read, a failure tells where it arose. Its path leads from
the type that was asked for to one type, and the type it names is that one, possibly without some
outer nullables. Its name is the text of the last field on the path, and the name of the root where
there is none. -/
theorem read_error_attributed
    (hserved : (((fresh catalog config).after history).request type policy).1 = .ok h)
    {behaviour : Policy} {e : CodecError}
    (hfailed : (∃ cursor after, h.readWith behaviour cursor = .error e after) ∨
      ∃ bytes, (h.withPolicy behaviour).decode bytes = .error e) :
    ∃ r, e = .read r ∧
      (∃ s, Ty.Walk catalog type r.path.segments s ∧
        (∀ u, Ty.Walk catalog type r.path.segments u → u = s) ∧ s.Sheds r.target) ∧
      r.name = r.path.lastField?.getD "<root>" := by
  have hlocated : e.Located catalog type Scope.rootName := by
    rcases hfailed with ⟨cursor, after, hread⟩ | ⟨bytes, hdecode⟩
    · exact located_readWith hserved behaviour _ _ _ hread
    · exact located_decode hserved hdecode
  obtain ⟨r, rfl, ⟨s, hwalk, hsheds⟩, hname⟩ := hlocated
  exact ⟨r, rfl, ⟨s, hwalk, fun u hu => hu.eq hwalk, hsheds⟩, hname⟩

/-- A folder with one file, whose parent is a number. -/
def orphanBytes : List UInt8 :=
  [0x81, 0xa5, 0x66, 0x69, 0x6c, 0x65, 0x73,
    0x91, 0x81, 0xa6, 0x70, 0x61, 0x72, 0x65, 0x6e, 0x74, 0x01]

set_option maxRecDepth 4000 in
theorem read_orphanBytes :
    Plain.read folders (Scope.root .throw 128).room (.record ⟨"Folder"⟩) (Scope.root .throw 128)
      (.ofBytes orphanBytes) =
        .error (.read ⟨"parent", .record ⟨"Folder"⟩,
          ⟨[.field "files", .index 0, .field "parent"]⟩, .expectedMapEncoding .integer⟩)
          ⟨16, [0x01]⟩ := by
  with_unfolding_all rfl

/-- The field is nullable, and the type that is named is the record inside. -/
theorem orphan_error_attributed : ∃ h s,
    (((fresh folders {}).after folderHistory).request (.record ⟨"Folder"⟩) .throw).1 = .ok h ∧
      h.readWith .throw (.ofBytes orphanBytes) =
        .error (.read ⟨"parent", .record ⟨"Folder"⟩,
          ⟨[.field "files", .index 0, .field "parent"]⟩, .expectedMapEncoding .integer⟩)
          ⟨16, [0x01]⟩ ∧
      Ty.Walk folders (.record ⟨"Folder"⟩) [.field "files", .index 0, .field "parent"] s ∧
      s.Sheds (.record ⟨"Folder"⟩) := by
  obtain ⟨h, hserved⟩ := folder_is_served
  have hread := read_orphanBytes
  rw [← readWith_eq_plain hserved] at hread
  obtain ⟨r, heq, ⟨s, hwalk, -, hsheds⟩, -⟩ := read_error_attributed hserved (.inl ⟨_, _, hread⟩)
  cases heq
  exact ⟨h, s, hserved, hread, hwalk, hsheds⟩

end Context

end SchemaPack
