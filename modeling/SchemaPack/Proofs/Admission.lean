import SchemaPack.Admits
import SchemaPack.Proofs.Height
import SchemaPack.Proofs.Library.Closure
import SchemaPack.Proofs.RecordFields

/-!
What the deep check asks of a value, by its shape. A container is admitted if its parts are, each by
a part of the type, so every record nested in an admitted value is filled as the catalog has it.
-/
namespace SchemaPack

/-! ## Wrappers for null -/

theorem Ty.required_ne_nullable (t inner : Ty) : t.required ≠ .nullable inner := by
  induction t with
  | nullable t ih => exact ih
  | _ => exact nofun

/-- Only a nullable union keeps a wrapper that the check takes off. -/
theorem Ty.unwrapped_eq_required (t : Ty) : t.unwrapped = t.required ∨
    ∃ alternatives, t.unwrapped = .nullable (.union alternatives) ∧
      t.required = .union alternatives := by
  induction t with
  | nullable inner ih =>
    by_cases hunion : ∃ alternatives, inner = .union alternatives
    · obtain ⟨alternatives, rfl⟩ := hunion
      exact Or.inr ⟨alternatives, rfl, rfl⟩
    · rw [unwrapped_nullable fun alternatives heq => hunion ⟨alternatives, heq⟩]
      exact ih
  | _ => exact Or.inl rfl

theorem Ty.required_eq_iff {t u : Ty} (hunion : u.isUnion = false)
    (hnullable : u.isNullable = false) :
    t.required = u ↔ t.unwrapped = u := by
  rcases t.unwrapped_eq_required with heq | ⟨alternatives, hunwrapped, hrequired⟩
  · rw [heq]
  · rw [hunwrapped, hrequired]
    constructor
    · rintro rfl
      cases hunion
    · rintro rfl
      cases hnullable

theorem Ty.required_eq_union_iff {t : Ty} {alternatives : List Ty} :
    t.required = .union alternatives ↔
      ∃ isNullable, Provider.unionShape? t.unwrapped = some (isNullable, alternatives) := by
  rcases t.unwrapped_eq_required with heq | ⟨_, hunwrapped, hrequired⟩
  · rw [heq]
    constructor
    · intro h
      rw [h]
      exact ⟨false, rfl⟩
    · rintro ⟨isNullable, h⟩
      unfold Provider.unionShape? at h
      split at h
      · rename_i hunion
        cases h
        exact hunion
      · rename_i hnullable
        exact absurd hnullable (t.required_ne_nullable _)
      · cases h
  · rw [hunwrapped, hrequired]
    simp [Provider.unionShape?]

/-- The alternatives of a union, nullable or not. -/
theorem Ty.reaches_alternative {c : Catalog} {t alternative : Ty} {isNullable : Bool}
    {alternatives : List Ty}
    (hshape : Provider.unionShape? t = some (isNullable, alternatives))
    (h : alternative ∈ alternatives) : Ty.Reaches c t alternative := by
  unfold Provider.unionShape? at hshape
  split at hshape
  · cases hshape
    exact (Ty.Indirect.alternative h).part.reaches
  · cases hshape
    exact (Ty.Indirect.inner _).part.reaches.trans (Ty.Indirect.alternative h).part.reaches
  · cases hshape

/-! ## Shapes -/

/-- The fields of a value are those of the record, each of its declared type. -/
def RecordDef.FilledBy (r : RecordDef) (c : Catalog) (fields : List (String × Value)) : Prop :=
  (∀ f ∈ fields, r.declares f.1 = true) ∧
    ∀ f ∈ r.fields, ∃ v, Fields.get? f.name fields = some v ∧ f.type.admitsIn c v = true

namespace Value

theorem fitsEach_iff {catalog : Option Catalog} {items : List Value} {types : List Ty} :
    (items.length == types.length && fitsEach catalog items types) = true ↔
      List.Forall₂ (fun v t => v.fits catalog t = true) items types := by
  induction items generalizing types with
  | nil => cases types <;> simp [fitsEach]
  | cons v items ih =>
    cases types with
    | nil => simp
    | cons u types =>
      rw [List.forall₂_cons, ← ih]
      simp [fitsEach, and_left_comm]

theorem fitsAll_iff {catalog : Option Catalog} {items : List Value} {t : Ty} :
    fitsAll catalog items t = true ↔ ∀ v ∈ items, v.fits catalog t = true := by
  induction items with
  | nil => simp [fitsAll]
  | cons v items ih => simp [fitsAll, ih]

theorem fitsEntries_iff {catalog : Option Catalog} {entries : List (Value × Value)}
    {key value : Ty} : fitsEntries catalog entries key value = true ↔
      ∀ e ∈ entries, e.1.fits catalog key = true ∧ e.2.fits catalog value = true := by
  induction entries with
  | nil => simp [fitsEntries]
  | cons e entries ih => simp [fitsEntries, ih, and_assoc]

theorem fieldChecks_eq_map (catalog : Option Catalog) (fields : List (String × Value)) :
    fieldChecks catalog fields = fields.map fun f => (f.1, f.2.fits catalog) := by
  induction fields with
  | nil => rfl
  | cons f fields ih => simp only [fieldChecks, ih, List.map_cons]

end Value

theorem RecordDef.admitsFields_iff {r : RecordDef} {c : Catalog} {fields : List (String × Value)} :
    r.admitsFields (Value.fieldChecks (some c) fields) = true ↔ r.FilledBy c fields := by
  rw [admitsFields, Bool.and_eq_true, List.all_eq_true, List.all_eq_true, Value.fieldChecks_eq_map,
    List.forall_mem_map]
  refine and_congr_right fun _ => forall₂_congr fun f _ => ?_
  rw [Fields.get?_map]
  cases Fields.get? f.name fields with
  | none => simp
  | some v => simp [Ty.admitsIn]

namespace Ty

variable {c : Catalog} {t : Ty}

/-- A value with no values inside, past the wrappers for null. -/
theorem admitsAtom_required {v : Value} :
    t.required.admitsAtom v = true ↔ t.unwrapped.admitsAtom v = true := by
  rcases t.unwrapped_eq_required with heq | ⟨alternatives, hunwrapped, hrequired⟩
  · rw [heq]
  · rw [hunwrapped, hrequired]
    rfl

theorem admitsIn_tuple {items : List Value} : t.admitsIn c (.tuple items) = true ↔
    ∃ types, t.unwrapped = .tuple types ∧
      List.Forall₂ (fun v t => t.admitsIn c v = true) items types := by
  simp only [← required_eq_iff (u := .tuple _) rfl rfl]
  unfold admitsIn
  rw [Value.fits]
  split
  · rename_i types htype
    rw [Value.fitsEach_iff]
    simp [htype]
  · rename_i hshape
    refine ⟨fun h => absurd h Bool.false_ne_true, ?_⟩
    rintro ⟨types, htype, -⟩
    exact (hshape types htype).elim

theorem admitsIn_union {alternative : Ty} {held : Value} :
    t.admitsIn c (.union alternative held) = true ↔
      ∃ isNullable alternatives,
        Provider.unionShape? t.unwrapped = some (isNullable, alternatives) ∧
          alternative ∈ alternatives ∧ alternative.admitsIn c held = true := by
  rw [exists_comm]
  simp only [exists_and_right, ← required_eq_union_iff]
  unfold admitsIn
  rw [Value.fits]
  split
  · rename_i alternatives htype
    simp [htype]
  · rename_i hshape
    refine ⟨fun h => absurd h Bool.false_ne_true, ?_⟩
    rintro ⟨alternatives, htype, -⟩
    exact (hshape alternatives htype).elim

theorem admitsIn_list {items : List Value} : t.admitsIn c (.list items) = true ↔
    ∃ element, t.unwrapped = .list element ∧ ∀ v ∈ items, element.admitsIn c v = true := by
  simp only [← required_eq_iff (u := .list _) rfl rfl]
  unfold admitsIn
  rw [Value.fits]
  split
  · rename_i element htype
    rw [Value.fitsAll_iff]
    simp [htype]
  · rename_i hshape
    refine ⟨fun h => absurd h Bool.false_ne_true, ?_⟩
    rintro ⟨element, htype, -⟩
    exact (hshape element htype).elim

theorem admitsIn_map {entries : List (Value × Value)} : t.admitsIn c (.map entries) = true ↔
    ∃ key value, t.unwrapped = .map key value ∧
      ∀ e ∈ entries, key.admitsIn c e.1 = true ∧ value.admitsIn c e.2 = true := by
  simp only [← required_eq_iff (u := .map _ _) rfl rfl]
  unfold admitsIn
  rw [Value.fits]
  split
  · rename_i key value htype
    rw [Value.fitsEntries_iff]
    simp [htype]
  · rename_i hshape
    refine ⟨fun h => absurd h Bool.false_ne_true, ?_⟩
    rintro ⟨key, value, htype, -⟩
    exact (hshape key value htype).elim

theorem admitsIn_record {fields : List (String × Value)} :
    t.admitsIn c (.record fields) = true ↔
      ∃ name r, t.unwrapped = .record name ∧ c.find? name = some r ∧ r.FilledBy c fields := by
  simp only [← required_eq_iff (u := .record _) rfl rfl]
  unfold admitsIn
  rw [Value.fits]
  split
  · rename_i name htype
    rw [Value.fitsRecord]
    split
    · rename_i r hfind
      rw [RecordDef.admitsFields_iff]
      simp [htype, hfind]
    · rename_i hnone
      simp [htype, hnone]
  · rename_i hshape
    refine ⟨fun h => absurd h Bool.false_ne_true, ?_⟩
    rintro ⟨name, r, htype, -⟩
    exact (hshape name htype).elim

/-- What lies directly in an admitted value is admitted by a type that is reached. -/
theorem admitsIn_of_holds {v u : Value} (h : t.admitsIn c v = true) (hv : v.Canonical)
    (hu : Value.Holds v u) : ∃ inner, Reaches c t inner ∧ inner.admitsIn c u = true := by
  have hunwrapped : Reaches c t t.unwrapped := reaches_unwrapped t
  cases hu with
  | item hmem =>
    obtain ⟨types, htype, hitems⟩ := admitsIn_tuple.mp h
    obtain ⟨inner, hinner, hadmits⟩ := exists_of_forall₂ hitems hmem
    rw [htype] at hunwrapped
    exact ⟨inner, hunwrapped.trans (Direct.item hinner).part.reaches, hadmits⟩
  | held =>
    obtain ⟨_, _, hshape, hmem, hheld⟩ := admitsIn_union.mp h
    exact ⟨_, hunwrapped.trans (reaches_alternative hshape hmem), hheld⟩
  | element hmem =>
    obtain ⟨element, htype, hitems⟩ := admitsIn_list.mp h
    rw [htype] at hunwrapped
    exact ⟨element, hunwrapped.trans (Indirect.element element).part.reaches, hitems _ hmem⟩
  | key hmem =>
    obtain ⟨key, value, htype, hentries⟩ := admitsIn_map.mp h
    rw [htype] at hunwrapped
    exact ⟨key, hunwrapped.trans (Indirect.key key value).part.reaches, (hentries _ hmem).1⟩
  | value hmem =>
    obtain ⟨key, value, htype, hentries⟩ := admitsIn_map.mp h
    rw [htype] at hunwrapped
    exact ⟨value, hunwrapped.trans (Indirect.value key value).part.reaches, (hentries _ hmem).2⟩
  | field hmem =>
    obtain ⟨name, r, htype, hfind, hdeclared, hfields⟩ := admitsIn_record.mp h
    rw [htype] at hunwrapped
    obtain ⟨f, hf, hname⟩ := List.any_eq_true.mp (hdeclared _ hmem)
    obtain ⟨w, hget, hadmits⟩ := hfields f hf
    -- the fields are in order, so there is one of that name
    rw [beq_iff_eq.mp hname, hv.1.get?_of_mem hmem] at hget
    cases hget
    exact ⟨f.type, hunwrapped.trans (Direct.field hfind hf).part.reaches, hadmits⟩

/-- Every record nested in an admitted value is filled. -/
theorem filledBy_of_below {v : Value} (h : t.admitsIn c v = true) (hv : v.Canonical) {n : Nat}
    {fields : List (String × Value)} (hbelow : Value.Below n v (.record fields)) :
    ∃ name r, Reaches c t (.record name) ∧ c.find? name = some r ∧ r.FilledBy c fields := by
  generalize hw : Value.record fields = w at hbelow
  induction hbelow generalizing t with
  | here =>
    subst hw
    obtain ⟨name, r, htype, hfind, hfilled⟩ := admitsIn_record.mp h
    exact ⟨name, r, htype ▸ reaches_unwrapped t, hfind, hfilled⟩
  | inside hu _ ih =>
    obtain ⟨inner, hreaches, hinner⟩ := admitsIn_of_holds h hv hu
    obtain ⟨name, r, hname, hfilled⟩ := ih hinner (hv.of_holds hu) hw
    exact ⟨name, r, hreaches.trans hname, hfilled⟩

end Ty

end SchemaPack
