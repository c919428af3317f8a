import SchemaPack.Proofs.Plain.Acceptance
import SchemaPack.Proofs.Plain.Completeness

/-!
When a value that was read can be written again. All that comes off the wire can be, since lengths
and versions are checked on the way in. What a field falls back to was never on the wire, and it is
the only thing that can stand in the way.
-/
namespace SchemaPack

/-- What the field falls back to stands in a record but cannot be written there: because of itself,
because of the name of the field, or because there are too many fields. -/
def Field.Spoils (f : Field) (fields : List (String × Value)) : Prop :=
  ∃ v, f.fallback = some v ∧ Fields.get? f.name fields = some v ∧
    (¬ v.Portable ∨ Wire.lengthBound ≤ f.name.utf8ByteSize ∨ Wire.lengthBound ≤ fields.length)

/-- In a value of the type, a field of a record at some depth spoils the record. -/
def Catalog.Spoils (c : Catalog) (t : Ty) (v : Value) : Prop :=
  ∃ n fields name r f, Value.Below n v (.record fields) ∧ Ty.Reaches c t (.record name) ∧
    c.find? name = some r ∧ f ∈ r.fields ∧ f.Spoils fields

variable {c : Catalog} {t : Ty} {v : Value}

theorem Field.Spoils.not_portable {f : Field} {fields : List (String × Value)}
    (h : f.Spoils fields) : ¬ (Value.record fields).Portable := by
  intro hportable
  obtain ⟨hlength, hfields⟩ := Value.portable_record.mp hportable
  obtain ⟨v, -, hget, hv | hname | hmany⟩ := h
  · exact hv (hfields _ (Fields.mem_of_get? hget)).2
  · exact absurd (hfields _ (Fields.mem_of_get? hget)).1 (Nat.not_lt.mpr hname)
  · exact absurd hlength (Nat.not_lt.mpr hmany)

namespace Catalog

theorem Spoils.not_portable (h : c.Spoils t v) : ¬ v.Portable := by
  intro hportable
  obtain ⟨n, fields, _, _, f, hbelow, -, -, -, hspoils⟩ := h
  exact hspoils.not_portable (hportable.below hbelow)

/-- What is spoiled inside spoils the value around it. -/
theorem Spoils.outside {u : Ty} {w : Value} (h : c.Spoils u w) (hw : Value.Holds v w)
    (hu : Ty.Reaches c t u) : c.Spoils t v := by
  obtain ⟨n, fields, name, r, f, hbelow, hreaches, hrest⟩ := h
  exact ⟨n + 1, fields, name, r, f, .inside hw hbelow, hu.trans hreaches, hrest⟩

theorem spoils_here {name : TypeName} {r : RecordDef} (hfind : c.find? name = some r) {f : Field}
    (hf : f ∈ r.fields) {fields : List (String × Value)} (h : f.Spoils fields) :
    c.Spoils (.record name) (.record fields) :=
  ⟨0, fields, name, r, f, .here, .refl _, hfind, hf, h⟩

end Catalog

namespace Plain

/-- Either the first holds of all elements, or the second holds of some element. -/
theorem all_or_exists {α : Type} {as : List α} {P Q : α → Prop} (h : ∀ a ∈ as, P a ∨ Q a) :
    (∀ a ∈ as, P a) ∨ ∃ a ∈ as, Q a := by
  by_cases hall : ∀ a ∈ as, P a
  · exact Or.inl hall
  · right
    simp only [not_forall] at hall
    obtain ⟨a, ha, hnot⟩ := hall
    exact ⟨a, ha, (h a ha).resolve_left hnot⟩

theorem portable_or_spoils_record {name : TypeName} {r : RecordDef} {fields : List (String × Value)}
    (hfind : c.find? name = some r)
    (h : Completed (fun t v => v.Portable ∨ c.Spoils t v) r fields) :
    (Value.record fields).Portable ∨ c.Spoils (.record name) (.record fields) := by
  have hfields : ∀ p ∈ fields, p.1.utf8ByteSize < Wire.lengthBound ∧ p.2.Portable ∨
      c.Spoils (.record name) (.record fields) := by
    intro p hp
    obtain ⟨f, hf, hname, ⟨hsize, hv⟩ | hfallback⟩ := h.of_mem hp
    · rcases hv with hportable | hspoils
      · exact Or.inl ⟨hname ▸ hsize, hportable⟩
      · exact Or.inr (hspoils.outside (.field hp) (Ty.Direct.field hfind hf).part.reaches)
    · by_cases hok : p.1.utf8ByteSize < Wire.lengthBound ∧ p.2.Portable
      · exact Or.inl hok
      · right
        have hget := h.sorted.get?_of_mem hp
        rw [← hname] at hget hok
        refine Catalog.spoils_here hfind hf ⟨p.2, hfallback, hget, ?_⟩
        by_cases hsize : f.name.utf8ByteSize < Wire.lengthBound
        · exact Or.inl fun hportable => hok ⟨hsize, hportable⟩
        · exact Or.inr (Or.inl (Nat.not_lt.mp hsize))
  rcases all_or_exists hfields with hall | ⟨_, -, hspoils⟩
  · rcases Nat.lt_or_ge fields.length Wire.lengthBound with hlength | hlength
    · exact Or.inl (Value.portable_record.mpr ⟨hlength, hall⟩)
    · obtain ⟨f, hf, v, hget, hfallback⟩ := h.few.resolve_left (Nat.not_lt.mpr hlength)
      exact Or.inr (Catalog.spoils_here hfind hf ⟨v, hfallback, hget, Or.inr (Or.inr hlength)⟩)
  · exact Or.inr hspoils

/-- What is read is portable, unless a field that was filled in spoils it. -/
theorem kept_portable_or_spoils : KeptByReading c fun t v => v.Portable ∨ c.Spoils t v where
  atom h := Or.inl h.2
  null _ := Or.inl Value.portable_null
  nullable := by
    intro t v h
    refine h.imp_right ?_
    rintro ⟨n, fields, name, r, f, hbelow, hreaches, hrest⟩
    exact ⟨n, fields, name, r, f, hbelow, (Ty.Indirect.inner t).part.reaches.trans hreaches, hrest⟩
  tuple := by
    intro types values hlength hvalues
    have hitems : ∀ v ∈ values, v.Portable ∨ c.Spoils (.tuple types) (.tuple values) := by
      intro v hv
      obtain ⟨t, ht, hportable | hspoils⟩ := exists_of_forall₂ hvalues hv
      · exact Or.inl hportable
      · exact Or.inr (hspoils.outside (.item hv) (Ty.Direct.item ht).part.reaches)
    rcases all_or_exists hitems with hall | ⟨_, -, hspoils⟩
    · exact Or.inl (Value.portable_tuple.mpr ⟨hlength, hall⟩)
    · exact Or.inr hspoils
  union := by
    intro t isNullable alternatives alternative held hshape hmem htag hheld
    rcases hheld with hportable | hspoils
    · exact Or.inl (Value.portable_union.mpr ⟨htag, hportable⟩)
    · exact Or.inr (hspoils.outside .held (Ty.reaches_alternative hshape hmem))
  list := by
    intro t values hlength hvalues
    rcases all_or_exists hvalues with hall | ⟨v, hv, hspoils⟩
    · exact Or.inl (Value.portable_list.mpr ⟨hlength, hall⟩)
    · exact Or.inr (hspoils.outside (.element hv) (Ty.Indirect.element t).part.reaches)
  map := by
    intro key value entries hlength hentries
    have hboth : ∀ e ∈ entries, (e.1.Portable ∧ e.2.Portable) ∨
        c.Spoils (.map key value) (.map entries) := by
      intro e he
      obtain ⟨hk | hspoils, hvalue⟩ := hentries e he
      · rcases hvalue with hv | hspoils
        · exact Or.inl ⟨hk, hv⟩
        · exact Or.inr (hspoils.outside (.value he) (Ty.Indirect.value key value).part.reaches)
      · exact Or.inr (hspoils.outside (.key he) (Ty.Indirect.key key value).part.reaches)
    rcases all_or_exists hboth with hall | ⟨_, -, hspoils⟩
    · exact Or.inl (Value.portable_map.mpr ⟨hlength, hall⟩)
    · exact Or.inr hspoils
  record := portable_or_spoils_record

end Plain

namespace Context

/-- A value that a served codec has read is encoded by it again exactly if no record in the value
holds a fallback that cannot be written there. -/
theorem reencodes_iff {catalog : Catalog} {config : Config} {history : List (Ty × Policy)}
    {type : Ty} {policy : Policy} {h : Handle}
    (hserved : (((fresh catalog config).after history).request type policy).1 = .ok h)
    (hcatalog : catalog.Declared) (hdefaults : catalog.DefaultsCanonical) {v : Value}
    (hreads : h.Reads v) : (∃ bytes, h.encode v = .ok bytes) ↔ ¬ catalog.Spoils type v := by
  have hadmits := kept_of_reads hserved hcatalog Plain.kept_admitsIn hreads
    (defaultsAdmitted_of_served hserved)
  have hcanonical := kept_of_reads hserved hcatalog (Plain.kept_canonical hdefaults) hreads
  have hportable := kept_of_reads hserved hcatalog Plain.kept_portable_or_spoils hreads
  have hwrite := Plain.succeeds_write hcatalog.fieldsDistinct v hcanonical type
  rw [← write_eq_plain hserved] at hwrite
  rw [encode_succeeds hwrite]
  constructor
  · exact fun hwritable hspoils => hspoils.not_portable hwritable.1
  · exact fun hclean => ⟨hportable.resolve_right hclean, hadmits⟩

def unheld : Version := { components := [4294967295, 0] }

/-- A package knows its version, and one that cannot be held stands for a version left out. -/
def package : RecordDef where
  name := ⟨"Package"⟩
  fields := [⟨"version", .version, some (.version unheld)⟩]

def packages : Catalog := ⟨[package]⟩

theorem packages_declared : packages.Declared := .declare .empty (r := package) rfl

theorem packages_defaultsCanonical : packages.DefaultsCanonical := by
  intro r hr f hf v hv
  obtain rfl : r = package := List.mem_singleton.mp hr
  obtain rfl := List.mem_singleton.mp hf
  cases hv
  exact trivial

theorem package_is_served :
    ∃ h, (((fresh packages {}).after []).request package.type .throw).1 = .ok h :=
  exists_handle (by decide)

def packageOf (version : Version) : Value := .record [("version", .version version)]

theorem packageOf_canonical (version : Version) : (packageOf version).Canonical :=
  ⟨List.pairwise_singleton _ _, trivial, trivial⟩

theorem packageOf_portable {version : Version} :
    (packageOf version).Portable ↔ version.InRange := by
  have hname : "version".utf8ByteSize < Wire.lengthBound := by decide
  have hone : 1 < Wire.lengthBound := by decide
  rw [packageOf, Value.portable_record, List.forall_mem_singleton, Value.portable_version]
  exact ⟨fun h => h.2.2, fun h => ⟨hone, hname, h⟩⟩

set_option maxRecDepth 4000 in
theorem read_package :
    Plain.read packages (Scope.root .throw 128).room package.type (Scope.root .throw 128)
        (.ofBytes [0x81, 0xa7, 0x76, 0x65, 0x72, 0x73, 0x69, 0x6f, 0x6e, 0xa3, 0x31, 0x2e, 0x32]) =
      .ok (packageOf { components := [1, 2] }) ⟨13, []⟩ := by
  with_unfolding_all rfl

set_option maxRecDepth 4000 in
theorem read_empty_package (behaviour : Policy) :
    Plain.read packages (Scope.root behaviour 128).room package.type (Scope.root behaviour 128)
      (.ofBytes [0x80]) = .ok (packageOf unheld) ⟨1, []⟩ := rfl

/-- A package whose version is written out is read, and written again. -/
theorem versioned_package_reencodes : ∃ h,
    (((fresh packages {}).after []).request package.type .throw).1 = .ok h ∧
      h.Reads (packageOf { components := [1, 2] }) ∧
      ∃ bytes, h.encode (packageOf { components := [1, 2] }) = .ok bytes := by
  obtain ⟨h, hserved⟩ := package_is_served
  have hreads : h.Reads (packageOf { components := [1, 2] }) :=
    Or.inr ⟨.throw, _, decode_of_read hserved read_package⟩
  refine ⟨h, hserved, hreads, ?_⟩
  apply (reencodes_iff hserved packages_declared packages_defaultsCanonical hreads).mpr
  intro hspoils
  exact hspoils.not_portable (packageOf_portable.mpr (by decide))

/-- A package without its version is read under either policy, and cannot be written again. -/
theorem package_without_version_not_reencoded : ∃ h,
    (((fresh packages {}).after []).request package.type .throw).1 = .ok h ∧
      (∀ behaviour, (h.withPolicy behaviour).decode [0x80] =
        .ok (packageOf unheld)) ∧
      ¬ ∃ bytes, h.encode (packageOf unheld) = .ok bytes := by
  obtain ⟨h, hserved⟩ := package_is_served
  refine ⟨h, hserved, fun behaviour => decode_of_read hserved (read_empty_package behaviour), ?_⟩
  have hwrite := Plain.succeeds_write packages_declared.fieldsDistinct _
    (packageOf_canonical unheld) package.type
  rw [← write_eq_plain hserved] at hwrite
  rw [encode_succeeds hwrite]
  intro hwritable
  exact absurd (packageOf_portable.mp hwritable.1) (by decide)

end Context

end SchemaPack
