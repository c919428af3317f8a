import SchemaPack.Proofs.Admission
import SchemaPack.Proofs.Plain.Returned

/-!
Every value that is read is complete. A type that is served reaches only records whose declared
defaults are admitted in the catalog, so what is filled in has the type of its field, and a record
at any depth holds its declared fields and no others.
-/
namespace SchemaPack

/-- If the type is a record, its declared defaults are complete values of their fields' types. -/
def Catalog.DefaultsAdmitted (c : Catalog) (t : Ty) : Prop :=
  ∀ name r, t = .record name → c.find? name = some r →
    ∀ f ∈ r.fields, ∀ v, f.default = some v → f.type.admitsIn c v = true

/-- The records in all declared defaults have their fields in order. -/
def Catalog.DefaultsCanonical (c : Catalog) : Prop :=
  ∀ r ∈ c.records, ∀ f ∈ r.fields, ∀ v, f.default = some v → v.Canonical

/-- What a field falls back to is its declared default, or null for a nullable field. -/
theorem Field.fallback_eq_some {f : Field} {v : Value} (h : f.fallback = some v) :
    f.default = some v ∨ f.type.isNullable = true ∧ v = .null := by
  unfold fallback at h
  split at h
  · rename_i hdefault
    exact Or.inl (hdefault.trans h)
  · split at h
    · rename_i hnullable
      cases h
      exact Or.inr ⟨hnullable, rfl⟩
    · cases h

namespace Ty

variable {c : Catalog} {t : Ty}

theorem admitsIn_nullable {v : Value} (h : t.admitsIn c v = true) :
    (nullable t).admitsIn c v = true := by
  cases v with
  | null => rfl
  | _ => exact h

theorem admitsIn_of_admitsAtom {v : Value} (h : t.admitsAtom v = true) :
    t.admitsIn c v = true := by
  unfold admitsAtom at h
  split at h
  · rename_i p v
    unfold Primitive.admits at h
    split at h
    · exact h
    · exact h
    · exact h
    · exact h
    · exact h
    · cases h
  · rfl
  · rfl
  · rfl
  · cases h

theorem canonical_of_admitsAtom {v : Value} (h : t.admitsAtom v = true) : v.Canonical := by
  unfold admitsAtom at h
  split at h
  · rename_i p v
    unfold Primitive.admits at h
    split at h
    · exact trivial
    · exact trivial
    · exact trivial
    · exact trivial
    · exact trivial
    · cases h
  · exact trivial
  · exact trivial
  · exact trivial
  · cases h

theorem unwrapped_of_unionShape? {isNullable : Bool} {alternatives : List Ty}
    (h : Provider.unionShape? t = some (isNullable, alternatives)) : t.unwrapped = t := by
  unfold Provider.unionShape? at h
  split at h
  · rfl
  · rfl
  · cases h

end Ty

namespace Plain

variable {c : Catalog}

theorem kept_admitsIn : KeptByReading c fun t v =>
    Ty.Throughout c c.DefaultsAdmitted t → t.admitsIn c v = true where
  atom h _ := Ty.admitsIn_of_admitsAtom h.1
  null h _ := h
  nullable h ht := Ty.admitsIn_nullable (h (ht.part (Ty.Indirect.inner _).part))
  tuple := by
    intro types values _ hvalues ht
    refine Ty.admitsIn_tuple.mpr ⟨types, rfl, ?_⟩
    refine List.forall₂_iff_zip.mpr ⟨hvalues.length_eq, fun hmem => ?_⟩
    have hitem := (List.of_mem_zip hmem).2
    exact List.forall₂_zip hvalues hmem (ht.part (Ty.Direct.item hitem).part)
  union := by
    intro t isNullable alternatives alternative held hshape hmem _ hheld ht
    have hunwrapped := Ty.unwrapped_of_unionShape? hshape
    refine Ty.admitsIn_union.mpr ⟨isNullable, alternatives, hunwrapped.symm ▸ hshape, hmem, ?_⟩
    exact hheld (ht.reaches (Ty.reaches_alternative hshape hmem))
  list := by
    intro t values _ hvalues ht
    refine Ty.admitsIn_list.mpr ⟨t, rfl, fun v hv => hvalues v hv ?_⟩
    exact ht.part (Ty.Indirect.element t).part
  map := by
    intro key value entries _ hentries ht
    refine Ty.admitsIn_map.mpr ⟨key, value, rfl, fun e he => ?_⟩
    exact ⟨(hentries e he).1 (ht.part (Ty.Indirect.key key value).part),
      (hentries e he).2 (ht.part (Ty.Indirect.value key value).part)⟩
  record := by
    intro name r values hfind hcompleted ht
    refine Ty.admitsIn_record.mpr ⟨name, r, rfl, hfind, hcompleted.declared, fun f hf => ?_⟩
    obtain ⟨v, hget, ⟨-, hv⟩ | hfallback⟩ := hcompleted.filled f hf
    · exact ⟨v, hget, hv (ht.part (Ty.Direct.field hfind hf).part)⟩
    · refine ⟨v, hget, ?_⟩
      rcases Field.fallback_eq_some hfallback with hdefault | ⟨hnullable, rfl⟩
      · exact ht.here name r rfl hfind f hf v hdefault
      · exact hnullable

theorem kept_canonical (hc : c.DefaultsCanonical) : KeptByReading c fun _ v => v.Canonical where
  atom := by
    intro t v h
    exact Ty.canonical_of_admitsAtom h.1
  null _ := trivial
  nullable h := h
  tuple := by
    intro types values _ hvalues
    refine Value.allCanonical_of_forall fun v hv => ?_
    obtain ⟨_, _, hcanonical⟩ := exists_of_forall₂ hvalues hv
    exact hcanonical
  union := by
    intro t isNullable alternatives alternative held _ _ _ hheld
    exact hheld
  list := by
    intro t values _ hvalues
    exact Value.allCanonical_of_forall hvalues
  map := by
    intro key value entries _ hentries
    exact Value.entriesCanonical_of_forall hentries
  record := by
    intro name r values hfind hcompleted
    refine ⟨hcompleted.sorted, Value.fieldsCanonical_of_forall fun p hp => ?_⟩
    obtain ⟨f, hf, -, ⟨-, hv⟩ | hfallback⟩ := hcompleted.of_mem hp
    · exact hv
    · rcases Field.fallback_eq_some hfallback with hdefault | ⟨-, hnull⟩
      · exact hc r (Catalog.mem_of_find? hfind) f hf _ hdefault
      · rw [hnull]
        exact trivial

end Plain

/-! ## Served codecs -/

namespace Compile

/-- A record whose plan puts nothing on record has complete defaults. -/
theorem Setting.defaultsAdmitted_of_quiet {setting : Setting}
    (hregistry : setting.registry = .standard) {t : Ty} (hquiet : ¬ setting.Reports t) :
    setting.catalog.DefaultsAdmitted t := by
  rintro name r rfl hfind f hf v hv
  by_contra hadmits
  have hselect : setting.select (.record name) = .ok (.provider Provider.record) := by
    simp only [select, hregistry]
    rfl
  have hreported : Step.report (fun _ => .invalidDefault name f.name f.type) ∈
      (Provider.record.writer (.record name) setting.catalog).steps := by
    simp only [Provider.record, hfind]
    refine List.mem_flatMap.mpr ⟨f, hf, ?_⟩
    simp only [Provider.fieldSteps, hv, if_neg hadmits]
    exact List.mem_cons_self
  exact hquiet ⟨_, _, hselect, Or.inl hreported⟩

end Compile

/-- Some input is read as the value under one of the policies, from a position of it or whole. -/
def Handle.Reads (h : Handle) (v : Value) : Prop :=
  (∃ behaviour cursor after, h.readWith behaviour cursor = .ok v after) ∨
    ∃ behaviour bytes, (h.withPolicy behaviour).decode bytes = .ok v

theorem Handle.Reads.exists_readWith {h : Handle} {v : Value} (hreads : h.Reads v) :
    ∃ behaviour cursor after, h.readWith behaviour cursor = .ok v after := by
  rcases hreads with hread | ⟨behaviour, bytes, hdecoded⟩
  · exact hread
  · obtain ⟨after, hread, -⟩ := Handle.decode_eq_ok.mp hdecoded
    exact ⟨behaviour, _, after, hread⟩

namespace Context

variable {catalog : Catalog} {config : Config} {history : List (Ty × Policy)} {type : Ty}
  {policy : Policy} {h : Handle}

/-- A type that is served reaches only records whose defaults are complete. -/
theorem defaultsAdmitted_of_served
    (hserved : (((fresh catalog config).after history).request type policy).1 = .ok h) :
    Ty.Throughout catalog catalog.DefaultsAdmitted type := by
  intro t hreaches name r heq hfind
  obtain ⟨hcomplete, hregistry, hcatalog, -⟩ :=
    complete_after (setting_complete_fresh catalog config) history
  obtain ⟨hcomplete', hregistry', hcatalog', -⟩ := complete_request hcomplete type policy
  obtain ⟨-, -, -, -, hlibrary⟩ := handle_of_request hserved
  obtain ⟨hfaithful, hcodec, htype, -⟩ := faithful_of_request hserved
  have hcontains := Compile.contains_iff.mpr ⟨h.codec, hcodec, htype⟩
  rcases hfaithful.covers_reaches hcontains hreaches with hpublished | ⟨_, hunion, -⟩
  · obtain ⟨x, hx, hrecord⟩ := Compile.contains_iff.mp hpublished
    rw [hlibrary] at hx
    obtain ⟨earlier, later, hsplit⟩ := List.append_of_mem hx
    obtain ⟨hquiet, -⟩ := hcomplete'.placed earlier x later hsplit
    have hadmitted := Compile.Setting.defaultsAdmitted_of_quiet (hregistry'.trans hregistry) hquiet
    have hsame : (((fresh catalog config).after history).request type policy).2.setting.catalog =
        catalog := hcatalog'.trans hcatalog
    rw [hsame, hrecord] at hadmitted
    exact hadmitted name r heq hfind
  · rw [heq] at hunion
    cases hunion

/-- What a served codec reads has every property that is kept by reading. -/
theorem kept_of_reads
    (hserved : (((fresh catalog config).after history).request type policy).1 = .ok h)
    (hcatalog : catalog.Declared) {P : Ty → Value → Prop} (hkept : Plain.KeptByReading catalog P)
    {v : Value} (hreads : h.Reads v) : P type v := by
  obtain ⟨behaviour, cursor, after, hread⟩ := hreads.exists_readWith
  rw [readWith_eq_plain hserved] at hread
  exact Plain.returns_read hcatalog.fieldsDistinct hkept _ _ _ _ _ _ hread

/-- Every value that a served codec reads is complete: its type admits it, and every record in it,
at any depth, holds the fields of its declaration, each of the declared type, and no others. -/
theorem reads_complete
    (hserved : (((fresh catalog config).after history).request type policy).1 = .ok h)
    (hcatalog : catalog.Declared) {v : Value} (hreads : h.Reads v) :
    type.admitsIn catalog v = true ∧
      (catalog.DefaultsCanonical → v.Canonical ∧
        ∀ n fields, Value.Below n v (.record fields) →
          ∃ name r, Ty.Reaches catalog type (.record name) ∧ catalog.find? name = some r ∧
            r.FilledBy catalog fields) := by
  have hadmits := kept_of_reads hserved hcatalog Plain.kept_admitsIn hreads
    (defaultsAdmitted_of_served hserved)
  refine ⟨hadmits, fun hdefaults => ?_⟩
  have hcanonical := kept_of_reads hserved hcatalog (Plain.kept_canonical hdefaults) hreads
  exact ⟨hcanonical, fun n fields hbelow => Ty.filledBy_of_below hadmits hcanonical hbelow⟩

def message : RecordDef where
  name := ⟨"Message"⟩
  fields :=
    [⟨"from", .primitive .string, none⟩,
      ⟨"priority", .primitive (.int .u8), some (.int .u8 ⟨7, by decide⟩)⟩,
      ⟨"part", .nullable (.union [.bytes, .primitive .string]), none⟩,
      ⟨"reply", .nullable (.record ⟨"Message"⟩), none⟩]

def messages : Catalog := ⟨[message]⟩

theorem messages_declared : messages.Declared := .declare .empty (r := message) rfl

theorem messages_defaultsCanonical : messages.DefaultsCanonical := by
  intro r hr f hf v hv
  obtain rfl : r = message := List.mem_singleton.mp hr
  simp only [message, List.mem_cons, List.not_mem_nil, or_false] at hf
  rcases hf with rfl | rfl | rfl | rfl
  all_goals cases hv
  exact trivial

theorem message_is_served :
    ∃ h, (((fresh messages {}).after []).request message.type .throw).1 = .ok h :=
  exists_handle (by decide)

/-- A message with a sender and a reply; the reply has a sender, and a part with an unknown tag. -/
def messageBytes : List UInt8 :=
  [0x82, 0xa4, 0x66, 0x72, 0x6f, 0x6d, 0xa1, 0x61,
    0xa5, 0x72, 0x65, 0x70, 0x6c, 0x79,
      0x82, 0xa4, 0x66, 0x72, 0x6f, 0x6d, 0xa1, 0x62,
        0xa4, 0x70, 0x61, 0x72, 0x74, 0x92, 0xa3, 0x50, 0x6e, 0x67, 0x01]

/-- The part with an unknown tag is null, and what is left out is filled in at both levels. -/
def filledMessage : Value :=
  .record [("from", .string "a"), ("part", .null), ("priority", .int .u8 ⟨7, by decide⟩),
    ("reply", .record [("from", .string "b"), ("part", .null),
      ("priority", .int .u8 ⟨7, by decide⟩), ("reply", .null)])]

set_option maxRecDepth 4000 in
theorem read_messageBytes :
    Plain.read messages (Scope.root .ignore 128).room message.type (Scope.root .ignore 128)
      (.ofBytes messageBytes) = .ok filledMessage ⟨33, []⟩ := by
  with_unfolding_all rfl

theorem filledMessage_complete : ∃ h,
    (((fresh messages {}).after []).request message.type .throw).1 = .ok h ∧
      (h.withPolicy .ignore).decode messageBytes = .ok filledMessage ∧
      message.type.admitsIn messages filledMessage = true ∧
      ∀ n fields, Value.Below n filledMessage (.record fields) →
        ∃ name r, Ty.Reaches messages message.type (.record name) ∧
          messages.find? name = some r ∧ r.FilledBy messages fields := by
  obtain ⟨h, hserved⟩ := message_is_served
  have hdecoded : (h.withPolicy .ignore).decode messageBytes = .ok filledMessage :=
    decode_of_read hserved read_messageBytes
  obtain ⟨hadmits, hcomplete⟩ :=
    reads_complete hserved messages_declared (Or.inr ⟨.ignore, messageBytes, hdecoded⟩)
  exact ⟨h, hserved, hdecoded, hadmits, (hcomplete messages_defaultsCanonical).2⟩

end Context

end SchemaPack
