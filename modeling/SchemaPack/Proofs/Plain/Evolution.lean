import SchemaPack.Proofs.Plain.Alternatives

/-!
Records that gain fields. A catalog extends another if one record has more fields in it, each of
which can be left out of a payload. What is written with the earlier catalog is read with the later
one with the fields filled in, and what is written with the later catalog is read with the earlier
one without them, wherever the record occurs, also inside itself.
-/
namespace SchemaPack

namespace RecordDef

def added (before after : RecordDef) : List Field :=
  after.fields.filter fun f => !before.declares f.name

theorem mem_added {before after : RecordDef} {f : Field} :
    f ∈ before.added after ↔ f ∈ after.fields ∧ before.declares f.name = false := by
  simp [added]

def alone (r : RecordDef) (change : List (String × Value) → List (String × Value))
    (name : TypeName) (fields : List (String × Value)) : List (String × Value) :=
  if name = r.name then change fields else fields

variable {r : RecordDef} {change : List (String × Value) → List (String × Value)}

theorem alone_self : r.alone change r.name = change := by
  funext fields
  rw [alone, if_pos rfl]

theorem alone_of_ne {name : TypeName} (h : name ≠ r.name) :
    r.alone change name = fun fields => fields := by
  funext fields
  rw [alone, if_neg h]

end RecordDef

/-- The catalogs agree except on one record. Its later declaration keeps the fields of the earlier
one with their types, in any order, and every field that it adds has a default or takes null. -/
structure Catalog.Extends (old new : Catalog) (before after : RecordDef) : Prop where
  found : old.find? before.name = some before
  replaced : new.find? before.name = some after
  others : ∀ name, name ≠ before.name → new.find? name = old.find? name
  kept : ∀ f ∈ before.fields, ∃ g ∈ after.fields, g.name = f.name ∧ g.type = f.type
  optional : ∀ f ∈ before.added after, f.default.isSome = true ∨ f.type.isNullable = true

def Fields.fill : List Field → List (String × Value) → List (String × Value)
  | [], values => values
  | f :: rest, values =>
    match f.fallback with
    | some v => fill rest (insert f.name v values)
    | none => fill rest values

namespace Value

/-- A value of a type, with the added fields filled in for the record wherever it occurs. -/
def extended (old : Catalog) (before after : RecordDef) (v : Value) (t : Ty) : Value :=
  v.alter old (before.alone (Fields.fill (before.added after))) t

/-- A value of a type, with only the earlier fields of the record wherever it occurs. -/
def stripped (new : Catalog) (before : RecordDef) (v : Value) (t : Ty) : Value :=
  v.alter new (before.alone (List.filter fun f => before.declares f.1)) t

/-! ## Heights -/

variable {c : Catalog} {change : TypeName → List (String × Value) → List (String × Value)}

theorem heightAll_alterItems_le {values : List Value}
    (h : ∀ v ∈ values, ∀ t, (alter c change v t).height ≤ v.height) (types : List Ty) :
    heightAll (alterItems c change values types) ≤ heightAll values := by
  induction values generalizing types with
  | nil => cases types <;> exact Nat.le_refl _
  | cons v values ih =>
    cases types with
    | nil => exact Nat.le_refl _
    | cons t types =>
      have hfirst := h v List.mem_cons_self t
      have hrest := ih (fun w hw => h w (List.mem_cons_of_mem _ hw)) types
      simp only [alterItems, heightAll]
      omega

/-- A value does not grow higher if fields are only taken away. -/
theorem height_alter_le (hchange : ∀ name fields, change name fields ⊆ fields) (v : Value)
    (t : Ty) : (alter c change v t).height ≤ v.height := by
  induction v generalizing t with
  | tuple values ih =>
    rw [alter]
    split
    · exact heightAll_alterItems_le ih _
    · exact Nat.le_refl _
  | union alternative held ih => exact Nat.succ_le_succ (ih alternative)
  | list values ih =>
    rw [alter]
    split
    · rename_i element _
      rw [alterAll_eq]
      refine le_of_forall_lt fun n hn => ?_
      simp only [height, lt_heightAll, List.mem_map] at hn ⊢
      obtain ⟨_, ⟨v, hv, rfl⟩, hn⟩ := hn
      exact ⟨v, hv, hn.trans (ih v hv element)⟩
    · exact Nat.le_refl _
  | map entries ih =>
    rw [alter]
    split
    · rename_i key value _
      rw [alterEntries_eq]
      refine le_of_forall_lt fun n hn => ?_
      simp only [height, lt_heightEntries, List.mem_map] at hn ⊢
      obtain ⟨_, ⟨e, he, rfl⟩, hn⟩ := hn
      exact ⟨e, he, hn.imp (·.trans ((ih e he).1 key)) (·.trans ((ih e he).2 value))⟩
    · exact Nat.le_refl _
  | record fields ih =>
    rw [alter]
    split
    · split
      · refine le_of_forall_lt fun n hn => ?_
        simp only [height, lt_heightFields] at hn ⊢
        obtain ⟨q, hq, hn⟩ := hn
        obtain ⟨v, hv, heq⟩ := mem_alterFields.mp (hchange _ _ hq)
        refine ⟨(q.1, v), hv, hn.trans ?_⟩
        rw [heq]
        split
        · exact ih _ hv _
        · exact Nat.le_refl _
      · exact Nat.le_refl _
    · exact Nat.le_refl _
  | _ => exact Nat.le_refl _

theorem height_stripped_le (new : Catalog) (before : RecordDef) (v : Value) (t : Ty) :
    (v.stripped new before t).height ≤ v.height := by
  refine height_alter_le (fun name fields => ?_) v t
  unfold RecordDef.alone
  split
  · exact fun q hq => (List.mem_filter.mp hq).1
  · exact List.Subset.refl _

end Value

/-! ## Filling in -/

namespace Fields

theorem sorted_fill {added : List Field} {values : List (String × Value)} (h : Sorted values) :
    Sorted (fill added values) := by
  induction added generalizing values with
  | nil => exact h
  | cons f added ih =>
    rw [fill]
    split
    · exact ih (sorted_insert h)
    · exact ih h

theorem get?_fill_of_not_mem {added : List Field} {name : String}
    (h : name ∉ added.map (·.name)) (values : List (String × Value)) :
    get? name (fill added values) = get? name values := by
  induction added generalizing values with
  | nil => rfl
  | cons f added ih =>
    rw [List.map_cons, List.mem_cons, not_or] at h
    have hne : f.name ≠ name := fun heq => h.1 heq.symm
    rw [fill]
    split
    · rw [ih h.2, get?_insert, if_neg hne]
    · exact ih h.2 values

/-- A field that is filled in holds what it falls back to. -/
theorem get?_fill_of_mem {added : List Field} (hnodup : (added.map (·.name)).Nodup) {f : Field}
    (hf : f ∈ added) {v : Value} (hv : f.fallback = some v) (values : List (String × Value)) :
    get? f.name (fill added values) = some v := by
  induction added generalizing values with
  | nil => cases hf
  | cons g added ih =>
    obtain ⟨hfresh, hrest⟩ := List.nodup_cons.mp hnodup
    rw [fill]
    rcases List.mem_cons.mp hf with rfl | hf
    · rw [hv]
      simp only
      rw [get?_fill_of_not_mem hfresh, get?_insert, if_pos rfl]
    · split
      · exact ih hrest hf _
      · exact ih hrest hf _

end Fields

namespace Catalog.Extends

variable {old new : Catalog} {before after : RecordDef} {under : Policy → Prop}

/-- An added field falls back to something. -/
theorem exists_fallback (h : old.Extends new before after) {f : Field}
    (hf : f ∈ before.added after) : ∃ v, f.fallback = some v := by
  unfold Field.fallback
  rcases h.optional f hf with hdefault | hnullable
  · obtain ⟨v, hv⟩ := Option.isSome_iff_exists.mp hdefault
    exact ⟨v, by rw [hv]⟩
  · cases f.default with
    | some v => exact ⟨v, rfl⟩
    | none => exact ⟨.null, by simp only [hnullable, if_true]⟩

/-- The later declaration knows all names of the earlier one. -/
theorem declares_of_declares (h : old.Extends new before after) {name : String}
    (hname : before.declares name = true) : after.declares name = true := by
  obtain ⟨f, hf, rfl⟩ := RecordDef.declares_iff.mp hname
  obtain ⟨g, hg, hsame, -⟩ := h.kept f hf
  exact RecordDef.declares_iff.mpr ⟨g, hg, hsame⟩

theorem type_eq (h : old.Extends new before after) (hafter : (after.fields.map (·.name)).Nodup)
    {f g : Field} (hf : f ∈ before.fields) (hg : g ∈ after.fields) (hname : g.name = f.name) :
    g.type = f.type := by
  obtain ⟨g', hg', hname', htype⟩ := h.kept f hf
  rw [List.inj_on_of_nodup_map hafter hg hg' (hname.trans hname'.symm), htype]

/-! ## The record itself -/

theorem meets_after (h : old.Extends new before after)
    (hafter : (after.fields.map (·.name)).Nodup) : Plain.Meets under before.fields after where
  shared _ hf _ hg hname := h.type_eq hafter hf hg hname
  ignored f hf hunknown := by
    have hknown := h.declares_of_declares (RecordDef.declares_iff.mpr ⟨f, hf, rfl⟩)
    exact absurd hknown (Bool.eq_false_iff.mp hunknown)

theorem meets_before (h : old.Extends new before after)
    (hafter : (after.fields.map (·.name)).Nodup) :
    Plain.Meets (· = .ignore) after.fields before where
  shared _ hf _ hg hname := (h.type_eq hafter hg hf hname.symm).symm
  ignored _ _ _ _ hpolicy := hpolicy

/-- Of a record of the earlier declaration, a field of the later one holds what it held before, and
if it is added what it falls back to. -/
theorem exists_filled (h : old.Extends new before after)
    (hafter : (after.fields.map (·.name)).Nodup) {values : List (String × Value)}
    (hnamed : before.NamedBy values) {f : Field} (hf : f ∈ after.fields) :
    ∃ v, Fields.get? f.name (Fields.fill (before.added after) values) = some v ∧
      (Fields.get? f.name values).or f.fallback = some v := by
  cases hknown : before.declares f.name with
  | true =>
    obtain ⟨g, hg, hname⟩ := RecordDef.declares_iff.mp hknown
    obtain ⟨v, hv⟩ := hnamed.present g hg
    rw [hname] at hv
    have hold : f.name ∉ (before.added after).map (·.name) := by
      intro hmem
      obtain ⟨d, hd, hsame⟩ := List.mem_map.mp hmem
      rw [← hsame, (RecordDef.mem_added.mp hd).2] at hknown
      cases hknown
    exact ⟨v, by rw [Fields.get?_fill_of_not_mem hold, hv], by rw [hv, Option.some_or]⟩
  | false =>
    have hadded : f ∈ before.added after := RecordDef.mem_added.mpr ⟨hf, hknown⟩
    have hnodup : ((before.added after).map (·.name)).Nodup :=
      hafter.sublist (List.filter_sublist.map _)
    have hmissing : Fields.get? f.name values = none := by
      rw [Fields.get?_eq_none_iff]
      intro p hp hname
      exact absurd (hname ▸ hnamed.declared p hp) (Bool.eq_false_iff.mp hknown)
    obtain ⟨v, hv⟩ := h.exists_fallback hadded
    exact ⟨v, Fields.get?_fill_of_mem hnodup hadded hv values, by rw [hmissing, Option.none_or, hv]⟩

/-- The later declaration completes an earlier record by filling the added fields in. -/
theorem turns_after (h : old.Extends new before after)
    (hafter : (after.fields.map (·.name)).Nodup) :
    Plain.Turns before after (fun fields => fields) (Fields.fill (before.added after)) where
  taken _ hnamed p :=
    (and_iff_left_of_imp fun hp => h.declares_of_declares (hnamed.declared p hp)).symm
  completed values hnamed := by
    have hfilled : ∀ f ∈ after.fields,
        ∃ v, Fields.get? f.name (Fields.fill (before.added after) values) = some v ∧
          (Fields.get? f.name values).or f.fallback = some v :=
      fun f hf => h.exists_filled hafter hnamed hf
    obtain ⟨complete, hok⟩ :=
      Plain.exists_completeRecord (fun f hf => (hfilled f hf).imp fun _ hv => hv.2) []
    obtain ⟨hcomplete, hothers, hfields⟩ :=
      Plain.get?_of_completeRecord hok Fields.sorted_nil hafter
    rw [hok]
    congr 1
    refine hcomplete.ext (Fields.sorted_fill hnamed.sorted) fun name => ?_
    by_cases hname : name ∈ after.fields.map (·.name)
    · obtain ⟨f, hf, rfl⟩ := List.mem_map.mp hname
      obtain ⟨v, hv, hsame⟩ := hfields f hf
      obtain ⟨w, hw, hsame'⟩ := hfilled f hf
      rw [hv, hw, ← hsame, hsame']
    · have hunknown : ∀ p ∈ values, p.1 ≠ name := by
        rintro p hp rfl
        obtain ⟨f, hf, hsame⟩ :=
          RecordDef.declares_iff.mp (h.declares_of_declares (hnamed.declared p hp))
        exact hname (hsame ▸ List.mem_map_of_mem hf)
      have hold : name ∉ (before.added after).map (·.name) := fun hmem =>
        hname ((List.filter_sublist.map _).subset hmem)
      rw [hothers name hname, Fields.get?_fill_of_not_mem hold,
        Fields.get?_eq_none_iff.mpr hunknown]
      rfl

/-- The earlier declaration takes its own fields out of a later record. -/
theorem turns_before (h : old.Extends new before after) :
    Plain.Turns after before (List.filter fun p => before.declares p.1)
      (List.filter fun p => before.declares p.1) where
  taken _ _ _ := List.mem_filter
  completed values hnamed := by
    have hsorted' : Fields.Sorted (values.filter fun p => before.declares p.1) :=
      hnamed.sorted.sublist (List.filter_sublist.map _)
    refine Plain.completeRecord_of_values hsorted' (fun p hp => (List.mem_filter.mp hp).2)
      fun f hf => ?_
    obtain ⟨g, hg, hname, -⟩ := h.kept f hf
    obtain ⟨v, hv⟩ := hnamed.present g hg
    rw [hname] at hv
    have hknown : before.declares f.name = true := RecordDef.declares_iff.mpr ⟨f, hf, rfl⟩
    refine ⟨v, hv, hsorted'.get?_of_mem ?_⟩
    exact List.mem_filter.mpr ⟨Fields.mem_of_get? hv, hknown⟩

/-! ## Both catalogs -/

/-- What is written with the earlier catalog is extended for the later one. -/
theorem passes_forward (h : old.Extends new before after) (hold : old.FieldsDistinct)
    (hnew : new.FieldsDistinct) :
    Plain.Passes old new under (fun _ fields => fields)
      (before.alone (Fields.fill (before.added after))) := by
  refine ⟨hold, fun name r hfind => ?_⟩
  by_cases hname : name = before.name
  · subst hname
    obtain rfl : before = r := Option.some.inj (h.found.symm.trans hfind)
    have hafter := hnew after (mem_of_find? h.replaced)
    rw [RecordDef.alone_self]
    exact ⟨after, h.replaced, h.meets_after hafter, h.turns_after hafter⟩
  · rw [RecordDef.alone_of_ne hname]
    refine ⟨r, (h.others name hname).trans hfind, ?_, .refl r⟩
    exact .refl (hold r (mem_of_find? hfind))

/-- What is written with the later catalog is stripped for the earlier one, if that one ignores the
unexpected. -/
theorem passes_backward (h : old.Extends new before after) (hnew : new.FieldsDistinct) :
    Plain.Passes new old (· = .ignore) (before.alone (List.filter fun p => before.declares p.1))
      (before.alone (List.filter fun p => before.declares p.1)) := by
  refine ⟨hnew, fun name r hfind => ?_⟩
  by_cases hname : name = before.name
  · subst hname
    obtain rfl : after = r := Option.some.inj (h.replaced.symm.trans hfind)
    have hafter := hnew after (mem_of_find? h.replaced)
    rw [RecordDef.alone_self]
    exact ⟨before, h.found, h.meets_before hafter, h.turns_before⟩
  · rw [RecordDef.alone_of_ne hname]
    refine ⟨r, (h.others name hname).symm.trans hfind, ?_, .refl r⟩
    exact .refl (hnew r (mem_of_find? hfind))

end Catalog.Extends

/-! ## Served codecs -/

namespace Context

/-- Bytes that are read as a value are decoded as the value, if the limit admits its levels. -/
theorem decode_of_delivers {catalog : Catalog} {config : Config} {history : List (Ty × Policy)}
    {type : Ty} {policy behaviour : Policy} {h : Handle} {under : Policy → Prop} {levels : Nat}
    {v : Value} {bytes : List UInt8}
    (hserved : (((fresh catalog config).after history).request type policy).1 = .ok h)
    (hbytes : Plain.Delivers catalog under levels v type bytes) (hbehaviour : under behaviour)
    (hlevels : levels ≤ config.maxDepth) : (h.withPolicy behaviour).decode bytes = .ok v := by
  have hroom : (Scope.root behaviour config.maxDepth).room = config.maxDepth + 1 := rfl
  have hread := hbytes (Scope.root behaviour config.maxDepth).room
    (Scope.root behaviour config.maxDepth) hbehaviour 0 []
  rw [List.append_nil] at hread
  exact decode_of_read hserved (hread.1 (by omega))

/-- A record may gain fields that have a default or take null. What a codec of the earlier catalog
encodes, the later codec of the type decodes under either policy as the value with the added fields
filled in, for every record inside. What the later codec encodes, the earlier one decodes as the
value without the added fields, if it ignores the unexpected; what it passes over takes no room. -/
theorem evolution_lossless {old new : Catalog} {before after : RecordDef} {config config' : Config}
    {history history' : List (Ty × Policy)} {type : Ty} {policy policy' : Policy} {h h' : Handle}
    (hextends : old.Extends new before after) (hold : old.Declared) (hnew : new.Declared)
    (hserved : (((fresh old config).after history).request type policy).1 = .ok h)
    (hserved' : (((fresh new config').after history').request type policy').1 = .ok h')
    (htags : Ty.Throughout old Ty.TagsDistinct type) :
    (∀ v bytes, v.Canonical → h.encode v = .ok bytes → v.height ≤ config'.maxDepth →
      ∀ behaviour,
        (h'.withPolicy behaviour).decode bytes = .ok (v.extended old before after type)) ∧
    ∀ w bytes, w.Canonical → h'.encode w = .ok bytes →
      (w.stripped new before type).height ≤ w.height ∧
        ((w.stripped new before type).height ≤ config.maxDepth →
          (h.withPolicy .ignore).decode bytes = .ok (w.stripped new before type)) := by
  constructor
  · intro v bytes hv hencoded hheight behaviour
    have hpass : Plain.Passes old new (fun _ => True) (fun _ fields => fields)
        (before.alone (Fields.fill (before.added after))) :=
      hextends.passes_forward hold.fieldsDistinct hnew.fieldsDistinct
    have hbytes := leaves_of_encode hserved
      (Plain.leaves_alter hpass (Or.inl rfl) v hv htags) hencoded
    rw [Value.alter_id] at hbytes
    exact decode_of_delivers hserved' hbytes trivial hheight
  · intro w bytes hw hencoded
    refine ⟨w.height_stripped_le new before type, fun hheight => ?_⟩
    have hpass := hextends.passes_backward hnew.fieldsDistinct
    have hbytes := leaves_of_encode hserved'
      (Plain.leaves_alter hpass (Or.inr rfl) w hw htags) hencoded
    exact decode_of_delivers hserved hbytes rfl hheight

def comment : RecordDef where
  name := ⟨"Comment"⟩
  fields := [⟨"text", .primitive .string, none⟩, ⟨"replies", .list (.record ⟨"Comment"⟩), none⟩]

def laterComment : RecordDef where
  name := ⟨"Comment"⟩
  fields :=
    [⟨"author", .primitive .string, some (.string "?")⟩, ⟨"text", .primitive .string, none⟩,
      ⟨"pinned", .nullable (.primitive .bool), none⟩,
      ⟨"replies", .list (.record ⟨"Comment"⟩), none⟩]

def article : RecordDef := ⟨⟨"Article"⟩, [⟨"comments", .list (.record ⟨"Comment"⟩), none⟩]⟩

def blog : Catalog := ⟨[article, comment]⟩

def laterBlog : Catalog := ⟨[article, laterComment]⟩

theorem blog_declared : blog.Declared :=
  .declare (.declare .empty (r := article) rfl) (r := comment) rfl

theorem laterBlog_declared : laterBlog.Declared :=
  .declare (.declare .empty (r := article) rfl) (r := laterComment) rfl

theorem blog_extends : blog.Extends laterBlog comment laterComment where
  found := by rfl
  replaced := by rfl
  others name hname := by
    have hne : (comment.name == name) = false := beq_eq_false_iff_ne.mpr hname.symm
    have hne' : (laterComment.name == name) = false := hne
    simp only [Catalog.find?, blog, laterBlog, List.find?_cons, hne, hne']
  kept := by decide
  optional := by decide

theorem blog_tagsDistinct : Ty.Throughout blog Ty.TagsDistinct article.type :=
  Ty.throughout_of_closed
    [article.type, .list comment.type, comment.type, .primitive .string] (by decide) (by decide)
    List.mem_cons_self

theorem article_is_served :
    ∃ h, (((fresh blog { maxDepth := 5 }).after []).request article.type .throw).1 = .ok h :=
  exists_handle (by decide)

theorem later_article_is_served :
    ∃ h, (((fresh laterBlog { maxDepth := 5 }).after []).request article.type .throw).1 = .ok h :=
  exists_handle (by decide)

def commented : Value :=
  .record [("comments", .list [.record
    [("replies", .list [.record [("replies", .list []), ("text", .string "b")]]),
      ("text", .string "a")]])]

def commentedBytes : List UInt8 :=
  [0x81, 0xa8, 0x63, 0x6f, 0x6d, 0x6d, 0x65, 0x6e, 0x74, 0x73, 0x91,
    0x82, 0xa4, 0x74, 0x65, 0x78, 0x74, 0xa1, 0x61,
      0xa7, 0x72, 0x65, 0x70, 0x6c, 0x69, 0x65, 0x73, 0x91,
      0x82, 0xa4, 0x74, 0x65, 0x78, 0x74, 0xa1, 0x62,
        0xa7, 0x72, 0x65, 0x70, 0x6c, 0x69, 0x65, 0x73, 0x90]

def extendedCommented : Value :=
  .record [("comments", .list [.record
    [("author", .string "?"), ("pinned", .null),
      ("replies", .list [.record [("author", .string "?"), ("pinned", .null),
        ("replies", .list []), ("text", .string "b")]]),
      ("text", .string "a")]])]

/-- An article with the same comments, of which one is pinned and both have an author. -/
def signed : Value :=
  .record [("comments", .list [.record
    [("author", .string "x"), ("pinned", .bool true),
      ("replies", .list [.record [("author", .string "y"), ("pinned", .null),
        ("replies", .list []), ("text", .string "b")]]),
      ("text", .string "a")]])]

def signedBytes : List UInt8 :=
  [0x81, 0xa8, 0x63, 0x6f, 0x6d, 0x6d, 0x65, 0x6e, 0x74, 0x73, 0x91,
    0x84, 0xa6, 0x61, 0x75, 0x74, 0x68, 0x6f, 0x72, 0xa1, 0x78,
      0xa4, 0x74, 0x65, 0x78, 0x74, 0xa1, 0x61,
      0xa6, 0x70, 0x69, 0x6e, 0x6e, 0x65, 0x64, 0xc3,
      0xa7, 0x72, 0x65, 0x70, 0x6c, 0x69, 0x65, 0x73, 0x91,
      0x84, 0xa6, 0x61, 0x75, 0x74, 0x68, 0x6f, 0x72, 0xa1, 0x79,
        0xa4, 0x74, 0x65, 0x78, 0x74, 0xa1, 0x62,
        0xa6, 0x70, 0x69, 0x6e, 0x6e, 0x65, 0x64, 0xc0,
        0xa7, 0x72, 0x65, 0x70, 0x6c, 0x69, 0x65, 0x73, 0x90]

theorem commented_canonical : commented.Canonical := by
  simp only [commented, Value.Canonical, Value.AllCanonical, Value.FieldsCanonical, Fields.Sorted,
    Fields.names]
  decide

theorem signed_canonical : signed.Canonical := by
  simp only [signed, Value.Canonical, Value.AllCanonical, Value.FieldsCanonical, Fields.Sorted,
    Fields.names]
  decide

theorem extended_commented :
    commented.extended blog comment laterComment article.type = extendedCommented := by
  rfl

theorem stripped_signed : signed.stripped laterBlog comment article.type = commented := by
  rfl

/-- The article gains authors and pins for the later codec, and loses them for the earlier one. -/
theorem article_evolves : ∃ h h',
    (((fresh blog { maxDepth := 5 }).after []).request article.type .throw).1 = .ok h ∧
      (((fresh laterBlog { maxDepth := 5 }).after []).request article.type .throw).1 = .ok h' ∧
      (∀ behaviour, (h'.withPolicy behaviour).decode commentedBytes = .ok extendedCommented) ∧
      (h.withPolicy .ignore).decode signedBytes = .ok commented := by
  obtain ⟨h, hserved⟩ := article_is_served
  obtain ⟨h', hserved'⟩ := later_article_is_served
  obtain ⟨hforward, hbackward⟩ := evolution_lossless blog_extends blog_declared laterBlog_declared
    hserved hserved' blog_tagsDistinct
  have hencoded : h.encode commented = .ok commentedBytes := encode_of_write hserved rfl
  have hencoded' : h'.encode signed = .ok signedBytes := encode_of_write hserved' rfl
  refine ⟨h, h', hserved, hserved', fun behaviour => ?_, ?_⟩
  · rw [← extended_commented]
    exact hforward _ _ commented_canonical hencoded (by decide) behaviour
  · rw [← stripped_signed]
    exact (hbackward _ _ signed_canonical hencoded').2 (by decide)

end Context

end SchemaPack
