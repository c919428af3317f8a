import SchemaPack.Proofs.Library.Landing

/-!
Writing through a faithful library is writing by the type. The induction is on the value, since
every step inwards takes a part of it; the edges and the types are followed side by side.
-/
namespace SchemaPack

variable {c : Catalog} {lib : Library}

theorem Fields.get?_map {α β : Type} (g : α → β) (name : String) (fields : List (String × α)) :
    get? name (fields.map fun f => (f.1, g f.2)) = (get? name fields).map g := by
  simp only [get?, List.find?_map, Option.map_map]
  rfl

theorem Library.fieldWriters_eq_map (lib : Library) (fields : List (String × Value)) :
    lib.fieldWriters fields = fields.map fun f => (f.1, lib.write f.2) := by
  induction fields with
  | nil => rfl
  | cons f rest ih => simp only [fieldWriters, ih, List.map_cons]

theorem Plain.fieldWriters_eq_map (c : Catalog) (fields : List (String × Value)) :
    fieldWriters c fields = fields.map fun f => (f.1, write c f.2) := by
  induction fields with
  | nil => rfl
  | cons f rest ih => simp only [fieldWriters, ih, List.map_cons]

/-- A field that is found is one of the fields. -/
theorem Fields.mem_of_get? {α : Type} {name : String} {fields : List (String × α)} {v : α}
    (h : get? name fields = some v) : (name, v) ∈ fields := by
  unfold get? at h
  obtain ⟨f, hfind, rfl⟩ := Option.map_eq_some_iff.mp h
  have hname : f.1 = name := by simpa using List.find?_some hfind
  rw [← hname]
  exact List.mem_of_find?_eq_some hfind

theorem Provider.unionShape?_nullable {t : Ty} (h : ∀ alternatives, t ≠ .union alternatives) :
    unionShape? (.nullable t) = none := by
  cases t with
  | union alternatives => exact absurd rfl (h alternatives)
  | _ => rfl

namespace Routine.Describes

/-- A value other than null with no values inside is written as its type has it. -/
theorem writeAtom_eq {t : Ty} {r : Routine} (h : Describes c t r) {v : Value}
    (hv : v ≠ .null) : r.writeAtom t v = Plain.writeAtom t v := by
  cases h with
  | nullableUnion edges _ =>
    cases v with
    | null => exact absurd rfl hv
    | _ => rfl
  | version => cases v <;> rfl
  | _ => cases v <;> rfl

/-- Null is written where the type is nullable. -/
theorem writeAtom_null {t : Ty} {r : Routine} (h : Describes c t r)
    (hwrapped : t.unwrapped = t) : r.writeAtom t .null = Plain.write c .null t := by
  cases h with
  | primitive p => cases p <;> rfl
  | nullable e hunion =>
    obtain ⟨alternatives, halternatives⟩ := Ty.unwrapped_eq_nullable hwrapped
    exact absurd halternatives (hunion alternatives)
  | _ => rfl

end Routine.Describes

namespace Library.Follows

theorem declares_eq {fields : List Field} {plans : List FieldPlan}
    (h : List.Forall₂ FieldPlan.Follows fields plans) (name : String) :
    plans.any (·.name == name) = fields.any (·.name == name) := by
  induction h with
  | nil => rfl
  | cons hplan _ ih => simp only [List.any_cons, ih, hplan.name]

theorem writeFields_eq {record : TypeName} {fields : List Field} {plans : List FieldPlan}
    (h : List.Forall₂ FieldPlan.Follows fields plans) (hplans : ∀ p ∈ plans, lib.Leads p.edge)
    {values : List (String × Value)}
    (hvalues : ∀ f ∈ values, ∀ e, lib.Leads e → lib.write f.2 e = Plain.write c f.2 e.type) :
    writeFields record (lib.fieldWriters values) plans =
      Plain.writeFields record (Plain.fieldWriters c values) fields := by
  induction h with
  | nil => rfl
  | @cons f p fields plans hplan _ ih =>
    have hrest := ih fun q hq => hplans q (List.mem_cons_of_mem _ hq)
    rw [fieldWriters_eq_map, Plain.fieldWriters_eq_map] at hrest ⊢
    simp only [writeFields, Plain.writeFields, Fields.get?_map, hplan.name]
    cases hget : Fields.get? f.name values with
    | none => rfl
    | some v =>
      have hv := hvalues _ (Fields.mem_of_get? hget) p.edge (hplans p List.mem_cons_self)
      simp only [Option.map_some, hv, hplan.type, hrest]

theorem writeRecord_eq {name : TypeName} {r : RecordDef} (hfind : c.find? name = some r)
    {plans : List FieldPlan} (h : List.Forall₂ FieldPlan.Follows r.fields plans)
    (hplans : ∀ p ∈ plans, lib.Leads p.edge) {values : List (String × Value)}
    (hvalues : ∀ f ∈ values, ∀ e, lib.Leads e → lib.write f.2 e = Plain.write c f.2 e.type) :
    writeRecord name plans (lib.fieldWriters values) =
      Plain.writeRecord c name (Plain.fieldWriters c values) := by
  have hundeclared : (fun w : String × Value => !plans.any (·.name == w.1)) =
      fun w => !r.declares w.1 := by
    funext w
    rw [declares_eq h, RecordDef.declares]
  have hfields : writeFields name (lib.fieldWriters values) plans =
      Plain.writeFields name (Plain.fieldWriters c values) r.fields :=
    writeFields_eq h hplans hvalues
  unfold writeRecord Plain.writeRecord
  rw [hfind, hfields, ← h.length_eq, fieldWriters_eq_map, Plain.fieldWriters_eq_map]
  simp only [List.find?_map, Function.comp_def, hundeclared]
  cases values.find? fun w => !r.declares w.1 with
  | none => rfl
  | some w => rfl

theorem writeAll_eq {values : List Value} {e : Edge} (he : lib.Leads e)
    (hvalues : ∀ v ∈ values, ∀ e, lib.Leads e → lib.write v e = Plain.write c v e.type) (i : Nat) :
    lib.writeAll values e i = Plain.writeAll c values e.type i := by
  induction values generalizing i with
  | nil => rfl
  | cons v values ih =>
    simp only [writeAll, Plain.writeAll, hvalues v List.mem_cons_self e he,
      ih fun w hw => hvalues w (List.mem_cons_of_mem _ hw)]

theorem writeItems_eq {values : List Value} {edges : List Edge} (hedges : ∀ e ∈ edges, lib.Leads e)
    (hvalues : ∀ v ∈ values, ∀ e, lib.Leads e → lib.write v e = Plain.write c v e.type) (i : Nat) :
    lib.writeItems values .standard i edges =
      Plain.writeItems c values i (edges.map (·.type)) := by
  induction values generalizing edges i with
  | nil => cases edges <;> rfl
  | cons v values ih =>
    cases edges with
    | nil => rfl
    | cons e edges =>
      simp only [writeItems, Plain.writeItems, List.map_cons,
        hvalues v List.mem_cons_self e (hedges e List.mem_cons_self),
        ih (fun d hd => hedges d (List.mem_cons_of_mem _ hd))
          fun w hw => hvalues w (List.mem_cons_of_mem _ hw)]
      rfl

theorem writeEntries_eq {entries : List (Value × Value)} {key value : Edge}
    (hkey : lib.Leads key) (hvalue : lib.Leads value)
    (hentries : ∀ entry ∈ entries,
      (∀ e, lib.Leads e → lib.write entry.1 e = Plain.write c entry.1 e.type) ∧
        ∀ e, lib.Leads e → lib.write entry.2 e = Plain.write c entry.2 e.type) (i : Nat) :
    lib.writeEntries entries key value i =
      Plain.writeEntries c entries key.type value.type i := by
  induction entries generalizing i with
  | nil => rfl
  | cons entry entries ih =>
    obtain ⟨hk, hv⟩ := hentries entry List.mem_cons_self
    simp only [writeEntries, Plain.writeEntries, hk key hkey, hv value hvalue,
      ih fun w hw => hentries w (List.mem_cons_of_mem _ hw)]

/-- An alternative is found by its type. -/
theorem find?_ofEdge (edges : List Edge) (t : Ty) :
    match (edges.map Alternative.ofEdge).find? (·.type == t) with
    | some a => t ∈ edges.map (·.type) ∧ a.edge ∈ edges ∧ a.edge.type = t ∧ a.tag = t.tag
    | none => t ∉ edges.map (·.type) := by
  split
  · rename_i a hfind
    obtain ⟨e, he, rfl⟩ := List.mem_map.mp (List.mem_of_find?_eq_some hfind)
    have hfound := List.find?_some hfind
    have htype : e.type = t := beq_iff_eq.mp hfound
    subst htype
    exact ⟨List.mem_map_of_mem he, he, rfl, rfl⟩
  · rename_i hnone
    intro hmem
    obtain ⟨e, he, rfl⟩ := List.mem_map.mp hmem
    have hdiffers := List.find?_eq_none.mp hnone _ (List.mem_map_of_mem he)
    exact hdiffers (beq_self_eq_true e.type)

/-- Writing a union, whether it takes null or not. -/
theorem writeUnion_eq {u alternative : Ty} {held : Value} {edges : List Edge}
    (hedges : ∀ e ∈ edges, lib.Leads e)
    (hheld : ∀ e, lib.Leads e → lib.write held e = Plain.write c held e.type) :
    (match (edges.map Alternative.ofEdge).find? (·.type == alternative) with
      | none => throw (.internal (.unionAlternativeNotDeclared u alternative))
      | some a => do
        Write.arrayHeader 2
        Write.string a.tag
        Write.within (.alternative a.tag) (lib.write held a.edge)) =
      (if alternative ∈ edges.map (·.type) then do
        Write.arrayHeader 2
        Write.string alternative.tag
        Write.within (.alternative alternative.tag) (Plain.write c held alternative)
      else
        throw (.internal (.unionAlternativeNotDeclared u alternative)) : Write Unit) := by
  have hfind := find?_ofEdge edges alternative
  split at hfind
  · rename_i a ha
    obtain ⟨hmem, hedge, htype, htag⟩ := hfind
    rw [ha, if_pos hmem]
    simp only [hheld a.edge (hedges _ hedge), htype, htag]
  · rename_i ha
    rw [ha, if_neg hfind]

/-- A value other than null is handed to the codec of the type without its wrappers. -/
theorem writeAt_present (h : lib.Follows c CompiledCodec.writer) {e : Edge} (he : lib.Leads e) :
    ∃ x : CompiledCodec, x.type = e.type.unwrapped ∧ Routine.Describes c x.type x.writer ∧
      (∀ d ∈ x.writer.edges, lib.Leads d) ∧ ∀ step, lib.writeAt e false step = step x := by
  obtain ⟨x, hx, htype, hland⟩ := h.land_present he.2 he.1
  refine ⟨x, htype, h.described x hx, h.leads x hx, fun step => ?_⟩
  rw [writeAt, hland]

theorem writeAtom_eq (h : lib.Follows c CompiledCodec.writer) {v : Value} (hnull : v.isNull = false)
    {e : Edge} (he : lib.Leads e) : lib.writeAtom e v = Plain.writeAtom e.type.unwrapped v := by
  obtain ⟨x, htype, hdescribed, -, hat⟩ := h.writeAt_present he
  rw [Library.writeAtom, hnull, hat, ← htype]
  apply hdescribed.writeAtom_eq
  rintro rfl
  cases hnull

/-- Null goes by the type it is met at. -/
theorem write_null (h : lib.Follows c CompiledCodec.writer) {e : Edge} (he : lib.Leads e) :
    lib.write .null e = Plain.write c .null e.type := by
  rw [write, Library.writeAtom, writeAt]
  by_cases hwrapped : e.type.unwrapped = e.type
  · obtain ⟨x, hx, htype, hland⟩ := h.land_null he.2 he.1 hwrapped
    have hdescribed := h.described x hx
    rw [htype] at hdescribed
    simp only [hland, htype]
    exact hdescribed.writeAtom_null hwrapped
  · obtain ⟨t, link⟩ := e
    obtain ⟨inner, rfl, hunion⟩ := Ty.eq_nullable_of_unwrapped_ne hwrapped
    rw [show Value.null.isNull = true from rfl, h.land_absent he.2 he.1 hunion]
    rfl

/-- Writing through an edge is writing as its type. -/
theorem write_eq (h : lib.Follows c CompiledCodec.writer) (v : Value) {e : Edge}
    (he : lib.Leads e) : lib.write v e = Plain.write c v e.type := by
  induction v generalizing e with
  | null => exact h.write_null he
  | tuple values ih =>
    obtain ⟨x, htype, hdescribed, hleads, hat⟩ := h.writeAt_present he
    rw [write, Plain.write, hat, ← htype]
    generalize x.type = u, x.writer = r at hdescribed hleads ⊢
    cases hdescribed with
    | tuple edges _ =>
      have hitems := writeItems_eq hleads (fun v hv e he => ih v hv he) 0
      simp only [Routine.edges] at hitems
      simp only [hitems, List.length_map]
      rfl
    | primitive p => cases p <;> rfl
    | _ => rfl
  | union alternative held ih =>
    obtain ⟨x, htype, hdescribed, hleads, hat⟩ := h.writeAt_present he
    rw [write, Plain.write, hat, ← htype]
    generalize x.type = u, x.writer = r at hdescribed hleads ⊢
    cases hdescribed with
    | union edges _ =>
      rw [Routine.edges, Provider.map_edge_ofEdge] at hleads
      exact writeUnion_eq hleads fun e he => ih he
    | nullableUnion edges _ =>
      rw [Routine.edges, Provider.map_edge_ofEdge] at hleads
      exact writeUnion_eq hleads fun e he => ih he
    | primitive p => cases p <;> rfl
    | nullable e hunion =>
      rw [Provider.unionShape?_nullable hunion]
      rfl
    | _ => rfl
  | list values ih =>
    obtain ⟨x, htype, hdescribed, hleads, hat⟩ := h.writeAt_present he
    rw [write, Plain.write, hat, ← htype]
    generalize x.type = u, x.writer = r at hdescribed hleads ⊢
    cases hdescribed with
    | list element =>
      have hitems := writeAll_eq (hleads element List.mem_cons_self) (fun v hv e he => ih v hv he) 0
      simp only [hitems]
    | primitive p => cases p <;> rfl
    | _ => rfl
  | map entries ih =>
    obtain ⟨x, htype, hdescribed, hleads, hat⟩ := h.writeAt_present he
    rw [write, Plain.write, hat, ← htype]
    generalize x.type = u, x.writer = r at hdescribed hleads ⊢
    cases hdescribed with
    | map key value =>
      have hentries := writeEntries_eq (hleads key List.mem_cons_self)
        (hleads value (List.mem_cons_of_mem _ List.mem_cons_self))
        (fun entry hentry =>
          ⟨fun e he => (ih entry hentry).1 he, fun e he => (ih entry hentry).2 he⟩) 0
      simp only [hentries]
    | primitive p => cases p <;> rfl
    | _ => rfl
  | record fields ih =>
    obtain ⟨x, htype, hdescribed, hleads, hat⟩ := h.writeAt_present he
    rw [write, Plain.write, hat, ← htype]
    generalize x.type = u, x.writer = r at hdescribed hleads ⊢
    cases hdescribed with
    | record hfind hplans =>
      exact writeRecord_eq hfind hplans (fun p hp => hleads _ (List.mem_map_of_mem hp))
        fun f hf e he => ih f hf he
    | primitive p => cases p <;> rfl
    | _ => rfl
  | _ =>
    rw [write, Plain.write]
    exact h.writeAtom_eq rfl he

end Library.Follows

end SchemaPack
