import Mathlib.Data.List.Forall2
import SchemaPack.Proofs.Plain.Interpreter
import SchemaPack.Proofs.Session.Soundness

/-!
What the built-in providers make of each type. The provider of a type is determined by its shape,
and so is the routine, up to the links of its edges: an edge for every part of the type, tags and
field names from the type, defaults from the catalog.
-/
namespace SchemaPack

namespace Provider

inductive Takes : Ty → Provider → Prop
  | primitive (p : Primitive) : Takes (.primitive p) primitive
  | bytes : Takes .bytes buffer
  | decimal : Takes .decimal decimal
  | version : Takes .version version
  | tuple {items : List Ty} (h : 1 ≤ items.length ∧ items.length ≤ maxTupleArity) :
      Takes (.tuple items) tuple
  | union {alternatives : List Ty} (h : 2 ≤ alternatives.length) : Takes (.union alternatives) union
  | nullableUnion {alternatives : List Ty} (h : 2 ≤ alternatives.length) :
      Takes (.nullable (.union alternatives)) union
  | list (t : Ty) : Takes (.list t) list
  | map (k v : Ty) : Takes (.map k v) map
  | record (name : TypeName) : Takes (.record name) record

theorem takes_of_accepts {p : Provider} (hmem : p ∈ builtin) {t : Ty} {c : Catalog}
    (h : p.accepts t c = true) : Takes t p := by
  simp only [builtin, List.mem_cons, List.not_mem_nil, or_false] at hmem
  rcases hmem with rfl | rfl | rfl | rfl | rfl | rfl | rfl | rfl | rfl
  · cases t with
    | primitive p => exact .primitive p
    | _ => cases h
  · cases t with
    | bytes => exact .bytes
    | _ => cases h
  · cases t with
    | decimal => exact .decimal
    | _ => cases h
  · cases t with
    | version => exact .version
    | _ => cases h
  · cases t with
    | tuple items => exact .tuple (by simpa [tuple] using h)
    | _ => cases h
  · cases t with
    | union alternatives => exact .union (by simpa [union, unionShape?] using h)
    | nullable inner =>
      cases inner with
      | union alternatives => exact .nullableUnion (by simpa [union, unionShape?] using h)
      | _ => cases h
    | _ => cases h
  · cases t with
    | list t => exact .list t
    | _ => cases h
  · cases t with
    | map k v => exact .map k v
    | _ => cases h
  · cases t with
    | record name => exact .record name
    | _ => cases h

theorem takes_of_resolve {t : Ty} {c : Catalog} {p : Provider}
    (h : Registry.standard.resolve t c = .ok p) : Takes t p := by
  unfold Registry.resolve at h
  split at h
  · rename_i q hfind
    cases h
    have haccepts := List.find?_some hfind
    exact takes_of_accepts (List.mem_of_find?_eq_some hfind) haccepts
  · cases h

end Provider

/-! ## The routine of a type -/

def Alternative.ofEdge (e : Edge) : Alternative := ⟨e.type, e.type.tag, e⟩

structure FieldPlan.Follows (f : Field) (p : FieldPlan) : Prop where
  name : p.name = f.name
  type : p.edge.type = f.type
  default : p.default = f.fallback

/-- The routine is the one of the type, with some edge for every part of the type. -/
inductive Routine.Describes (c : Catalog) : Ty → Routine → Prop
  | primitive (p : Primitive) : Describes c (.primitive p) (.primitive p)
  | bytes : Describes c .bytes .bytes
  | decimal : Describes c .decimal .decimal
  | version : Describes c .version .version
  | tuple (edges : List Edge) (h : 1 ≤ edges.length ∧ edges.length ≤ Provider.maxTupleArity) :
      Describes c (.tuple (edges.map (·.type))) (.tuple .standard edges)
  | union (edges : List Edge) (h : 2 ≤ edges.length) :
      Describes c (.union (edges.map (·.type))) (.union false (edges.map .ofEdge))
  | nullableUnion (edges : List Edge) (h : 2 ≤ edges.length) :
      Describes c (.nullable (.union (edges.map (·.type)))) (.union true (edges.map .ofEdge))
  | list (e : Edge) : Describes c (.list e.type) (.list e)
  | map (k v : Edge) : Describes c (.map k.type v.type) (.map k v)
  | nullable (e : Edge) (h : ∀ alternatives, e.type ≠ .union alternatives) :
      Describes c (.nullable e.type) (.nullable e)
  | record {name : TypeName} {r : RecordDef} {fields : List FieldPlan}
      (hfind : c.find? name = some r) (hfields : List.Forall₂ FieldPlan.Follows r.fields fields) :
      Describes c (.record name) (.record name fields)

namespace Provider

theorem types_requests_map (types : List Ty) (isIndirect : Bool)
    (finish : List Edge → Except Problem Routine) :
    (⟨types.map (.request · isIndirect), finish⟩ : Blueprint).requests.map (·.1) = types := by
  induction types with
  | nil => rfl
  | cons t rest ih => exact congrArg _ ih

theorem types_requests_fieldSteps (c : Catalog) (record : TypeName) (fields : List Field)
    (finish : List Edge → Except Problem Routine) :
    (⟨fields.flatMap (fieldSteps c record), finish⟩ : Blueprint).requests.map (·.1) =
      fields.map (·.type) := by
  induction fields with
  | nil => rfl
  | cons f rest ih =>
    simp only [Blueprint.requests, List.flatMap_cons, List.filterMap_append, List.map_append,
      List.map_cons] at ih ⊢
    rw [ih]
    unfold fieldSteps
    cases f.default with
    | none => rfl
    | some v =>
      simp only
      split <;> rfl

/-- A field that reports no problem has the default it declares. -/
theorem effectiveDefault_eq_fallback {c : Catalog} {record : TypeName} {f : Field}
    (h : ∀ problem, Step.report problem ∉ fieldSteps c record f) :
    effectiveDefault c f = f.fallback := by
  unfold effectiveDefault Field.fallback
  unfold fieldSteps at h
  cases hdefault : f.default with
  | none => rfl
  | some v =>
    simp only [hdefault] at h ⊢
    split at h
    · rename_i hadmits
      rw [if_pos hadmits]
    · exact absurd List.mem_cons_self (h _)

/-- The fields of a record and the edges given for them make up the plans of the fields. -/
theorem follows_zipWith {c : Catalog} {fields : List Field} {edges : List Edge}
    (hedges : edges.map (·.type) = fields.map (·.type))
    (hdefaults : ∀ f ∈ fields, effectiveDefault c f = f.fallback) :
    List.Forall₂ FieldPlan.Follows fields
        (fields.zipWith (fun f e => ⟨f.name, e, effectiveDefault c f⟩) edges) ∧
      (fields.zipWith (fun f e => (⟨f.name, e, effectiveDefault c f⟩ : FieldPlan)) edges).map
        (·.edge) = edges := by
  induction fields generalizing edges with
  | nil =>
    cases edges with
    | nil => exact ⟨.nil, rfl⟩
    | cons e edges => cases hedges
  | cons f fields ih =>
    cases edges with
    | nil => cases hedges
    | cons e edges =>
      obtain ⟨hedge, hrest⟩ := List.cons.inj hedges
      obtain ⟨hplans, heq⟩ := ih hrest fun g hg => hdefaults g (List.mem_cons_of_mem _ hg)
      refine ⟨.cons ⟨rfl, hedge, hdefaults f List.mem_cons_self⟩ hplans, ?_⟩
      exact congrArg (e :: ·) heq

theorem zipWith_ofEdge (edges : List Edge) :
    (edges.map (·.type)).zipWith (fun t e => (⟨t, t.tag, e⟩ : Alternative)) edges =
      edges.map .ofEdge := by
  induction edges with
  | nil => rfl
  | cons e rest ih => exact congrArg _ ih

theorem map_edge_ofEdge (edges : List Edge) :
    (edges.map Alternative.ofEdge).map (·.edge) = edges := by
  induction edges with
  | nil => rfl
  | cons e rest ih => exact congrArg _ ih

theorem Takes.reader_eq {t : Ty} {p : Provider} (h : Takes t p) : p.reader = p.writer := by
  cases h <;> rfl

/-- Carrying out the plan of a type without a problem yields the routine of the type. -/
theorem Takes.describes {t : Ty} {p : Provider} (h : Takes t p) {c : Catalog} {edges : List Edge}
    {r : Routine} (hcarries : (p.writer t c).Carries edges r)
    (hquiet : ∀ problem, Step.report problem ∉ (p.writer t c).steps) :
    Routine.Describes c t r ∧ r.edges = edges := by
  obtain ⟨htypes, hfinish⟩ := hcarries
  cases h with
  | primitive p =>
    cases hfinish
    exact ⟨.primitive p, (List.map_eq_nil_iff.mp htypes).symm⟩
  | bytes =>
    cases hfinish
    exact ⟨.bytes, (List.map_eq_nil_iff.mp htypes).symm⟩
  | decimal =>
    cases hfinish
    exact ⟨.decimal, (List.map_eq_nil_iff.mp htypes).symm⟩
  | version =>
    cases hfinish
    exact ⟨.version, (List.map_eq_nil_iff.mp htypes).symm⟩
  | @tuple items hlength =>
    cases hfinish
    have hitems : edges.map (·.type) = items :=
      htypes.trans (types_requests_map items false _)
    subst hitems
    exact ⟨.tuple edges (by simpa using hlength), rfl⟩
  | @union alternatives hlength =>
    cases hfinish
    have halternatives : edges.map (·.type) = alternatives :=
      htypes.trans (types_requests_map alternatives true _)
    subst halternatives
    rw [zipWith_ofEdge]
    exact ⟨.union edges (by simpa using hlength), map_edge_ofEdge edges⟩
  | @nullableUnion alternatives hlength =>
    cases hfinish
    have halternatives : edges.map (·.type) = alternatives :=
      htypes.trans (types_requests_map alternatives true _)
    subst halternatives
    rw [zipWith_ofEdge]
    exact ⟨.nullableUnion edges (by simpa using hlength), map_edge_ofEdge edges⟩
  | list t =>
    match edges, htypes, hfinish with
    | [e], htypes, hfinish =>
      cases hfinish
      cases htypes
      exact ⟨.list e, rfl⟩
  | map k v =>
    match edges, htypes, hfinish with
    | [keyEdge, valueEdge], htypes, hfinish =>
      cases hfinish
      cases htypes
      exact ⟨.map keyEdge valueEdge, rfl⟩
  | record name =>
    simp only [Provider.record] at htypes hfinish hquiet
    cases hfind : c.find? name with
    | none =>
      rw [hfind] at hfinish
      cases hfinish
    | some d =>
      simp only [hfind] at htypes hfinish hquiet
      cases hfinish
      have hedges : edges.map (·.type) = d.fields.map (·.type) :=
        htypes.trans (types_requests_fieldSteps c name d.fields _)
      have hdefaults : ∀ f ∈ d.fields, effectiveDefault c f = f.fallback := fun f hf =>
        effectiveDefault_eq_fallback fun problem hmem =>
          hquiet problem (List.mem_flatMap.mpr ⟨f, hf, hmem⟩)
      obtain ⟨hplans, heq⟩ := follows_zipWith hedges hdefaults
      exact ⟨.record hfind hplans, heq⟩

end Provider

end SchemaPack
