import SchemaPack.Proofs.Height
import SchemaPack.Proofs.Plain.Attribution
import SchemaPack.Proofs.Plain.Delivery

/-!
The inside of a value, written as a type. A container has components, in the order in which they are
written, and a path leads from one value to another past the components in front. The segments tell
the components of one value apart, so a path leads to one value at most.
-/
namespace SchemaPack

/-! ## Components -/

/-- A value directly inside another: the segment that leads to it, and the type it is written as. -/
structure Component where
  segment : Segment
  value : Value
  type : Ty

/-- What is inside a value of a type, in the order in which it is written. -/
def Value.components (c : Catalog) (t : Ty) (v : Value) : List Component :=
  match t.required, v with
  | .tuple types, .tuple values =>
    (values.zip types).zipIdx.map fun p => ⟨.item p.2, p.1.1, p.1.2⟩
  | .union alternatives, .union a held =>
    if a ∈ alternatives then [⟨.alternative a.tag, held, a⟩] else []
  | .list element, .list values => values.zipIdx.map fun p => ⟨.index p.2, p.1, element⟩
  | .map key value, .map entries =>
    entries.zipIdx.flatMap fun p => [⟨.mapKey p.2, p.1.1, key⟩, ⟨.mapValue p.2, p.1.2, value⟩]
  | .record name, .record fields =>
    match c.find? name with
    | some r => r.fields.filterMap fun f =>
        (Fields.get? f.name fields).map fun w => ⟨.field f.name, w, f.type⟩
    | none => []
  | _, _ => []

/-- The segments lead from a value and its type to a value inside and the type of that one. On the
way, these components are written before it. -/
inductive LeadsTo (c : Catalog) :
    Value → Ty → List Segment → Value → Ty → List Component → Prop
  | here (v : Value) (t : Ty) : LeadsTo c v t [] v t []
  | inside {v u : Value} {t s : Ty} {x : Component} {front back before : List Component}
      {segments : List Segment} (hcomponents : v.components c t = front ++ x :: back)
      (h : LeadsTo c x.value x.type segments u s before) :
      LeadsTo c v t (x.segment :: segments) u s (front ++ before)

theorem mem_components {c : Catalog} {t : Ty} {v : Value} {x : Component}
    (h : x ∈ v.components c t) : Value.Holds v x.value ∧ Ty.Part c t.required x.type := by
  unfold Value.components at h
  split at h
  · rename_i types values ht
    obtain ⟨⟨⟨w, u⟩, i⟩, hmem, rfl⟩ := List.mem_map.mp h
    obtain ⟨hw, hu⟩ := List.of_mem_zip (List.fst_mem_of_mem_zipIdx hmem)
    exact ⟨.item hw, ht ▸ (Ty.Direct.item hu).part⟩
  · rename_i alternatives a held ht
    split at h
    · rename_i ha
      cases List.mem_singleton.mp h
      exact ⟨.held, ht ▸ (Ty.Indirect.alternative ha).part⟩
    · cases h
  · rename_i element values ht
    obtain ⟨⟨w, i⟩, hmem, rfl⟩ := List.mem_map.mp h
    exact ⟨.element (List.fst_mem_of_mem_zipIdx hmem), ht ▸ (Ty.Indirect.element element).part⟩
  · rename_i key value entries ht
    obtain ⟨⟨e, i⟩, hmem, hx⟩ := List.mem_flatMap.mp h
    have he := List.fst_mem_of_mem_zipIdx hmem
    rcases List.mem_pair.mp hx with rfl | rfl
    · exact ⟨.key he, ht ▸ (Ty.Indirect.key key value).part⟩
    · exact ⟨.value he, ht ▸ (Ty.Indirect.value key value).part⟩
  · rename_i name fields ht
    split at h
    · rename_i r hfind
      obtain ⟨f, hf, hx⟩ := List.mem_filterMap.mp h
      obtain ⟨w, hget, rfl⟩ := Option.map_eq_some_iff.mp hx
      exact ⟨.field (Fields.mem_of_get? hget), ht ▸ (Ty.Direct.field hfind hf).part⟩
    · cases h
  · cases h

/-! ## One path leads to one value -/

theorem pairwise_zipIdx {α : Type} (xs : List α) :
    xs.zipIdx.Pairwise fun p q => p.2 ≠ q.2 := by
  have hnodup : (xs.zipIdx.map Prod.snd).Nodup := by
    rw [List.zipIdx_map_snd]
    exact List.nodup_range'
  exact List.pairwise_map.mp hnodup

/-- The segments of a value tell its components apart. -/
theorem pairwise_components {c : Catalog} (hc : c.FieldsDistinct) (t : Ty) (v : Value) :
    (v.components c t).Pairwise fun x y => x.segment ≠ y.segment := by
  unfold Value.components
  split
  · exact List.pairwise_map.mpr ((pairwise_zipIdx _).imp fun h heq => h (Ty.item_inj heq))
  · split
    · exact List.pairwise_singleton _ _
    · exact .nil
  · exact List.pairwise_map.mpr ((pairwise_zipIdx _).imp fun h heq => h (Segment.index.inj heq))
  · refine List.pairwise_flatMap.mpr ⟨fun p _ => ?_, (pairwise_zipIdx _).imp fun h => ?_⟩
    · simp
    · simpa using h
  · split
    · rename_i name fields _ r hfind
      have hnames := List.pairwise_map.mp (hc r (Catalog.mem_of_find? hfind))
      refine List.pairwise_filterMap.mpr (hnames.imp fun hne x hx y hy heq => ?_)
      obtain ⟨_, -, rfl⟩ := Option.map_eq_some_iff.mp hx
      obtain ⟨_, -, rfl⟩ := Option.map_eq_some_iff.mp hy
      exact hne (Segment.field.inj heq)
    · exact .nil
  · exact .nil

theorem split_eq {xs front back front' back' : List Component} {x y : Component}
    (hxs : xs.Pairwise fun x y => x.segment ≠ y.segment) (h : xs = front ++ x :: back)
    (h' : xs = front' ++ y :: back') (heq : x.segment = y.segment) : front = front' ∧ x = y := by
  induction front generalizing xs front' with
  | nil =>
    subst h
    cases front' with
    | nil =>
      cases h'
      exact ⟨rfl, rfl⟩
    | cons z front' =>
      cases h'
      exact absurd heq (List.rel_of_pairwise_cons hxs (List.mem_append_right _ List.mem_cons_self))
  | cons z front ih =>
    subst h
    cases front' with
    | nil =>
      cases h'
      have hne := List.rel_of_pairwise_cons hxs (List.mem_append_right front List.mem_cons_self)
      exact absurd heq.symm hne
    | cons z' front' =>
      obtain ⟨rfl, hrest⟩ := List.cons.inj h'
      obtain ⟨rfl, rfl⟩ := ih (List.pairwise_cons.mp hxs).2 rfl hrest
      exact ⟨rfl, rfl⟩

theorem LeadsTo.eq {c : Catalog} (hc : c.FieldsDistinct) {v u u' : Value} {t s s' : Ty}
    {segments : List Segment} {before before' : List Component}
    (h : LeadsTo c v t segments u s before) (h' : LeadsTo c v t segments u' s' before') :
    u' = u ∧ s' = s ∧ before' = before := by
  induction h generalizing u' s' before' with
  | here v t =>
    cases h'
    exact ⟨rfl, rfl, rfl⟩
  | @inside v u t s x front back before segments hcomponents _ ih =>
    generalize hpath : x.segment :: segments = path at h'
    cases h' with
    | here => cases hpath
    | inside hcomponents' hrest =>
      obtain ⟨hsegment, rfl⟩ := List.cons.inj hpath
      obtain ⟨rfl, rfl⟩ := split_eq (pairwise_components hc t v) hcomponents hcomponents' hsegment
      obtain ⟨rfl, rfl, rfl⟩ := ih hrest
      exact ⟨rfl, rfl, rfl⟩

end SchemaPack
