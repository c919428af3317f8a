import SchemaPack.Proofs.Library.Faithful
import SchemaPack.Proofs.TypeGraph

/-!
Types reached from a published type. They are published too, except that a union may be published
as nullable only. So all their records are declared.
-/
namespace SchemaPack

variable {c : Catalog}

/-- Every element of one of two related lists is related to one of the other. -/
theorem exists_of_forall₂ {α β : Type} {R : α → β → Prop} {as : List α} {bs : List β}
    (h : List.Forall₂ R as bs) {a : α} (ha : a ∈ as) : ∃ b ∈ bs, R a b := by
  induction h with
  | nil => cases ha
  | @cons a' b as bs hab _ ih =>
    rcases List.mem_cons.mp ha with rfl | ha
    · exact ⟨b, List.mem_cons_self, hab⟩
    · obtain ⟨b', hb', hrel⟩ := ih ha
      exact ⟨b', List.mem_cons_of_mem _ hb', hrel⟩

namespace Routine.Describes

theorem edge_of_alternative {alternatives : List Ty} {r : Routine}
    (h : Describes c (.nullable (.union alternatives)) r) {t : Ty} (ht : t ∈ alternatives) :
    ∃ e ∈ r.edges, e.type = t := by
  generalize htype : Ty.nullable (.union alternatives) = u at h
  cases h with
  | nullableUnion edges _ =>
    obtain rfl := Ty.union.inj (Ty.nullable.inj htype)
    rw [Routine.edges, Provider.map_edge_ofEdge]
    exact List.mem_map.mp ht
  | nullable e hunion => exact absurd (Ty.nullable.inj htype).symm (hunion alternatives)
  | _ => cases htype

/-- A routine has an edge to every direct part of its type. -/
theorem edge_of_direct {t u : Ty} {r : Routine} (h : Describes c t r) (hpart : Ty.Direct c t u) :
    ∃ e ∈ r.edges, e.type = u := by
  cases hpart with
  | item hitem =>
    cases h with
    | tuple edges _ => exact List.mem_map.mp hitem
  | @field name d f hfind hfield =>
    cases h with
    | record hfound hplans =>
      rw [hfind] at hfound
      cases hfound
      obtain ⟨p, hp, hfollows⟩ := exists_of_forall₂ hplans hfield
      exact ⟨p.edge, List.mem_map_of_mem hp, hfollows.type⟩

/-- A routine has an edge to every indirect part of its type, if the part is not a union that the
type makes nullable. -/
theorem edge_of_indirect {t u : Ty} {r : Routine} (h : Describes c t r) (hpart : Ty.Indirect t u) :
    (∃ e ∈ r.edges, e.type = u) ∨ ∃ alternatives, u = .union alternatives ∧ t = .nullable u := by
  cases hpart with
  | element =>
    cases h with
    | list e => exact Or.inl ⟨e, List.mem_cons_self, rfl⟩
  | key =>
    cases h with
    | map k v => exact Or.inl ⟨k, List.mem_cons_self, rfl⟩
  | value =>
    cases h with
    | map k v => exact Or.inl ⟨v, List.mem_cons_of_mem _ List.mem_cons_self, rfl⟩
  | inner =>
    cases h with
    | nullable e _ => exact Or.inl ⟨e, List.mem_cons_self, rfl⟩
    | nullableUnion edges _ => exact Or.inr ⟨_, rfl, rfl⟩
  | alternative halternative =>
    cases h with
    | union edges _ =>
      rw [Routine.edges, Provider.map_edge_ofEdge]
      exact Or.inl (List.mem_map.mp halternative)

/-- Every edge of the routine of a type leads to a type that is reached from it. -/
theorem reaches_edge {t : Ty} {r : Routine} (h : Describes c t r) {e : Edge} (he : e ∈ r.edges) :
    Ty.Reaches c t e.type := by
  cases h with
  | primitive | bytes | decimal | version => cases he
  | tuple edges _ => exact (Ty.Direct.item (List.mem_map_of_mem he)).part.reaches
  | union edges _ =>
    rw [Routine.edges, Provider.map_edge_ofEdge] at he
    exact (Ty.Indirect.alternative (List.mem_map_of_mem he)).part.reaches
  | nullableUnion edges _ =>
    rw [Routine.edges, Provider.map_edge_ofEdge] at he
    exact (Ty.Indirect.inner _).part.reaches.trans
      (Ty.Indirect.alternative (List.mem_map_of_mem he)).part.reaches
  | list d =>
    cases List.mem_singleton.mp he
    exact (Ty.Indirect.element _).part.reaches
  | map k v =>
    rcases List.mem_cons.mp he with rfl | he
    · exact (Ty.Indirect.key _ _).part.reaches
    · cases List.mem_singleton.mp he
      exact (Ty.Indirect.value _ _).part.reaches
  | nullable d _ =>
    cases List.mem_singleton.mp he
    exact (Ty.Indirect.inner _).part.reaches
  | @record name d fields hfind hplans =>
    obtain ⟨p, hp, rfl⟩ := List.mem_map.mp he
    obtain ⟨f, hf, hfollows⟩ := exists_of_forall₂ hplans.flip hp
    rw [hfollows.type]
    exact (Ty.Direct.field hfind hf).part.reaches

end Routine.Describes

namespace Library

variable {lib : Library}

/-- The type has a codec, or it is a union and its nullable has one. -/
def Covers (lib : Library) (t : Ty) : Prop :=
  lib.contains t = true ∨
    ∃ alternatives, t = .union alternatives ∧ lib.contains (.nullable t) = true

theorem Faithful.contains_edge (h : lib.Faithful c) {x : CompiledCodec} (hx : x ∈ lib.codecs)
    {t : Ty} (he : ∃ e ∈ x.writer.edges, e.type = t) : lib.contains t = true := by
  obtain ⟨e, he, rfl⟩ := he
  exact (h.leads hx (List.mem_append_left _ he)).2

theorem Faithful.covers_part (h : lib.Faithful c) {t u : Ty} (ht : lib.Covers t)
    (hpart : Ty.Part c t u) : lib.Covers u := by
  rcases ht with hpublished | ⟨alternatives, rfl, hpublished⟩
  · obtain ⟨x, hx, rfl⟩ := Compile.contains_iff.mp hpublished
    rcases hpart with hdirect | hindirect
    · exact Or.inl (h.contains_edge hx ((h.writer x hx).edge_of_direct hdirect))
    · rcases (h.writer x hx).edge_of_indirect hindirect with hedge | ⟨alternatives, hu, htype⟩
      · exact Or.inl (h.contains_edge hx hedge)
      · exact Or.inr ⟨alternatives, hu, by rw [← htype, hpublished]⟩
  · obtain ⟨x, hx, htype⟩ := Compile.contains_iff.mp hpublished
    have hdescribed := h.writer x hx
    rw [htype] at hdescribed
    rcases hpart with hdirect | hindirect
    · cases hdirect
    · cases hindirect with
      | alternative halternative =>
        exact Or.inl (h.contains_edge hx (hdescribed.edge_of_alternative halternative))

theorem Faithful.covers_reaches (h : lib.Faithful c) {t u : Ty} (ht : lib.contains t = true)
    (hreaches : Ty.Reaches c t u) : lib.Covers u := by
  induction hreaches with
  | refl => exact Or.inl ht
  | tail _ hpart ih => exact h.covers_part ih hpart

/-- Every record that is reached from a published type is declared. -/
theorem Faithful.find?_of_reaches (h : lib.Faithful c) {t : Ty} (ht : lib.contains t = true)
    {name : TypeName} (hreaches : Ty.Reaches c t (.record name)) :
    ∃ r, c.find? name = some r := by
  rcases h.covers_reaches ht hreaches with hpublished | ⟨_, hunion, -⟩
  · obtain ⟨x, hx, htype⟩ := Compile.contains_iff.mp hpublished
    have hdescribed := h.writer x hx
    rw [htype] at hdescribed
    generalize x.writer = r at hdescribed
    cases hdescribed with
    | record hfind _ => exact ⟨_, hfind⟩
  · cases hunion

end Library

end SchemaPack
