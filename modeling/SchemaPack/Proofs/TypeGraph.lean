import Mathlib.Data.Set.Finite.Lattice
import Mathlib.Logic.Relation
import SchemaPack.Catalog.Basic

/-!
How types lie inside one another. A type is a part of another directly where every value of the
outer type holds one of the inner type, and indirectly where the inner value may be absent or
repeated no times. Records are looked up in a catalog, so a type may be reached from itself; still
only finitely many types are reached from one.
-/
namespace SchemaPack.Ty

/-- Every value of the outer type holds a value of the inner type: the items of a tuple and the
fields of a record. -/
inductive Direct (c : Catalog) : Ty → Ty → Prop
  | item {items : List Ty} {t : Ty} (h : t ∈ items) : Direct c (.tuple items) t
  | field {name : TypeName} {r : RecordDef} {f : Field} (hfind : c.find? name = some r)
      (h : f ∈ r.fields) : Direct c (.record name) f.type

/-- A value of the outer type may do without a value of the inner type. -/
inductive Indirect : Ty → Ty → Prop
  | element (t : Ty) : Indirect (.list t) t
  | key (k v : Ty) : Indirect (.map k v) k
  | value (k v : Ty) : Indirect (.map k v) v
  | inner (t : Ty) : Indirect (.nullable t) t
  | alternative {alternatives : List Ty} {t : Ty} (h : t ∈ alternatives) :
      Indirect (.union alternatives) t

/-- The inner type stands in the definition of the outer one. -/
def Part (c : Catalog) (outer inner : Ty) : Prop := Direct c outer inner ∨ Indirect outer inner

/-- The inner type is the outer one, or a part of a part of it at any depth. -/
def Reaches (c : Catalog) : Ty → Ty → Prop := Relation.ReflTransGen (Part c)

/-- Every value of the outer type holds a value of the inner type, at some depth. -/
def Contains (c : Catalog) : Ty → Ty → Prop := Relation.TransGen (Direct c)

variable {c : Catalog}

theorem Direct.part {a b : Ty} (h : Direct c a b) : Part c a b := Or.inl h

theorem Indirect.part {a b : Ty} (h : Indirect a b) : Part c a b := Or.inr h

theorem Reaches.refl (t : Ty) : Reaches c t t := Relation.ReflTransGen.refl

theorem Part.reaches {a b : Ty} (h : Part c a b) : Reaches c a b := Relation.ReflTransGen.single h

theorem Reaches.trans {a b d : Ty} (h : Reaches c a b) (h' : Reaches c b d) : Reaches c a d :=
  Relation.ReflTransGen.trans h h'

theorem Contains.reaches {a b : Ty} (h : Contains c a b) : Reaches c a b := by
  induction h with
  | single hstep => exact hstep.part.reaches
  | tail _ hstep ih => exact ih.trans hstep.part.reaches

def parts (c : Catalog) : Ty → List Ty
  | record name =>
    match c.find? name with
    | some r => r.fields.map (·.type)
    | none => []
  | t => t.arguments

theorem mem_parts {a b : Ty} (h : Part c a b) : b ∈ a.parts c := by
  rcases h with hdirect | hindirect
  · cases hdirect with
    | item hitem => exact hitem
    | field hfind hfield =>
      rw [parts, hfind]
      exact List.mem_map_of_mem hfield
  · cases hindirect with
    | element => exact List.mem_cons_self
    | key => exact List.mem_cons_self
    | value => exact List.mem_cons_of_mem _ List.mem_cons_self
    | inner => exact List.mem_cons_self
    | alternative halternative => exact halternative

def Throughout (c : Catalog) (P : Ty → Prop) (t : Ty) : Prop := ∀ u, Reaches c t u → P u

variable {P : Ty → Prop}

theorem Throughout.here {t : Ty} (h : Throughout c P t) : P t := h t (.refl t)

theorem Throughout.reaches {t u : Ty} (h : Throughout c P t) (hu : Reaches c t u) :
    Throughout c P u := fun w hw => h w (hu.trans hw)

theorem Throughout.part {t u : Ty} (h : Throughout c P t) (hu : Part c t u) : Throughout c P u :=
  h.reaches hu.reaches

/-- It is enough to look at some types that are closed under taking parts. -/
theorem throughout_of_closed (types : List Ty)
    (hclosed : ∀ a ∈ types, ∀ b ∈ a.parts c, b ∈ types) (hP : ∀ a ∈ types, P a)
    {t : Ty} (ht : t ∈ types) : Throughout c P t := by
  intro u hu
  apply hP
  induction hu with
  | refl => exact ht
  | tail _ hpart ih => exact hclosed _ ih _ (mem_parts hpart)

/-! ## Finitely many types are reached -/

/-- It is enough that finitely many types are reached from every part. -/
theorem finite_of_parts {t : Ty} (h : ∀ p ∈ t.parts c, {u | Reaches c p u}.Finite) :
    {u | Reaches c t u}.Finite := by
  have hparts : (⋃ p ∈ t.parts c, {u | Reaches c p u}).Finite :=
    (List.finite_toSet (t.parts c)).biUnion h
  refine (hparts.insert t).subset fun u hu => ?_
  rcases Relation.ReflTransGen.cases_head hu with rfl | ⟨p, hp, hu⟩
  · exact Set.mem_insert _ _
  · exact Set.mem_insert_of_mem _ (Set.mem_biUnion (mem_parts hp) hu)

/-- Where no record is declared, there is only the type itself to look through. -/
theorem finite_reaches_bare (t : Ty) : {u | Reaches {} t u}.Finite := by
  induction t with
  | primitive => exact finite_of_parts nofun
  | bytes => exact finite_of_parts nofun
  | decimal => exact finite_of_parts nofun
  | version => exact finite_of_parts nofun
  | tuple items ih => exact finite_of_parts ih
  | union alternatives ih => exact finite_of_parts ih
  | list element ih => exact finite_of_parts (List.forall_mem_singleton.mpr ih)
  | map key value ihk ihv =>
    exact finite_of_parts (List.forall_mem_cons.mpr ⟨ihk, List.forall_mem_singleton.mpr ihv⟩)
  | nullable inner ih => exact finite_of_parts (List.forall_mem_singleton.mpr ih)
  | record => exact finite_of_parts nofun

/-- A part stands in the type itself or in a field of a declared record. -/
theorem Part.bare_or_field {a b : Ty} (h : Part c a b) :
    Part {} a b ∨ ∃ r ∈ c.records, ∃ f ∈ r.fields, f.type = b := by
  rcases h with hdirect | hindirect
  · cases hdirect with
    | item hitem => exact .inl (Direct.item hitem).part
    | field hfind hf => exact .inr ⟨_, Catalog.mem_of_find? hfind, _, hf, rfl⟩
  · exact .inl hindirect.part

/-- Records may lead to each other in any way, but all that is reached stands in the type or in a
field of one of them. -/
theorem finite_reaches (c : Catalog) (t : Ty) : {u | Reaches c t u}.Finite := by
  have hfields : (⋃ r ∈ c.records, ⋃ f ∈ r.fields, {u | Reaches {} f.type u}).Finite :=
    (List.finite_toSet c.records).biUnion fun r _ =>
      (List.finite_toSet r.fields).biUnion fun f _ => finite_reaches_bare f.type
  refine ((finite_reaches_bare t).union hfields).subset fun u hu => ?_
  induction hu with
  | refl => exact .inl (.refl t)
  | tail _ hpart ih =>
    rcases hpart.bare_or_field with hbare | ⟨r, hr, f, hf, rfl⟩
    · rcases ih with hhere | hfield
      · exact .inl (hhere.trans hbare.reaches)
      · simp only [Set.mem_iUnion] at hfield
        obtain ⟨r, hr, f, hf, hreaches⟩ := hfield
        exact .inr (Set.mem_biUnion hr (Set.mem_biUnion hf (hreaches.trans hbare.reaches)))
    · exact .inr (Set.mem_biUnion hr (Set.mem_biUnion hf (.refl f.type)))

end SchemaPack.Ty
