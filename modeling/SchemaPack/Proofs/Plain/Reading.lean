import SchemaPack.Proofs.Library.Landing

/-!
Reading through a faithful library is reading by the type. The induction is on the room for further
levels, since no value is at hand; at one level, edges and types are followed side by side.
-/
namespace SchemaPack

open Wire (Cursor)

variable {c : Catalog} {lib : Library}

namespace Plain

variable {through : Edge → Scope → Read Value} {inside : Ty → Scope → Read Value}

/-- Related lists have related first elements of a kind. -/
theorem find?_rel {α β : Type} {R : α → β → Prop} {p : α → Bool} {q : β → Bool} {as : List α}
    {bs : List β} (h : List.Forall₂ R as bs) (hpq : ∀ a b, R a b → p a = q b) :
    Option.Rel R (as.find? p) (bs.find? q) := by
  induction h with
  | nil => exact .none
  | @cons a b as bs hab _ ih =>
    simp only [List.find?_cons, hpq a b hab]
    split
    · exact .some hab
    · exact ih

theorem readItems_eq {edges : List Edge}
    (h : ∀ e ∈ edges, ∀ scope, through e scope = inside e.type scope) (scope : Scope) (i : Nat) :
    SchemaPack.readItems through scope .standard i edges =
      readItems inside scope i (edges.map (·.type)) := by
  induction edges generalizing i with
  | nil => rfl
  | cons e edges ih =>
    have hrest := ih (fun d hd => h d (List.mem_cons_of_mem _ hd)) (i + 1)
    simp only [SchemaPack.readItems, List.map_cons, readItems, hrest, h e List.mem_cons_self]
    rfl

abbrev ReadsAs (through : Edge → Scope → Read Value) (inside : Ty → Scope → Read Value)
    (p : FieldPlan) (f : Field) : Prop :=
  (∀ scope, through p.edge scope = inside p.edge.type scope) ∧ FieldPlan.Follows f p

theorem readFields_eq {fields : List Field} {plans : List FieldPlan}
    (h : List.Forall₂ (ReadsAs through inside) plans fields) (scope : Scope) (target : Ty)
    (count : Nat) (filled : List (String × Value)) :
    SchemaPack.readFields through scope target plans count filled =
      readFields inside scope target fields count filled := by
  induction count generalizing filled with
  | zero => rfl
  | succ count ih =>
    simp only [SchemaPack.readFields, readFields, ih]
    congr 1
    funext name
    have hfind : Option.Rel (ReadsAs through inside) (plans.find? (·.name == name))
        (fields.find? (·.name == name)) :=
      find?_rel h fun p f hplan => by rw [hplan.2.name]
    generalize plans.find? (·.name == name) = plan?, fields.find? (·.name == name) = field? at hfind
    cases hfind with
    | none => rfl
    | some hplan => simp only [hplan.1, hplan.2.type]

theorem completeRecord_eq {fields : List Field} {plans : List FieldPlan}
    (hplans : List.Forall₂ FieldPlan.Follows fields plans) (filled record : List (String × Value)) :
    SchemaPack.completeRecord filled plans record = completeRecord filled fields record := by
  induction hplans generalizing record with
  | nil => rfl
  | @cons f p fields plans hplan _ ih =>
    unfold SchemaPack.completeRecord completeRecord
    rw [hplan.name, hplan.default]
    cases (Fields.get? f.name filled).or f.fallback with
    | some v => exact ih (Fields.insert f.name v record)
    | none => rfl

theorem readAlternative_eq {edges : List Edge}
    (h : ∀ e ∈ edges, ∀ scope, through e scope = inside e.type scope) (scope : Scope) (target : Ty)
    (isNullable : Bool) (tag : String) :
    SchemaPack.readAlternative through scope target isNullable (edges.map .ofEdge) tag =
      readAlternative inside scope target isNullable (edges.map (·.type)) tag := by
  have hfind : Option.Rel
      (fun a t => a = .ofEdge ⟨t, a.edge.link⟩ ∧ ∀ scope, through a.edge scope = inside t scope)
      ((edges.map Alternative.ofEdge).find? (·.tag == tag))
      ((edges.map (·.type)).find? (·.tag == tag)) := by
    refine find?_rel ?_ fun a t hat => by rw [hat.1]; rfl
    rw [List.forall₂_map_left_iff, List.forall₂_map_right_iff, List.forall₂_same]
    exact fun e he => ⟨rfl, h e he⟩
  unfold SchemaPack.readAlternative readAlternative
  generalize (edges.map Alternative.ofEdge).find? (·.tag == tag) = alternative?,
    (edges.map (·.type)).find? (·.tag == tag) = type? at hfind
  cases hfind with
  | none => rfl
  | @some a t hat =>
    simp only [hat.2]
    rw [hat.1]
    rfl

end Plain

open Plain (orNull readPresent)

/-- A union reads null first if it is nullable, and then as its alternatives are read. -/
theorem Routine.read_union {edges : List Edge} {through : Edge → Scope → Read Value}
    {inside : Ty → Scope → Read Value}
    (h : ∀ e ∈ edges, ∀ scope, through e scope = inside e.type scope) (target : Ty) (scope : Scope)
    (isNullable : Bool) :
    (Routine.union isNullable (edges.map .ofEdge)).read through target scope =
      orNull isNullable
        (Plain.readUnion inside target isNullable (edges.map (·.type)) scope) := by
  funext cursor
  simp only [Routine.read, Plain.readAlternative_eq h, orNull]
  cases isNullable with
  | false => rfl
  | true =>
    simp only [if_true]
    cases hnil : cursor.nil? with
    | none =>
      simp only [bind, EStateM.bind, Read.attempt, hnil, Option.map_none]
      rfl
    | some after =>
      simp only [bind, EStateM.bind, Read.attempt, hnil, Option.map_some]
      rfl

/-- The routine of a type reads what the type says. -/
theorem Routine.Describes.read_eq {t : Ty} {r : Routine} (h : Describes c t r)
    (hwrapped : t.unwrapped = t)
    {through : Edge → Scope → Read Value} {inside : Ty → Scope → Read Value}
    (hagrees : ∀ e ∈ r.edges, ∀ scope, through e scope = inside e.type scope) (scope : Scope) :
    r.read through t scope = orNull t.isNullable (readPresent inside c scope t) := by
  cases h with
  | tuple edges _ =>
    have hitems := Plain.readItems_eq hagrees scope 0
    simp only [Routine.edges] at hitems
    simp only [Routine.read, hitems, readPresent, Plain.readTuple, List.length_map]
    rfl
  | union edges _ =>
    rw [Routine.edges, Provider.map_edge_ofEdge] at hagrees
    exact Routine.read_union hagrees _ scope false
  | nullableUnion edges _ =>
    rw [Routine.edges, Provider.map_edge_ofEdge] at hagrees
    exact Routine.read_union hagrees _ scope true
  | list e =>
    simp only [Routine.read, hagrees e List.mem_cons_self]
    rfl
  | map k v =>
    simp only [Routine.read, hagrees k List.mem_cons_self,
      hagrees v (List.mem_cons_of_mem _ List.mem_cons_self)]
    rfl
  | nullable e hunion =>
    obtain ⟨alternatives, halternatives⟩ := Ty.unwrapped_eq_nullable hwrapped
    exact absurd halternatives (hunion alternatives)
  | @record name r fields hfind hplans =>
    have hreads : List.Forall₂ (Plain.ReadsAs through inside) fields r.fields := by
      refine (List.forall₂_and_left fields _).mpr ⟨fun p hp => ?_, hplans.flip⟩
      exact hagrees p.edge (List.mem_map_of_mem hp)
    simp only [Routine.read, Plain.readFields_eq hreads, Plain.completeRecord_eq hplans,
      readPresent, Plain.readRecord, hfind]
    rfl
  | _ => rfl

namespace Plain

variable {inside : Ty → Scope → Read Value}

/-- The wrappers of a type make no difference to a value that is not null. -/
theorem readPresent_unwrapped (t : Ty) (scope : Scope) :
    readPresent inside c scope t.unwrapped = readPresent inside c scope t := by
  induction t with
  | nullable inner ih =>
    by_cases hunion : ∃ alternatives, inner = .union alternatives
    · obtain ⟨alternatives, rfl⟩ := hunion
      rfl
    · have hne : ∀ alternatives, inner ≠ .union alternatives :=
        fun alternatives heq => hunion ⟨alternatives, heq⟩
      rw [Ty.unwrapped_nullable hne, ih]
      cases inner with
      | union alternatives => exact absurd rfl (hne alternatives)
      | _ => rfl
  | _ => rfl

end Plain

namespace Library

/-- Reading through an edge is reading as its type. -/
theorem Follows.read_eq (h : lib.Follows c CompiledCodec.reader) (room : Nat) {e : Edge}
    (he : lib.Leads e) (scope : Scope) :
    lib.read room e scope = Plain.read c room e.type scope := by
  induction room generalizing e scope with
  | zero =>
    obtain ⟨x, -, -, hresolve⟩ := resolve_eq_ok he.2 he.1
    rw [read, hresolve]
    rfl
  | succ room ih =>
    funext cursor
    have hcodec : ∀ x ∈ lib.codecs, x.type.unwrapped = x.type →
        x.reader.read (lib.read room) x.type scope cursor =
          orNull x.type.isNullable (readPresent (Plain.read c room) c scope x.type) cursor := by
      intro x hx hwrapped
      rw [(h.described x hx).read_eq hwrapped fun d hd scope => ih (h.leads x hx d hd) scope]
    rw [read, Plain.read]
    -- a nil stops at the wrapper of a type, and anything else passes through it
    by_cases hwrapped : e.type.unwrapped = e.type
    · obtain ⟨x, hx, htype, hland⟩ := h.land_null he.2 he.1 hwrapped
      have hread := hcodec x hx (by rw [htype, hwrapped])
      rw [htype] at hread
      simp only [hland, htype, hread]
    · obtain ⟨t, link⟩ := e
      obtain ⟨inner, rfl, hunion⟩ := Ty.eq_nullable_of_unwrapped_ne hwrapped
      cases hnil : cursor.nil? with
      | some after =>
        simp only [Option.isSome_some, h.land_absent he.2 he.1 hunion, orNull, Ty.isNullable,
          if_true, hnil]
      | none =>
        obtain ⟨x, hx, htype, hland⟩ := h.land_present he.2 he.1
        have hread := hcodec x hx (by rw [htype, Ty.unwrapped_unwrapped])
        rw [htype] at hread
        simp only [Option.isSome_none, hland, htype, hread, Plain.readPresent_unwrapped, orNull,
          hnil, ite_self]

end Library

end SchemaPack
