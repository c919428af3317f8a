import SchemaPack.Proofs.Library.Faithful
import SchemaPack.Proofs.Session.Steps
import SchemaPack.Proofs.TypeGraph

/-!
What the built-in providers ask for and what they complain of. A type asks directly for its direct
parts and indirectly for the others; a nullable union asks for its alternatives in place of the
union. A plan complains of defaults that do not fit, and it comes to no routine only for a record
that is not declared.
-/
namespace SchemaPack

/-- A field of the record, so named and of this type, is declared with a default that is no complete
value of the type. -/
def Catalog.Misdefaults (c : Catalog) (record : TypeName) (field : String) (expected : Ty) : Prop :=
  ∃ r f v, c.find? record = some r ∧ f ∈ r.fields ∧ f.name = field ∧ f.type = expected ∧
    f.default = some v ∧ expected.admitsIn c v = false

namespace Provider

/-! ## Requests -/

/-- What the plan of a type asks for, and whether indirectly. -/
inductive Asks (c : Catalog) : Ty → Ty → Bool → Prop
  | direct {outer inner : Ty} (h : Ty.Direct c outer inner) : Asks c outer inner false
  | indirect {outer inner : Ty} (h : Ty.Indirect outer inner) : Asks c outer inner true
  | alternative {alternatives : List Ty} {t : Ty} (hlength : 2 ≤ alternatives.length)
      (h : t ∈ alternatives) : Asks c (.nullable (.union alternatives)) t true

/-- The inner type lies in the outer one, and directly so if it is asked for directly. -/
structure AsksPart (c : Catalog) (outer inner : Ty) (isIndirect : Bool) : Prop where
  reaches : Ty.Reaches c outer inner
  direct : isIndirect = false → Ty.Direct c outer inner

theorem Asks.asksPart {c : Catalog} {outer inner : Ty} {isIndirect : Bool}
    (h : Asks c outer inner isIndirect) : AsksPart c outer inner isIndirect := by
  cases h with
  | direct h => exact ⟨h.part.reaches, fun _ => h⟩
  | indirect h => exact ⟨h.part.reaches, nofun⟩
  | @alternative alternatives _ hlength h =>
    have hunion : Ty.Reaches c (.nullable (.union alternatives)) (.union alternatives) :=
      (Ty.Indirect.inner _).part.reaches
    exact ⟨hunion.trans (Ty.Indirect.alternative h).part.reaches, nofun⟩

theorem request_mem_fieldSteps {c : Catalog} {record : TypeName} {f : Field} {t : Ty}
    {isIndirect : Bool} :
    Step.request t isIndirect ∈ fieldSteps c record f ↔ t = f.type ∧ isIndirect = false := by
  unfold fieldSteps
  split
  · split <;> simp
  · simp

theorem request_mem_map {types : List Ty} {i isIndirect : Bool} {t : Ty} :
    Step.request t isIndirect ∈ types.map (Step.request · i) ↔ t ∈ types ∧ isIndirect = i := by
  rw [List.mem_map]
  constructor
  · rintro ⟨u, hu, heq⟩
    cases heq
    exact ⟨hu, rfl⟩
  · rintro ⟨ht, rfl⟩
    exact ⟨t, ht, rfl⟩

theorem Takes.asks {t u : Ty} {p : Provider} (h : Takes t p) {c : Catalog} {isIndirect : Bool}
    (hu : Step.request u isIndirect ∈ (p.writer t c).steps) : Asks c t u isIndirect := by
  cases h with
  | primitive | bytes | decimal | version => cases hu
  | tuple =>
    obtain ⟨hmem, rfl⟩ := request_mem_map.mp hu
    exact .direct (.item hmem)
  | union =>
    obtain ⟨hmem, rfl⟩ := request_mem_map.mp hu
    exact .indirect (.alternative hmem)
  | nullableUnion hlength =>
    obtain ⟨hmem, rfl⟩ := request_mem_map.mp hu
    exact .alternative hlength hmem
  | list t =>
    cases List.mem_singleton.mp hu
    exact .indirect (.element _)
  | map k v =>
    rcases List.mem_cons.mp hu with heq | hu
    · cases heq
      exact .indirect (.key _ v)
    · cases List.mem_singleton.mp hu
      exact .indirect (.value k _)
  | record name =>
    simp only [Provider.record] at hu
    split at hu
    · cases hu
    · rename_i r hfind
      obtain ⟨f, hf, hstep⟩ := List.mem_flatMap.mp hu
      obtain ⟨rfl, rfl⟩ := request_mem_fieldSteps.mp hstep
      exact .direct (.field hfind hf)

/-- A part is requested, unless it is a union that the type makes nullable. -/
theorem Takes.request_of_part {t u : Ty} {p : Provider} (h : Takes t p) {c : Catalog}
    (hpart : Ty.Part c t u) :
    (∃ isIndirect, Step.request u isIndirect ∈ (p.writer t c).steps) ∨
      ∃ alternatives, u = .union alternatives ∧ 2 ≤ alternatives.length ∧ t = .nullable u := by
  rcases hpart with hdirect | hindirect
  · cases hdirect with
    | item hitem =>
      cases h with
      | tuple => exact .inl ⟨false, request_mem_map.mpr ⟨hitem, rfl⟩⟩
    | @field name r f hfind hf =>
      cases h with
      | record =>
        refine .inl ⟨false, ?_⟩
        simp only [Provider.record, hfind]
        exact List.mem_flatMap.mpr ⟨f, hf, request_mem_fieldSteps.mpr ⟨rfl, rfl⟩⟩
  · cases hindirect with
    | element =>
      cases h with
      | list => exact .inl ⟨true, List.mem_cons_self⟩
    | key =>
      cases h with
      | map => exact .inl ⟨true, List.mem_cons_self⟩
    | value =>
      cases h with
      | map => exact .inl ⟨true, List.mem_cons_of_mem _ List.mem_cons_self⟩
    | inner =>
      cases h with
      | nullableUnion hlength => exact .inr ⟨_, rfl, hlength, rfl⟩
    | alternative halternative =>
      cases h with
      | union => exact .inl ⟨true, request_mem_map.mpr ⟨halternative, rfl⟩⟩

/-! ## Complaints -/

theorem report_mem_fieldSteps {c : Catalog} {record : TypeName} {f : Field}
    {problem : Nat → Problem} :
    Step.report problem ∈ fieldSteps c record f ↔
      (∃ v, f.default = some v ∧ f.type.admitsIn c v = false) ∧
        problem = fun _ => .invalidDefault record f.name f.type := by
  unfold fieldSteps
  cases hdefault : f.default with
  | none => simp
  | some v => cases hadmits : f.type.admitsIn c v <;> simp [hadmits]

/-- A plan puts only defaults on record that do not fit. -/
theorem Takes.misdefaults_of_report {t : Ty} {p : Provider} (h : Takes t p) {c : Catalog}
    {problem : Nat → Problem} (hp : Step.report problem ∈ (p.writer t c).steps) :
    ∃ record field expected, t = .record record ∧ c.Misdefaults record field expected ∧
      problem = fun _ => .invalidDefault record field expected := by
  cases h with
  | primitive | bytes | decimal | version => cases hp
  | tuple | union | nullableUnion =>
    obtain ⟨u, -, heq⟩ := List.mem_map.mp hp
    cases heq
  | list => cases List.mem_singleton.mp hp
  | map =>
    rcases List.mem_cons.mp hp with heq | hp
    · cases heq
    · cases List.mem_singleton.mp hp
  | record name =>
    simp only [Provider.record] at hp
    split at hp
    · cases hp
    · rename_i r hfind
      obtain ⟨f, hf, hstep⟩ := List.mem_flatMap.mp hp
      obtain ⟨⟨v, hdefault, hadmits⟩, rfl⟩ := report_mem_fieldSteps.mp hstep
      exact ⟨name, f.name, f.type, rfl, ⟨r, f, v, hfind, hf, rfl, rfl, hdefault, hadmits⟩, rfl⟩

theorem report_of_misdefaults {c : Catalog} {record : TypeName} {field : String} {expected : Ty}
    (h : c.Misdefaults record field expected) :
    Step.report (fun _ => .invalidDefault record field expected) ∈
      (Provider.record.writer (.record record) c).steps := by
  obtain ⟨r, f, v, hfind, hf, rfl, rfl, hdefault, hadmits⟩ := h
  simp only [Provider.record, hfind]
  exact List.mem_flatMap.mpr
    ⟨f, hf, report_mem_fieldSteps.mpr ⟨⟨v, hdefault, hadmits⟩, rfl⟩⟩

/-- A plan comes to no routine only for a record that is not declared, whatever the edges. -/
theorem Takes.unknown_of_refuses {t : Ty} {p : Provider} (h : Takes t p) {c : Catalog}
    {edges : List Edge} {problem : Problem} (hrefuses : (p.writer t c).Refuses edges problem) :
    ∃ name, t = .record name ∧ c.find? name = none ∧ problem = .unknownRecord name := by
  obtain ⟨htypes, hfinish⟩ := hrefuses
  cases h with
  | primitive | bytes | decimal | version | tuple | union | nullableUnion => cases hfinish
  | list t =>
    match edges, htypes, hfinish with
    | [e], _, hfinish => cases hfinish
  | map k v =>
    match edges, htypes, hfinish with
    | [keyEdge, valueEdge], _, hfinish => cases hfinish
  | record name =>
    simp only [Provider.record] at hfinish
    split at hfinish
    · rename_i hfind
      cases hfinish
      exact ⟨name, rfl, hfind, rfl⟩
    · cases hfinish

theorem finish_unknown {c : Catalog} {name : TypeName} (h : c.find? name = none)
    (edges : List Edge) :
    (Provider.record.writer (.record name) c).finish edges = .error (.unknownRecord name) := by
  simp only [Provider.record, h]
  rfl

/-- Whether a plan comes to a routine does not depend on the links of the edges. -/
theorem Takes.not_refuses {t : Ty} {p : Provider} (h : Takes t p) {c : Catalog}
    {edges edges' : List Edge} {r : Routine} (hcarries : (p.writer t c).Carries edges r)
    (problem : Problem) : ¬ (p.writer t c).Refuses edges' problem := by
  intro hrefuses
  obtain ⟨name, rfl, hfind, -⟩ := h.unknown_of_refuses hrefuses
  cases h with
  | record => cases (finish_unknown hfind edges).symm.trans hcarries.finish

end Provider

namespace Compile

variable {setting : Setting}

theorem takes_of_select (hregistry : setting.registry = .standard) {t : Ty} {p : Provider}
    (h : setting.select t = .ok (.provider p)) : Provider.Takes t p := by
  have hresolve := select_eq_provider h
  rw [hregistry] at hresolve
  exact Provider.takes_of_resolve hresolve

theorem Setting.Requests.asks (hregistry : setting.registry = .standard) {t u : Ty}
    {isIndirect : Bool} (h : setting.Requests t u isIndirect) :
    Provider.Asks setting.catalog t u isIndirect := by
  cases h with
  | inner hselect =>
    obtain ⟨rfl, -⟩ := select_eq_nullWrapper hselect
    exact .indirect (.inner u)
  | written hselect h =>
    exact (takes_of_select hregistry hselect).asks (Blueprint.mem_requests.mp h)
  | read hselect h =>
    have htakes := takes_of_select hregistry hselect
    rw [htakes.reader_eq] at h
    exact htakes.asks (Blueprint.mem_requests.mp h)

/-- With the built-in providers a type asks for its parts. -/
theorem Setting.Requests.asksPart (hregistry : setting.registry = .standard) {t u : Ty}
    {isIndirect : Bool} (h : setting.Requests t u isIndirect) :
    Provider.AsksPart setting.catalog t u isIndirect :=
  (h.asks hregistry).asksPart

/-- A type with an emitter asks for its parts; a union that it makes nullable is left out. -/
theorem requests_of_part (hregistry : setting.registry = .standard) {t u : Ty} {emitter : Emitter}
    (hselect : setting.select t = .ok emitter) (hpart : Ty.Part setting.catalog t u) :
    (∃ isIndirect, setting.Requests t u isIndirect) ∨
      ∃ alternatives, u = .union alternatives ∧ 2 ≤ alternatives.length ∧ t = .nullable u := by
  cases emitter with
  | nullWrapper inner =>
    obtain ⟨rfl, -⟩ := select_eq_nullWrapper hselect
    rcases hpart with hdirect | hindirect
    · cases hdirect
    · cases hindirect with
      | inner => exact .inl ⟨true, .inner hselect⟩
  | provider p =>
    refine ((takes_of_select hregistry hselect).request_of_part hpart).imp_left ?_
    exact Exists.imp fun _ hmem => .written hselect (Blueprint.mem_requests.mpr hmem)

/-- With the built-in providers the plans of a type that has a codec do not fail. -/
theorem Emitted.not_fails (hregistry : setting.registry = .standard) {x : CompiledCodec}
    {edges : List Edge} (h : Emitted setting x edges) (problem : Problem) :
    ¬ setting.Fails x.type problem := by
  rintro ⟨p, edges', hselect, hrefuses⟩
  have htakes := takes_of_select hregistry hselect
  cases h with
  | wrapper hselect' => cases hselect.symm.trans hselect'
  | planned hselect' hwriter =>
    cases hselect.symm.trans hselect'
    rw [htakes.reader_eq, or_self] at hrefuses
    exact htakes.not_refuses hwriter problem hrefuses

end Compile

end SchemaPack
