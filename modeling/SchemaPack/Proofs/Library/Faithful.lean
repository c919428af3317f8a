import SchemaPack.Proofs.Library.Complete

/-!
Libraries that mean their types. In a context with the built-in providers, after any requests, both
routines of every published codec are those of its type, and every edge leads on to a published
codec. So no codec that was handed out can run into a broken edge.
-/
namespace SchemaPack

namespace Compile

variable {setting : Setting}

theorem select_eq_provider {t : Ty} {p : Provider} (h : setting.select t = .ok (.provider p)) :
    setting.registry.resolve t setting.catalog = .ok p := by
  have hprovided : ∀ r : Except Problem Provider,
      r.map Emitter.provider = .ok (.provider p) → r = .ok p := by
    intro r hr
    cases r with
    | error e => cases hr
    | ok q =>
      cases hr
      rfl
  cases t with
  | nullable inner =>
    simp only [Setting.select] at h
    split at h
    · split at h
      · cases h
      · exact hprovided _ h
    · cases h
  | _ => exact hprovided _ h

/-- Only a nullable type is wrapped, and only if the provider of the inner type allows it. -/
theorem select_eq_nullWrapper {t inner : Ty} (h : setting.select t = .ok (.nullWrapper inner)) :
    t = .nullable inner ∧
      ∀ p, setting.registry.resolve inner setting.catalog = .ok p → p.wrapsNull inner = true := by
  have hprovided : ∀ r : Except Problem Provider,
      r.map Emitter.provider ≠ .ok (.nullWrapper inner) := by
    intro r hr
    cases r with
    | error e => cases hr
    | ok q => cases hr
  cases t with
  | nullable inner' =>
    simp only [Setting.select] at h
    split at h
    · rename_i p hresolve
      split at h
      · rename_i hwraps
        cases h
        refine ⟨rfl, fun q hq => ?_⟩
        rw [hresolve] at hq
        cases hq
        exact hwraps
      · exact absurd h (hprovided _)
    · rename_i e hresolve
      cases h
      refine ⟨rfl, fun q hq => ?_⟩
      rw [hresolve] at hq
      cases hq
  | _ => exact absurd h (hprovided _)

theorem Emitted.select_eq_ok {x : CompiledCodec} {edges : List Edge}
    (h : Emitted setting x edges) : ∃ emitter, setting.select x.type = .ok emitter := by
  cases h with
  | wrapper hselect => exact ⟨_, hselect⟩
  | planned hselect => exact ⟨_, hselect⟩

/-- With the built-in providers a union that has a codec is never wrapped for null. -/
theorem not_union_of_wrapped (hregistry : setting.registry = .standard) {t inner : Ty}
    (hwrapper : setting.select t = .ok (.nullWrapper inner)) {emitter : Emitter}
    (hinner : setting.select inner = .ok emitter) (alternatives : List Ty) :
    inner ≠ .union alternatives := by
  rintro rfl
  obtain ⟨-, hwraps⟩ := select_eq_nullWrapper hwrapper
  cases emitter with
  | nullWrapper u => exact Ty.noConfusion (select_eq_nullWrapper hinner).1
  | provider p =>
    have hresolve := select_eq_provider hinner
    have hwrapped := hwraps p hresolve
    rw [hregistry] at hresolve
    cases Provider.takes_of_resolve hresolve with
    | union => cases hwrapped

/-- Both routines of a codec are those of its type, and lead on along its edges. -/
theorem Emitted.describes (hregistry : setting.registry = .standard) {x : CompiledCodec}
    {edges : List Edge} (h : Emitted setting x edges) (hquiet : ¬ setting.Reports x.type)
    (hedges : ∀ e ∈ edges, ∃ emitter, setting.select e.type = .ok emitter) :
    Routine.Describes setting.catalog x.type x.writer ∧
      Routine.Describes setting.catalog x.type x.reader ∧
        (∀ e ∈ x.writer.edges, e ∈ edges) ∧ ∀ e ∈ x.reader.edges, e ∈ edges := by
  cases h with
  | @wrapper type inner edge hselect hedge =>
    obtain ⟨emitter, hinner⟩ := hedges edge List.mem_cons_self
    obtain ⟨rfl, -⟩ := select_eq_nullWrapper hselect
    subst hedge
    have hunion := not_union_of_wrapped hregistry hselect hinner
    exact ⟨.nullable edge hunion, .nullable edge hunion, fun _ he => he, fun _ he => he⟩
  | @planned type p written read writer reader hselect hwriter hreader =>
    have htakes : Provider.Takes type p := by
      have hresolve := select_eq_provider hselect
      rw [hregistry] at hresolve
      exact Provider.takes_of_resolve hresolve
    rw [htakes.reader_eq] at hreader
    have hsilent : ∀ problem, Step.report problem ∉ (p.writer type setting.catalog).steps :=
      fun problem hmem => hquiet ⟨p, problem, hselect, Or.inl hmem⟩
    obtain ⟨hw, rfl⟩ := htakes.describes hwriter hsilent
    obtain ⟨hr, rfl⟩ := htakes.describes hreader hsilent
    exact ⟨hw, hr, fun _ he => List.mem_append_left _ he, fun _ he => List.mem_append_right _ he⟩

end Compile

/-- Every published codec is that of its type, and its edges lead to published codecs: the ready
ones to codecs published before it, the deferred ones to codecs that were not. -/
structure Library.Faithful (c : Catalog) (lib : Library) : Prop where
  writer : ∀ x ∈ lib.codecs, Routine.Describes c x.type x.writer
  reader : ∀ x ∈ lib.codecs, Routine.Describes c x.type x.reader
  layered : ∀ earlier x later, lib.codecs = earlier ++ x :: later →
    ∀ e ∈ x.writer.edges ++ x.reader.edges,
      (e.link = .ready ∧ ∃ d ∈ earlier, d.type = e.type) ∨
        (e.link = .deferred ∧ ∃ d ∈ x :: later, d.type = e.type)

/-- A value that enters at the edge finds a codec. -/
def Library.Leads (lib : Library) (e : Edge) : Prop :=
  e.link ≠ .poisoned ∧ lib.contains e.type = true

theorem Library.Faithful.leads {c : Catalog} {lib : Library} (h : lib.Faithful c)
    {x : CompiledCodec} (hx : x ∈ lib.codecs) {e : Edge}
    (he : e ∈ x.writer.edges ++ x.reader.edges) : lib.Leads e := by
  obtain ⟨earlier, later, hsplit⟩ := List.append_of_mem hx
  unfold Leads
  rw [Compile.contains_iff, hsplit]
  rcases h.layered earlier x later hsplit e he with ⟨hlink, d, hd, htype⟩ | ⟨hlink, d, hd, htype⟩
  · exact ⟨by rw [hlink]; exact nofun, d, List.mem_append_left _ hd, htype⟩
  · exact ⟨by rw [hlink]; exact nofun, d, List.mem_append_right _ hd, htype⟩

theorem Compile.Setting.Complete.describes {setting : Compile.Setting} (h : setting.Complete)
    (hregistry : setting.registry = .standard) {earlier later : List CompiledCodec}
    {x : CompiledCodec} (hsplit : setting.library.codecs = earlier ++ x :: later) :
    Routine.Describes setting.catalog x.type x.writer ∧
      Routine.Describes setting.catalog x.type x.reader ∧
        ∀ e ∈ x.writer.edges ++ x.reader.edges,
          (e.link = .ready ∧ ∃ d ∈ earlier, d.type = e.type) ∨
            (e.link = .deferred ∧ ∃ d ∈ x :: later, d.type = e.type) := by
  obtain ⟨hquiet, edges, hemitted, hedges⟩ := h.placed earlier x later hsplit
  -- every edge leads to a codec that was itself made by an emitter
  have hselect : ∀ e ∈ edges, ∃ emitter, setting.select e.type = .ok emitter := by
    intro e he
    have hcodec : ∃ d ∈ setting.library.codecs, d.type = e.type := by
      rw [hsplit]
      rcases hedges e he with ⟨-, d, hd, htype⟩ | ⟨-, d, hd, htype⟩
      · exact ⟨d, List.mem_append_left _ hd, htype⟩
      · exact ⟨d, List.mem_append_right _ hd, htype⟩
    obtain ⟨d, hd, htype⟩ := hcodec
    obtain ⟨before, behind, hplace⟩ := List.append_of_mem hd
    obtain ⟨-, _, hmade, -⟩ := h.placed before d behind hplace
    rw [← htype]
    exact hmade.select_eq_ok
  obtain ⟨hwriter, hreader, hwritten, hread⟩ := hemitted.describes hregistry hquiet hselect
  refine ⟨hwriter, hreader, fun e he => ?_⟩
  rcases List.mem_append.mp he with he | he
  · exact hedges e (hwritten e he)
  · exact hedges e (hread e he)

theorem Compile.Setting.Complete.faithful {setting : Compile.Setting} (h : setting.Complete)
    (hregistry : setting.registry = .standard) :
    setting.library.Faithful setting.catalog where
  writer x hx := by
    obtain ⟨earlier, later, hsplit⟩ := List.append_of_mem hx
    exact (h.describes hregistry hsplit).1
  reader x hx := by
    obtain ⟨earlier, later, hsplit⟩ := List.append_of_mem hx
    exact (h.describes hregistry hsplit).2.1
  layered earlier x later hsplit := (h.describes hregistry hsplit).2.2

/-- A handle served after any history belongs to a faithful library that holds its type. -/
theorem Context.faithful_of_request {catalog : Catalog} {config : Config}
    {history : List (Ty × Policy)} {type : Ty} {policy : Policy} {h : Handle}
    (hserved : (((fresh catalog config).after history).request type policy).1 = .ok h) :
    h.library.Faithful catalog ∧ h.codec ∈ h.library.codecs ∧ h.type = type ∧
      h.policy = policy ∧ h.maxDepth = config.maxDepth := by
  obtain ⟨hcomplete, hregistry, hcatalog, hconfig⟩ :=
    complete_after (setting_complete_fresh catalog config) history
  obtain ⟨hcomplete', hregistry', hcatalog', -⟩ := complete_request hcomplete type policy
  obtain ⟨hmem, htype, hpolicy, hdepth, hlibrary⟩ := handle_of_request hserved
  have hfaithful := hcomplete'.faithful (hregistry'.trans hregistry)
  refine ⟨?_, ?_, htype, hpolicy, hdepth.trans (congrArg Config.maxDepth hconfig)⟩
  · rw [hlibrary]
    have hsame : (((fresh catalog config).after history).request type policy).2.setting.catalog =
        catalog := hcatalog'.trans hcatalog
    rw [hsame] at hfaithful
    exact hfaithful
  · rw [hlibrary]
    exact hmem

end SchemaPack
