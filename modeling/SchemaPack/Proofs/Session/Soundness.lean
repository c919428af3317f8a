import SchemaPack.Proofs.Session.Growth

/-!
What a compile session maintains. The entries tell which types are on the stack and which are
finished; every finished codec was made from edges that lead to codecs known by then, and a
poisoned edge or a failed type shows as a problem on record. All of it holds for any registry.
-/
namespace SchemaPack

/-- A routine made by carrying out a plan: the edges answer its requests, in order. -/
structure Blueprint.Carries (b : Blueprint) (edges : List Edge) (r : Routine) : Prop where
  types : edges.map (·.type) = b.requests.map (·.1)
  finish : b.finish edges = .ok r

namespace Compile

/-- The codecs that a setting's emitters make, each with all the edges that were given for it. -/
inductive Emitted (setting : Setting) : CompiledCodec → List Edge → Prop
  | wrapper {type inner : Ty} {edge : Edge}
      (hselect : setting.select type = .ok (.nullWrapper inner)) (hedge : edge.type = inner) :
      Emitted setting ⟨type, nullWrapperName, .nullable edge, .nullable edge⟩ [edge]
  | planned {type : Ty} {p : Provider} {written read : List Edge} {writer reader : Routine}
      (hselect : setting.select type = .ok (.provider p))
      (hwriter : (p.writer type setting.catalog).Carries written writer)
      (hreader : (p.reader type setting.catalog).Carries read reader) :
      Emitted setting ⟨type, p.name, writer, reader⟩ (written ++ read)

/-- A plan for the type puts a problem on record, whatever the edges. -/
def Setting.Reports (setting : Setting) (type : Ty) : Prop :=
  ∃ p problem, setting.select type = .ok (.provider p) ∧
    (Step.report problem ∈ (p.writer type setting.catalog).steps ∨
      Step.report problem ∈ (p.reader type setting.catalog).steps)

namespace Session

variable {setting : Setting} {s s' : Session}

/-- A type with a codec, published before the session or finished among the given ones. -/
def Available (setting : Setting) (codecs : List CompiledCodec) (t : Ty) : Prop :=
  setting.library.contains t = true ∨ ∃ d ∈ codecs, d.type = t

structure Fits (setting : Setting) (s : Session) (e : Edge) : Prop where
  ready : e.link = .ready → Available setting s.finished e.type
  deferred : e.link = .deferred → s.entry? e.type = some .compiling
  poisoned : e.link = .poisoned → s.diagnostics ≠ []

/-- A finished codec, after those it needed. Its ready edges lead to codecs that came before it, and
its deferred ones to types whose codecs did not. -/
structure Placed (setting : Setting) (s : Session) (earlier : List CompiledCodec)
    (c : CompiledCodec) (edges : List Edge) : Prop where
  emitted : Emitted setting c edges
  ready : ∀ e ∈ edges, e.link = .ready → Available setting earlier e.type
  deferred : ∀ e ∈ edges, e.link = .deferred →
    s.entry? e.type ≠ none ∧ ¬ Available setting earlier e.type
  poisoned : ∀ e ∈ edges, e.link = .poisoned → s.diagnostics ≠ []
  reported : setting.Reports c.type → s.diagnostics ≠ []

structure Sound (setting : Setting) (s : Session) : Prop where
  compiling_iff : ∀ t, s.entry? t = some .compiling ↔ ∃ f ∈ s.stack, f.type = t
  finished_iff : ∀ t, s.entry? t = some .finished ↔ ∃ c ∈ s.finished, c.type = t
  failed : ∀ t, s.entry? t = some .failed → s.diagnostics ≠ []
  unpublished : ∀ t e, s.entry? t = some e → setting.library.contains t = false
  nodup : (s.finished.map (·.type)).Nodup
  placed : ∀ earlier c later, s.finished = earlier ++ c :: later →
    ∃ edges, Placed setting s earlier c edges

/-! ## Single steps -/

theorem Placed.grows {earlier : List CompiledCodec} {c : CompiledCodec} {edges : List Edge}
    (h : Placed setting s earlier c edges)
    (hentry : ∀ t, s.entry? t ≠ none → s'.entry? t ≠ none)
    (hdiagnostics : s.diagnostics ≠ [] → s'.diagnostics ≠ []) :
    Placed setting s' earlier c edges where
  emitted := h.emitted
  ready := h.ready
  deferred e he hlink := ⟨hentry _ (h.deferred e he hlink).1, (h.deferred e he hlink).2⟩
  poisoned e he hlink := hdiagnostics (h.poisoned e he hlink)
  reported hr := hdiagnostics (h.reported hr)

theorem Fits.grows {e : Edge} (h : Fits setting s e) (hgrows : Grows s s') :
    Fits setting s' e where
  ready hlink := (h.ready hlink).imp_right fun ⟨d, hd, htype⟩ =>
    ⟨d, hgrows.mem_finished hd, htype⟩
  deferred hlink := hgrows.entry (h.deferred hlink)
  poisoned hlink := hgrows.diagnostics_ne_nil (h.poisoned hlink)

theorem sound_empty (setting : Setting) : Sound setting {} where
  compiling_iff t := by simp [entry?_empty]
  finished_iff t := by simp [entry?_empty]
  failed t h := by simp [entry?_empty] at h
  unpublished t e h := by simp [entry?_empty] at h
  nodup := List.nodup_nil
  placed earlier c later h := by simp at h

/-- A problem on record changes nothing else. -/
theorem sound_record (h : Sound setting s) (d : Diagnostic) : Sound setting (s.record d) := by
  obtain ⟨diagnostics, heq, -, hne⟩ := record_eq s d
  rw [heq]
  exact
    { compiling_iff := h.compiling_iff
      finished_iff := h.finished_iff
      failed := fun _ _ => hne
      unpublished := h.unpublished
      nodup := h.nodup
      placed := fun earlier c later hsplit =>
        let ⟨edges, hplaced⟩ := h.placed earlier c later hsplit
        ⟨edges, hplaced.grows (fun _ => id) fun _ => hne⟩ }

/-- One type gets a new entry, and the stack and the finished codecs change in that type alone. -/
theorem Sound.enter {t : Ty} {e : Entry} (h : Sound setting s) (stack : List Frame)
    (finished : List CompiledCodec)
    (hstack : ∀ u, u ≠ t → ((∃ f ∈ stack, f.type = u) ↔ ∃ f ∈ s.stack, f.type = u))
    (hcompiling : e = .compiling ↔ ∃ f ∈ stack, f.type = t)
    (hfinished : ∀ u, u ≠ t → ((∃ c ∈ finished, c.type = u) ↔ ∃ c ∈ s.finished, c.type = u))
    (hdone : e = .finished ↔ ∃ c ∈ finished, c.type = t)
    (hfailed : e = .failed → s.diagnostics ≠ [])
    (hlibrary : setting.library.contains t = false) (hnodup : (finished.map (·.type)).Nodup)
    (hplaced : ∀ earlier c later, finished = earlier ++ c :: later →
      ∃ edges, Placed setting s earlier c edges) :
    Sound setting { s.enter t e with stack, finished } := by
  have hself : entry? (s.enter t e) t = some e := entry?_enter_self s t e
  have hother : ∀ u, u ≠ t → entry? (s.enter t e) u = s.entry? u :=
    fun u hu => entry?_enter_of_ne hu
  refine ⟨?_, ?_, ?_, ?_, hnodup, ?_⟩
  · intro u
    change entry? (s.enter t e) u = _ ↔ ∃ f ∈ stack, f.type = u
    by_cases hu : u = t
    · rw [hu, hself, Option.some.injEq]
      exact hcompiling
    · rw [hother u hu, h.compiling_iff, hstack u hu]
  · intro u
    change entry? (s.enter t e) u = _ ↔ ∃ c ∈ finished, c.type = u
    by_cases hu : u = t
    · rw [hu, hself, Option.some.injEq]
      exact hdone
    · rw [hother u hu, h.finished_iff, hfinished u hu]
  · intro u hu
    change entry? (s.enter t e) u = _ at hu
    by_cases hut : u = t
    · rw [hut, hself, Option.some.injEq] at hu
      exact hfailed hu
    · rw [hother u hut] at hu
      exact h.failed u hu
  · intro u e' hu
    change entry? (s.enter t e) u = _ at hu
    by_cases hut : u = t
    · rw [hut]
      exact hlibrary
    · rw [hother u hut] at hu
      exact h.unpublished u e' hu
  · intro earlier c later hsplit
    obtain ⟨edges, hc⟩ := hplaced earlier c later hsplit
    refine ⟨edges, hc.grows (fun u hu => ?_) id⟩
    change entry? (s.enter t e) u ≠ none
    by_cases hut : u = t
    · rw [hut, hself]
      exact nofun
    · rw [hother u hut]
      exact hu

theorem Sound.not_mem_stack {t : Ty} (h : Sound setting s) (hentry : s.entry? t ≠ some .compiling) :
    ¬ ∃ f ∈ s.stack, f.type = t := fun hmem => hentry ((h.compiling_iff t).mpr hmem)

theorem Sound.not_mem_finished {t : Ty} (h : Sound setting s)
    (hentry : s.entry? t ≠ some .finished) : ¬ ∃ c ∈ s.finished, c.type = t :=
  fun hmem => hentry ((h.finished_iff t).mpr hmem)

/-- The work on a new type begins. -/
theorem sound_start {t : Ty} {isIndirect : Bool} (h : Sound setting s)
    (hnew : s.entry? t = none) (hlibrary : setting.library.contains t = false) :
    Sound setting ((s.enter t .compiling).push ⟨t, isIndirect⟩) := by
  have hmissing := h.not_mem_finished (t := t) (by rw [hnew]; decide)
  refine h.enter (⟨t, isIndirect⟩ :: s.stack) s.finished ?_ ?_ (fun _ _ => Iff.rfl)
    (iff_of_false (by decide) hmissing) (absurd · (by decide)) hlibrary h.nodup h.placed
  · intro u hu
    simp only [List.mem_cons, exists_eq_or_imp, or_iff_right hu.symm]
  · simp

/-- A type fails before the work on it has begun. -/
theorem sound_fail {t : Ty} (h : Sound setting s) (hnew : s.entry? t = none)
    (hlibrary : setting.library.contains t = false) (hne : s.diagnostics ≠ []) :
    Sound setting (s.fail t) := by
  have hunstacked := h.not_mem_stack (t := t) (by rw [hnew]; decide)
  have hmissing := h.not_mem_finished (t := t) (by rw [hnew]; decide)
  exact h.enter s.stack s.finished (fun _ _ => Iff.rfl) (iff_of_false (by decide) hunstacked)
    (fun _ _ => Iff.rfl) (iff_of_false (by decide) hmissing) (fun _ => hne) hlibrary h.nodup
    h.placed

section Leaving

variable {f : Frame} {rest : List Frame}

/-- The work on the type at the top of the stack ends in a failure. -/
theorem sound_pop_fail (h : Sound setting s) (hstack : s.stack = f :: rest)
    (hrest : ¬ ∃ g ∈ rest, g.type = f.type) (hne : s.diagnostics ≠ []) :
    Sound setting (s.pop.fail f.type) := by
  have htop : s.entry? f.type = some .compiling :=
    (h.compiling_iff _).mpr ⟨f, by rw [hstack]; exact List.mem_cons_self, rfl⟩
  have hmissing := h.not_mem_finished (t := f.type) (by rw [htop]; decide)
  have hpop : s.pop.fail f.type =
      { s.enter f.type .failed with stack := rest, finished := s.finished } := by
    simp [pop, fail, Session.enter, hstack]
  rw [hpop]
  refine h.enter rest s.finished ?_ (iff_of_false (by decide) hrest) (fun _ _ => Iff.rfl)
    (iff_of_false (by decide) hmissing) (fun _ => hne) (h.unpublished _ _ htop) h.nodup h.placed
  intro u hu
  rw [hstack]
  simp only [List.mem_cons, exists_eq_or_imp, or_iff_right hu.symm]

/-- A codec made from edges that fit is placed after the codecs finished so far. -/
theorem placed_of_fits {c : CompiledCodec} {edges : List Edge} (h : Sound setting s)
    (hemitted : Emitted setting c edges) (hfits : ∀ e ∈ edges, Fits setting s e)
    (hreported : setting.Reports c.type → s.diagnostics ≠ []) :
    Placed setting s s.finished c edges where
  emitted := hemitted
  ready e he hlink := (hfits e he).ready hlink
  deferred e he hlink := by
    have hcompiling := (hfits e he).deferred hlink
    refine ⟨by rw [hcompiling]; exact nofun, ?_⟩
    rintro (hpublished | hfinished)
    · rw [h.unpublished _ _ hcompiling] at hpublished
      cases hpublished
    · rw [(h.finished_iff _).mpr hfinished] at hcompiling
      cases hcompiling
  poisoned e he hlink := (hfits e he).poisoned hlink
  reported := hreported

/-- The work on the type at the top of the stack ends with its codec. -/
theorem sound_pop_finish {c : CompiledCodec} {edges : List Edge} (h : Sound setting s)
    (hstack : s.stack = f :: rest) (hrest : ¬ ∃ g ∈ rest, g.type = f.type) (htype : c.type = f.type)
    (hemitted : Emitted setting c edges) (hfits : ∀ e ∈ edges, Fits setting s e)
    (hreported : setting.Reports c.type → s.diagnostics ≠ []) :
    Sound setting (s.pop.finish c) := by
  have htop : s.entry? c.type = some .compiling :=
    (h.compiling_iff _).mpr ⟨f, by rw [hstack]; exact List.mem_cons_self, htype.symm⟩
  have hmissing := h.not_mem_finished (t := c.type) (by rw [htop]; decide)
  have hpop : s.pop.finish c =
      { s.enter c.type .finished with stack := rest, finished := s.finished ++ [c] } := by
    simp [pop, finish, Session.enter, hstack]
  rw [hpop]
  rw [← htype] at hrest
  refine h.enter rest (s.finished ++ [c]) ?_ (iff_of_false (by decide) hrest) ?_ ?_
    (absurd · (by decide)) (h.unpublished _ _ htop) ?_ ?_
  · intro u hu
    rw [hstack]
    simp only [List.mem_cons, exists_eq_or_imp, or_iff_right (htype ▸ hu.symm)]
  · intro u hu
    simp [hu.symm]
  · simp
  · rw [List.map_append, List.nodup_append]
    refine ⟨h.nodup, by simp, ?_⟩
    rintro u hu v hv rfl
    simp only [List.map_cons, List.map_nil, List.mem_singleton] at hv
    obtain ⟨d, hd, hdu⟩ := List.mem_map.mp hu
    exact hmissing ⟨d, hd, hdu.trans hv⟩
  · -- the new codec stands last, and what stood before the others stays as it was
    intro earlier d later hsplit
    rcases List.eq_nil_or_concat later with rfl | ⟨init, last, rfl⟩
    · obtain ⟨rfl, hlast⟩ := List.append_inj' hsplit rfl
      cases hlast
      exact ⟨edges, placed_of_fits h hemitted hfits hreported⟩
    · rw [List.concat_eq_append, ← List.cons_append, ← List.append_assoc] at hsplit
      obtain ⟨hinit, -⟩ := List.append_inj' hsplit rfl
      exact h.placed earlier d init hinit

end Leaving

end Session

end Compile

end SchemaPack
