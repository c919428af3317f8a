import SchemaPack.Proofs.Session.Soundness

/-!
Whole compile sessions. Every part of a session, from a single edge to the compilation of a type
with all it needs, keeps it sound and lets it grow. So a session without problems publishes codecs
whose edges all lead to published codecs.
-/
namespace SchemaPack.Compile.Session

variable {setting : Setting} {s : Session}

structure Proceeds (setting : Setting) (s s' : Session) : Prop where
  sound : Sound setting s'
  grows : Grows s s'

theorem Proceeds.refl (h : Sound setting s) : Proceeds setting s s := ⟨h, Grows.refl s⟩

theorem Proceeds.trans {s' s'' : Session} (h : Proceeds setting s s')
    (h' : Proceeds setting s' s'') : Proceeds setting s s'' :=
  ⟨h'.sound, h.grows.trans h'.grows⟩

theorem proceeds_report (h : Sound setting s) (p : Problem) : Proceeds setting s (s.report p) :=
  ⟨sound_record h _, grows_report s p⟩

structure Gives (setting : Setting) (s : Session) (t : Ty) (r : Edge × Session) : Prop where
  proceeds : Proceeds setting s r.2
  type : r.1.type = t
  fits : Fits setting r.2 r.1

/-- A new type has been compiled, or a problem is on record. -/
structure Compiles (setting : Setting) (s : Session) (t : Ty) (r : Bool × Session) : Prop where
  proceeds : Proceeds setting s r.2
  done : r.1 = true → entry? r.2 t = some .finished
  failed : r.1 = false → r.2.diagnostics ≠ []

/-- A type compiled without a problem is finished. -/
theorem Compiles.finished {t : Ty} {r : Bool × Session} (h : Compiles setting s t r)
    (hquiet : r.2.diagnostics = []) : r.1 = true := by
  cases hdone : r.1 with
  | true => rfl
  | false => exact absurd hquiet (h.failed hdone)

theorem sound_defer (h : Sound setting s) (n : Nat) : Sound setting { s with deferred := n } where
  compiling_iff := h.compiling_iff
  finished_iff := h.finished_iff
  failed := h.failed
  unpublished := h.unpublished
  nodup := h.nodup
  placed earlier c later hsplit :=
    let ⟨edges, hplaced⟩ := h.placed earlier c later hsplit
    ⟨edges, hplaced.grows (fun _ => id) id⟩

theorem gives_reenter {t : Ty} (h : Sound setting s) (hcompiling : s.entry? t = some .compiling)
    (isIndirect : Bool) : Gives setting s t (s.reenter t isIndirect) := by
  simp only [reenter]
  split
  · refine ⟨⟨sound_defer h _, ⟨rfl, id, List.prefix_rfl, List.prefix_rfl⟩⟩, rfl, ?_⟩
    exact ⟨nofun, fun _ => hcompiling, nofun⟩
  · refine ⟨⟨sound_record h _, grows_reportNested s t _⟩, rfl, ?_⟩
    exact ⟨nofun, nofun, fun _ => record_diagnostics_ne_nil s _⟩

/-- Every edge fits, if every compilation of a new type does its work. -/
theorem gives_edge {compile : Ty → Bool → Session → Bool × Session}
    (hcompile : ∀ t isIndirect s, Sound setting s → s.entry? t = none →
      setting.library.contains t = false → Compiles setting s t (compile t isIndirect s))
    (t : Ty) (isIndirect : Bool) (h : Sound setting s) :
    Gives setting s t (edge setting compile t isIndirect s) := by
  have hanswered := answered_edge setting compile t isIndirect s
  generalize edge setting compile t isIndirect s = r at hanswered ⊢
  cases hanswered with
  | published hpublished =>
    exact ⟨Proceeds.refl h, rfl, fun _ => Or.inl hpublished, nofun, nofun⟩
  | finished _ hentry =>
    exact ⟨Proceeds.refl h, rfl, fun _ => Or.inr ((h.finished_iff t).mp hentry), nofun, nofun⟩
  | failed _ hentry => exact ⟨Proceeds.refl h, rfl, nofun, nofun, fun _ => h.failed t hentry⟩
  | reentered _ hentry => exact gives_reenter h hentry isIndirect
  | compiled hlibrary hnew =>
    have hc := hcompile t isIndirect s h hnew hlibrary
    refine ⟨hc.proceeds, rfl, ?_⟩
    cases hdone : (compile t isIndirect s).1 with
    | true =>
      have hfinished := (hc.proceeds.sound.finished_iff t).mp (hc.done hdone)
      exact ⟨fun _ => Or.inr hfinished, nofun, nofun⟩
    | false => exact ⟨nofun, nofun, fun _ => hc.failed hdone⟩

structure Answers (setting : Setting) (s : Session) (b : Blueprint) (r : List Edge × Session) :
    Prop where
  proceeds : Proceeds setting s r.2
  types : r.1.map (·.type) = b.requests.map (·.1)
  fits : ∀ e ∈ r.1, Fits setting r.2 e
  reported : ∀ problem, Step.report problem ∈ b.steps → r.2.diagnostics ≠ []

theorem answers_run {give : Ty → Bool → Session → Edge × Session}
    (hgive : ∀ t isIndirect s, Sound setting s → Gives setting s t (give t isIndirect s))
    (steps : List Step) (finish : List Edge → Except Problem Routine) (h : Sound setting s) :
    Answers setting s ⟨steps, finish⟩ (run give steps s) := by
  induction steps generalizing s with
  | nil => exact ⟨Proceeds.refl h, rfl, nofun, nofun⟩
  | cons step rest ih =>
    cases step with
    | request t isIndirect =>
      have hfirst := hgive t isIndirect s h
      have hrest := ih hfirst.proceeds.sound
      refine ⟨hfirst.proceeds.trans hrest.proceeds, ?_, ?_, ?_⟩
      · show (give t isIndirect s).1.type :: _ = _
        rw [hfirst.type, hrest.types]
        rfl
      · intro e he
        rcases List.mem_cons.mp he with rfl | he
        · exact hfirst.fits.grows hrest.proceeds.grows
        · exact hrest.fits e he
      · intro problem hmem
        rcases List.mem_cons.mp hmem with heq | hmem
        · cases heq
        · exact hrest.reported problem hmem
    | report problem =>
      have hreport := proceeds_report h (problem s.diagnostics.length)
      have hrest := ih hreport.sound
      refine ⟨hreport.trans hrest.proceeds, hrest.types, hrest.fits, fun _ _ => ?_⟩
      exact hrest.proceeds.grows.diagnostics_ne_nil (record_diagnostics_ne_nil s _)

structure Plans (setting : Setting) (s : Session) (t : Ty)
    (r : String × Except Problem (Routine × Routine) × Session) : Prop where
  proceeds : Proceeds setting s r.2.2
  emitted : ∀ writer reader, r.2.1 = .ok (writer, reader) →
    ∃ edges, Emitted setting ⟨t, r.1, writer, reader⟩ edges ∧ ∀ e ∈ edges, Fits setting r.2.2 e
  reported : setting.Reports t → (∃ routines, r.2.1 = .ok routines) → r.2.2.diagnostics ≠ []

theorem plans_failed {t : Ty} {name : String} {problem : Problem} {s' : Session}
    (h : Proceeds setting s s') : Plans setting s t (name, .error problem, s') := by
  refine ⟨h, ?_, ?_⟩
  · intro writer reader hok
    cases hok
  · rintro - ⟨routines, hok⟩
    cases hok

theorem answers_blueprint {give : Ty → Bool → Session → Edge × Session}
    (hgive : ∀ t isIndirect s, Sound setting s → Gives setting s t (give t isIndirect s))
    (b : Blueprint) (h : Sound setting s) : Answers setting s b (run give b.steps s) :=
  answers_run hgive b.steps b.finish h

theorem answers_of_run {give : Ty → Bool → Session → Edge × Session}
    (hgive : ∀ t isIndirect s, Sound setting s → Gives setting s t (give t isIndirect s))
    {b : Blueprint} (h : Sound setting s) {edges : List Edge} {s₁ : Session}
    (hrun : run give b.steps s = (edges, s₁)) : Answers setting s b (edges, s₁) := by
  rw [← hrun]
  exact answers_blueprint hgive b h

theorem plans_routines {give : Ty → Bool → Session → Edge × Session}
    (hgive : ∀ t isIndirect s, Sound setting s → Gives setting s t (give t isIndirect s))
    {t : Ty} {emitter : Emitter} (hselect : setting.select t = .ok emitter)
    (h : Sound setting s) : Plans setting s t (s.routines setting give t emitter) := by
  have hplanned := planned_routines setting give t s emitter
  generalize s.routines setting give t emitter = r at hplanned ⊢
  cases hplanned with
  | wrapped inner =>
    have hinner := hgive inner true s h
    refine ⟨hinner.proceeds, ?_, ?_⟩
    · intro writer reader hok
      cases hok
      refine ⟨[(give inner true s).1], .wrapper hselect hinner.type, ?_⟩
      intro e he
      rw [List.mem_singleton.mp he]
      exact hinner.fits
    · rintro ⟨p, problem, hprovider, -⟩
      rw [hselect] at hprovider
      cases hprovider
  | unwritten p hwritten => exact plans_failed (answers_of_run hgive h hwritten).proceeds
  | unread p hwritten hwriter hread =>
    have hplan := answers_of_run hgive h hwritten
    have hplan' := answers_of_run hgive hplan.proceeds.sound hread
    exact plans_failed (hplan.proceeds.trans hplan'.proceeds)
  | planned p hwritten hwriter hread hreader =>
    have hplan := answers_of_run hgive h hwritten
    -- the plan for reading is carried out in the session that the one for writing has left
    have hplan' := answers_of_run hgive hplan.proceeds.sound hread
    refine ⟨hplan.proceeds.trans hplan'.proceeds, ?_, ?_⟩
    · intro writer' reader' hok
      cases hok
      refine ⟨_, .planned hselect ⟨hplan.types, hwriter⟩ ⟨hplan'.types, hreader⟩, ?_⟩
      intro e he
      rcases List.mem_append.mp he with he | he
      · exact (hplan.fits e he).grows hplan'.proceeds.grows
      · exact hplan'.fits e he
    · rintro ⟨q, problem, hprovider, hmem⟩ -
      rw [hselect] at hprovider
      cases hprovider
      rcases hmem with hmem | hmem
      · exact hplan'.proceeds.grows.diagnostics_ne_nil (hplan.reported problem hmem)
      · exact hplan'.reported problem hmem

/-- The work on a new type comes to its end. Its codec counts as finished only if no problem has
come up since the work began, so that a problem from before does not stand in its way. -/
theorem compiles_close {t : Ty} {isIndirect : Bool} {name : String}
    {outcome : Except Problem (Routine × Routine)} {s' : Session} (h : Sound setting s)
    (hnew : s.entry? t = none)
    (hplans : Plans setting ((s.enter t .compiling).push ⟨t, isIndirect⟩) t (name, outcome, s')) :
    Compiles setting s t (s'.close t name outcome s.diagnostics.length) := by
  have hstack : s'.stack = ⟨t, isIndirect⟩ :: s.stack := hplans.proceeds.grows.stack
  have hrest : ¬ ∃ g ∈ s.stack, g.type = t := h.not_mem_stack (by rw [hnew]; exact nofun)
  have hfailed : ∀ s₁, Sound setting s₁ → Grows s' s₁ → s₁.diagnostics ≠ [] →
      Compiles setting s t (false, s₁.pop.fail t) := by
    intro s₁ hsound hgrows hne
    have htotal := hplans.proceeds.grows.trans hgrows
    exact ⟨⟨sound_pop_fail hsound (hgrows.stack.trans hstack) hrest hne, grows_frame hnew htotal⟩,
      nofun, fun _ => hne⟩
  have hended := ended_close s' t name outcome s.diagnostics.length
  generalize s'.close t name outcome s.diagnostics.length = r at hended ⊢
  cases hended with
  | failed problem =>
    have hreport := proceeds_report hplans.proceeds.sound problem
    exact hfailed _ hreport.sound hreport.grows (record_diagnostics_ne_nil s' _)
  | finished hbefore =>
    obtain ⟨edges, hemitted, hfits⟩ := hplans.emitted _ _ rfl
    have hsound := sound_pop_finish hplans.proceeds.sound hstack hrest rfl hemitted hfits
      (hplans.reported · ⟨_, rfl⟩)
    refine ⟨⟨hsound, ?_⟩, fun _ => entry?_enter_self s'.pop t .finished, nofun⟩
    have hframe := grows_frame (e := .finished) hnew hplans.proceeds.grows
    exact ⟨hframe.stack, hframe.entry, hframe.finished.trans (List.prefix_append ..),
      hframe.diagnostics⟩
  | abandoned hsince =>
    exact hfailed s' hplans.proceeds.sound (Grows.refl s')
      (hplans.proceeds.grows.ne_nil_of_length_ne hsince)

/-- A type that fails before the work on it begins puts a problem on record. -/
theorem compiles_failed {t : Ty} (h : Sound setting s) (hnew : s.entry? t = none)
    (hlibrary : setting.library.contains t = false) (p : Problem) :
    Compiles setting s t (false, (s.reportNested t p).fail t) := by
  have hgrows := grows_reportNested s t p
  have hne := record_diagnostics_ne_nil s ⟨s.chain ++ [t], p⟩
  have hentry : entry? (s.reportNested t p) t = none := (entry?_record s _ t).trans hnew
  exact ⟨⟨sound_fail (sound_record h _) hentry hlibrary hne,
    hgrows.trans (grows_enter hentry .failed)⟩, nofun, fun _ => hne⟩

/-- The induction over the depth of a session: whatever room is left, a new type is compiled or a
problem is on record. -/
theorem compiles_compile (room : Nat) (t : Ty) (isIndirect : Bool) (s : Session)
    (h : Sound setting s) (hnew : s.entry? t = none)
    (hlibrary : setting.library.contains t = false) :
    Compiles setting s t (compile setting room t isIndirect s) := by
  induction room generalizing t isIndirect s with
  | zero => exact compiles_failed h hnew hlibrary _
  | succ room ih =>
    simp only [compile]
    split
    · exact compiles_failed h hnew hlibrary _
    · rename_i emitter hselect
      have hgive : ∀ t isIndirect s, Sound setting s →
          Gives setting s t (edge setting (compile setting room) t isIndirect s) :=
        fun t isIndirect s hs => gives_edge ih t isIndirect hs
      exact compiles_close h hnew
        (plans_routines hgive hselect (sound_start h hnew hlibrary))

end SchemaPack.Compile.Session

namespace SchemaPack.Compile

variable {setting : Setting} {type : Ty} {codecs : List CompiledCodec}

theorem compiles_session (hlibrary : setting.library.contains type = false) :
    Session.Compiles setting {} type (session setting type) :=
  Session.compiles_compile setting.maxDepth type false {} (Session.sound_empty setting) rfl hlibrary

/-- No frame is left at the end of a session, so no type is still being compiled. -/
theorem session_ne_compiling (hlibrary : setting.library.contains type = false) (t : Ty) :
    Session.entry? (session setting type).2 t ≠ some .compiling := by
  intro hcompiling
  obtain ⟨⟨hsound, hgrows⟩, -, -⟩ := compiles_session hlibrary
  obtain ⟨f, hf, -⟩ := (hsound.compiling_iff t).mp hcompiling
  rw [hgrows.stack] at hf
  cases hf

/-- A session comes to its codecs if nothing is on record, and otherwise to the error made of what
is. -/
theorem outcome_eq (hlibrary : setting.library.contains type = false) :
    outcome type (session setting type) =
      if (session setting type).2.diagnostics = [] then .ok (session setting type).2.finished
      else .error (.ofDiagnostics type (session setting type).2.diagnostics) := by
  unfold outcome
  by_cases hquiet : (session setting type).2.diagnostics = []
  · rw [if_pos hquiet, (compiles_session hlibrary).finished hquiet, hquiet]
    rfl
  · have hproblem : (session setting type).2.diagnostics.isEmpty = false :=
      Bool.eq_false_iff.mpr (mt List.isEmpty_iff.mp hquiet)
    rw [if_neg hquiet, hproblem, Bool.and_false]
    rfl

/-- What a session without problems hands over: new codecs, each placed after those its ready edges
lead to, and not before those its deferred edges lead to. -/
structure Published (setting : Setting) (type : Ty) (codecs : List CompiledCodec) : Prop where
  root : ∃ c ∈ codecs, c.type = type
  unpublished : ∀ c ∈ codecs, setting.library.contains c.type = false
  nodup : (codecs.map (·.type)).Nodup
  placed : ∀ earlier c later, codecs = earlier ++ c :: later →
    ¬ setting.Reports c.type ∧ ∃ edges, Emitted setting c edges ∧ ∀ e ∈ edges,
      (e.link = .ready ∧ Session.Available setting earlier e.type) ∨
        (e.link = .deferred ∧ ∃ d ∈ c :: later, d.type = e.type)

open Session in
/-- A session whose problems are none publishes a codec of the requested type and of every type that
an edge leads to. -/
theorem published_of_outcome (hlibrary : setting.library.contains type = false)
    (h : outcome type (session setting type) = .ok codecs) : Published setting type codecs := by
  have hcompiled := compiles_session hlibrary
  have hsound := hcompiled.proceeds.sound
  rw [outcome_eq hlibrary] at h
  split at h
  · rename_i hnil
    cases h
    -- no type is being compiled and none has failed, so every known type is finished
    have hfinished : ∀ t, entry? (session setting type).2 t ≠ none →
        ∃ c ∈ (session setting type).2.finished, c.type = t := by
      intro t ht
      obtain ⟨e, he⟩ := Option.ne_none_iff_exists'.mp ht
      cases e with
      | compiling => exact absurd he (session_ne_compiling hlibrary t)
      | finished => exact (hsound.finished_iff t).mp he
      | failed => exact absurd hnil (hsound.failed t he)
    have hdone := hcompiled.done (hcompiled.finished hnil)
    refine ⟨(hsound.finished_iff type).mp hdone, ?_, hsound.nodup, ?_⟩
    · intro c hmem
      exact hsound.unpublished _ _ ((hsound.finished_iff c.type).mpr ⟨c, hmem, rfl⟩)
    · intro earlier c later hsplit
      obtain ⟨edges, hplaced⟩ := hsound.placed earlier c later hsplit
      refine ⟨fun hreports => hplaced.reported hreports hnil, edges, hplaced.emitted, ?_⟩
      intro e he
      cases hlink : e.link with
      | ready => exact Or.inl ⟨rfl, hplaced.ready e he hlink⟩
      | deferred =>
        obtain ⟨hknown, hmissing⟩ := hplaced.deferred e he hlink
        obtain ⟨d, hd, htype⟩ := hfinished e.type hknown
        rw [hsplit] at hd
        rcases List.mem_append.mp hd with hd | hd
        · exact absurd (Or.inr ⟨d, hd, htype⟩) hmissing
        · exact Or.inr ⟨rfl, d, hd, htype⟩
      | poisoned => exact absurd hnil (hplaced.poisoned e he hlink)
  · cases h

end SchemaPack.Compile
