import SchemaPack.Proofs.Session.Run

/-!
How far a compile session looks. A type on which the work has ended has been looked at in full: it
is on record that no provider takes it, or every type that it asks for is known and every problem of
its plan is on record. A session that meets its limit of depth may stop short of that. All of it
holds for any registry.
-/
namespace SchemaPack.Compile.Session

variable {setting : Setting} {s s' s'' : Session} {t : Ty}

def Recorded (s : Session) (problem : Problem) : Prop := ∃ d ∈ s.diagnostics, d.problem = problem

def Limited (s : Session) : Prop := ∃ t limit, s.Recorded (.depthLimitExceeded t limit)

/-- The type is published, or the session has met it. -/
def Known (setting : Setting) (s : Session) (t : Ty) : Prop :=
  setting.library.contains t = true ∨ s.entry? t ≠ none

/-- The steps of the plan have been carried out. If it then comes to no routine, that is on
record. -/
structure Carried (setting : Setting) (s : Session) (b : Blueprint) : Prop where
  known : ∀ t isIndirect, (t, isIndirect) ∈ b.requests → Known setting s t
  reported : ∀ problem, Step.report problem ∈ b.steps → ∃ n, s.Recorded (problem n)
  refused : ∃ edges : List Edge, edges.map (·.type) = b.requests.map (·.1) ∧
    ∀ problem, b.finish edges = .error problem → s.Recorded problem

inductive Explored (setting : Setting) (s : Session) (t : Ty) : Prop
  | rejected {problem : Problem} (hselect : setting.select t = .error problem)
      (h : s.Recorded problem)
  | wrapped {inner : Ty} (hselect : setting.select t = .ok (.nullWrapper inner))
      (h : Known setting s inner)
  | planned {p : Provider} (hselect : setting.select t = .ok (.provider p))
      (h : Carried setting s (p.writer t setting.catalog))

/-- Every type on which the work has ended has been looked at in full, if there was room. -/
def Thorough (setting : Setting) (s : Session) : Prop :=
  s.Limited ∨ ∀ t e, s.entry? t = some e → e ≠ .compiling → Explored setting s t

/-! ## What stays -/

/-- What is known stays known, and problems stay on record. -/
structure Retains (s s' : Session) : Prop where
  entry : ∀ t, s.entry? t ≠ none → s'.entry? t ≠ none
  diagnostics : s.diagnostics ⊆ s'.diagnostics

theorem Retains.trans (h : Retains s s') (h' : Retains s' s'') : Retains s s'' :=
  ⟨fun t ht => h'.entry t (h.entry t ht), List.Subset.trans h.diagnostics h'.diagnostics⟩

theorem Grows.retains (h : Grows s s') : Retains s s' := by
  refine ⟨fun t ht => ?_, h.diagnostics.subset⟩
  obtain ⟨e, he⟩ := Option.ne_none_iff_exists'.mp ht
  rw [h.entry he]
  exact Option.some_ne_none _

theorem retains_enter (s : Session) (t : Ty) (e : Entry) : Retains s (s.enter t e) := by
  refine ⟨fun u hu => ?_, List.Subset.refl _⟩
  by_cases hut : u = t
  · rw [hut, entry?_enter_self]
    exact Option.some_ne_none _
  · rwa [entry?_enter_of_ne hut]

theorem Recorded.kept {problem : Problem} (h : s.Recorded problem) (hretains : Retains s s') :
    s'.Recorded problem :=
  let ⟨d, hd, hproblem⟩ := h
  ⟨d, hretains.diagnostics hd, hproblem⟩

theorem Limited.kept (h : s.Limited) (hretains : Retains s s') : s'.Limited :=
  let ⟨t, limit, hrecorded⟩ := h
  ⟨t, limit, hrecorded.kept hretains⟩

theorem Known.kept (h : Known setting s t) (hretains : Retains s s') : Known setting s' t :=
  h.imp_right (hretains.entry t)

theorem Carried.kept {b : Blueprint} (h : Carried setting s b) (hretains : Retains s s') :
    Carried setting s' b where
  known t isIndirect ht := (h.known t isIndirect ht).kept hretains
  reported problem hp := (h.reported problem hp).imp fun _ hn => hn.kept hretains
  refused := h.refused.imp fun _ ⟨htypes, hfinish⟩ =>
    ⟨htypes, fun problem herror => (hfinish problem herror).kept hretains⟩

theorem Explored.kept (h : Explored setting s t) (hretains : Retains s s') :
    Explored setting s' t := by
  cases h with
  | rejected hselect h => exact .rejected hselect (h.kept hretains)
  | wrapped hselect h => exact .wrapped hselect (h.kept hretains)
  | planned hselect h => exact .planned hselect (h.kept hretains)

/-- It is enough to look at the types on which the work has ended since then. -/
theorem Thorough.kept (h : Thorough setting s) (hretains : Retains s s')
    (hentry : ∀ t e, s'.entry? t = some e → e ≠ .compiling →
      s.entry? t = some e ∨ Explored setting s' t) : Thorough setting s' := by
  rcases h with hlimited | hexplored
  · exact .inl (hlimited.kept hretains)
  · refine .inr fun t e he hne => ?_
    rcases hentry t e he hne with hbefore | hnow
    · exact (hexplored t e hbefore hne).kept hretains
    · exact hnow

theorem recorded_record (s : Session) (d : Diagnostic) : (s.record d).Recorded d.problem := by
  unfold record
  split
  · rename_i h
    obtain ⟨e, he, heq⟩ := List.any_eq_true.mp h
    exact ⟨e, he, eq_of_beq heq⟩
  · exact ⟨d, List.mem_append_right _ List.mem_cons_self, rfl⟩

theorem Thorough.record (h : Thorough setting s) (d : Diagnostic) :
    Thorough setting (s.record d) := by
  refine h.kept (grows_record s d).retains fun t e he _ => .inl ?_
  rwa [entry?_record] at he

/-- The work on one type ends. -/
theorem Thorough.settle (h : Thorough setting s) {e : Entry}
    (hexplored : Explored setting (s.enter t e) t) : Thorough setting (s.enter t e) := by
  refine h.kept (retains_enter s t e) fun u e' he _ => ?_
  by_cases hut : u = t
  · exact .inr (hut ▸ hexplored)
  · rw [entry?_enter_of_ne hut] at he
    exact .inl he

/-- The stack and the finished codecs do not matter. -/
theorem Retains.of_eq (hentries : s'.entries = s.entries)
    (hdiagnostics : s'.diagnostics = s.diagnostics) : Retains s s' := by
  refine ⟨fun t ht => ?_, hdiagnostics ▸ List.Subset.refl _⟩
  rwa [ entry?, hentries]

theorem Thorough.of_eq (h : Thorough setting s) (hentries : s'.entries = s.entries)
    (hdiagnostics : s'.diagnostics = s.diagnostics) : Thorough setting s' := by
  refine h.kept (.of_eq hentries hdiagnostics) fun t e he _ => .inl ?_
  rwa [ entry?, hentries] at he

/-- The work on one type begins. -/
theorem Thorough.start (h : Thorough setting s) (t : Ty) (f : Frame) :
    Thorough setting ((s.enter t .compiling).push f) := by
  have hbegun : Thorough setting (s.enter t .compiling) := by
    refine h.kept (retains_enter s t .compiling) fun u e he hne => .inl ?_
    by_cases hut : u = t
    · rw [hut, entry?_enter_self] at he
      cases he
      exact absurd rfl hne
    · rwa [entry?_enter_of_ne hut] at he
  exact hbegun.of_eq rfl rfl

/-! ## Through a session -/

structure Visits (setting : Setting) (t : Ty) (s : Session) : Prop where
  thorough : Thorough setting s
  known : Known setting s t

theorem visits_failed (h : Thorough setting s) {problem : Problem}
    (hexplored : Limited (s.reportNested t problem) ∨ setting.select t = .error problem) :
    Visits setting t ((s.reportNested t problem).fail t) := by
  have hknown : Known setting ((s.reportNested t problem).fail t) t := by
    refine .inr ?_
    rw [fail, entry?_enter_self]
    exact Option.some_ne_none _
  refine ⟨?_, hknown⟩
  rcases hexplored with hlimited | hselect
  · exact .inl (hlimited.kept (retains_enter _ t .failed))
  · have hrecorded := recorded_record s ⟨s.chain ++ [t], problem⟩
    exact (h.record _).settle (.rejected hselect (hrecorded.kept (retains_enter _ t .failed)))

section

variable {compile : Ty → Bool → Session → Bool × Session}

theorem visits_edge
    (hcompile : ∀ t isIndirect s, Sound setting s → Thorough setting s → s.entry? t = none →
      setting.library.contains t = false → Visits setting t (compile t isIndirect s).2)
    (t : Ty) (isIndirect : Bool) (h : Sound setting s) (hthorough : Thorough setting s) :
    Visits setting t (edge setting compile t isIndirect s).2 := by
  have hentered : ∀ e, s.entry? t = some e → Known setting s t := by
    intro e hentry
    exact .inr (by rw [hentry]; exact Option.some_ne_none _)
  have hanswered := answered_edge setting compile t isIndirect s
  generalize edge setting compile t isIndirect s = r at hanswered ⊢
  cases hanswered with
  | published hpublished => exact ⟨hthorough, .inl hpublished⟩
  | finished _ hentry | failed _ hentry => exact ⟨hthorough, hentered _ hentry⟩
  | reentered _ hentry =>
    simp only [reenter]
    split
    · exact ⟨hthorough.of_eq rfl rfl, hentered _ hentry⟩
    · exact ⟨hthorough.record _, (hentered _ hentry).kept (grows_reportNested s t _).retains⟩
  | compiled hlibrary hnew => exact hcompile t isIndirect s h hthorough hnew hlibrary

end

section

variable {give : Ty → Bool → Session → Edge × Session}

/-- The steps of a plan: every request is known and every problem on record. -/
theorem thorough_run
    (hgive : ∀ t isIndirect s, Sound setting s → Gives setting s t (give t isIndirect s))
    (hvisits : ∀ t isIndirect s, Sound setting s → Thorough setting s →
      Visits setting t (give t isIndirect s).2)
    (b : Blueprint) (h : Sound setting s) (hthorough : Thorough setting s) :
    Thorough setting (run give b.steps s).2 ∧
      (∀ t isIndirect, (t, isIndirect) ∈ b.requests → Known setting (run give b.steps s).2 t) ∧
      ∀ problem, Step.report problem ∈ b.steps →
        ∃ n, (run give b.steps s).2.Recorded (problem n) := by
  obtain ⟨steps, finish⟩ := b
  induction steps generalizing s with
  | nil => exact ⟨hthorough, nofun, nofun⟩
  | cons step steps ih =>
    cases step with
    | request t isIndirect =>
      have hgives := hgive t isIndirect s h
      have hfirst := hvisits t isIndirect s h hthorough
      have hgrows := (answers_run hgive steps finish hgives.proceeds.sound).proceeds.grows
      obtain ⟨hrest, hknown, hreported⟩ := ih hgives.proceeds.sound hfirst.thorough
      refine ⟨hrest, fun u i hu => ?_, fun problem hp => ?_⟩
      · rcases List.mem_cons.mp hu with heq | hu
        · cases heq
          exact hfirst.known.kept hgrows.retains
        · exact hknown u i hu
      · rcases List.mem_cons.mp hp with heq | hp
        · cases heq
        · exact hreported problem hp
    | report problem =>
      have hreport := proceeds_report h (problem s.diagnostics.length)
      have hgrows := (answers_run hgive steps finish hreport.sound).proceeds.grows
      obtain ⟨hrest, hknown, hreported⟩ := ih hreport.sound (hthorough.record _)
      refine ⟨hrest, hknown, fun problem' hp => ?_⟩
      rcases List.mem_cons.mp hp with heq | hp
      · cases heq
        exact ⟨s.diagnostics.length, (recorded_record s _).kept hgrows.retains⟩
      · exact hreported problem' hp

/-- The plans of a type have been carried out, as far as they go. What is left is to put on record
that they come to no routine, if they do not. -/
structure Inspects (setting : Setting) (t : Ty)
    (r : String × Except Problem (Routine × Routine) × Session) : Prop where
  thorough : Thorough setting r.2.2
  explored : ∀ s, Retains r.2.2 s → (∀ problem, r.2.1 = .error problem → s.Recorded problem) →
    Explored setting s t

/-- The plan for writing shows all that a type asks for and reports. -/
theorem inspects_writer
    (hgive : ∀ t isIndirect s, Sound setting s → Gives setting s t (give t isIndirect s))
    (hvisits : ∀ t isIndirect s, Sound setting s → Thorough setting s →
      Visits setting t (give t isIndirect s).2)
    {p : Provider} (hselect : setting.select t = .ok (.provider p)) (h : Sound setting s)
    (hthorough : Thorough setting s) {edges : List Edge} {s₁ : Session}
    (hwritten : run give (p.writer t setting.catalog).steps s = (edges, s₁)) :
    Thorough setting s₁ ∧ ∀ s', Retains s₁ s' →
      (∀ problem, (p.writer t setting.catalog).finish edges = .error problem →
        s'.Recorded problem) → Explored setting s' t := by
  have hanswers := answers_blueprint hgive (p.writer t setting.catalog) h
  obtain ⟨hthorough₁, hknown, hreported⟩ :=
    thorough_run hgive hvisits (p.writer t setting.catalog) h hthorough
  rw [hwritten] at hanswers hthorough₁ hknown hreported
  refine ⟨hthorough₁, fun s' hretains hfinish => ?_⟩
  exact .planned hselect
    ⟨fun u i hu => (hknown u i hu).kept hretains,
      fun problem hp => (hreported problem hp).imp fun _ hn => hn.kept hretains,
      ⟨_, hanswers.types, hfinish⟩⟩

theorem inspects_routines
    (hgive : ∀ t isIndirect s, Sound setting s → Gives setting s t (give t isIndirect s))
    (hvisits : ∀ t isIndirect s, Sound setting s → Thorough setting s →
      Visits setting t (give t isIndirect s).2)
    {emitter : Emitter} (hselect : setting.select t = .ok emitter) (h : Sound setting s)
    (hthorough : Thorough setting s) :
    Inspects setting t (s.routines setting give t emitter) := by
  have hplanned := planned_routines setting give t s emitter
  generalize s.routines setting give t emitter = r at hplanned ⊢
  cases hplanned with
  | wrapped inner =>
    have hinner := hvisits inner true s h hthorough
    exact ⟨hinner.thorough, fun s' hretains _ => .wrapped hselect (hinner.known.kept hretains)⟩
  | unwritten p hwritten hwriter =>
    obtain ⟨hthorough₁, hcarried⟩ := inspects_writer hgive hvisits hselect h hthorough hwritten
    refine ⟨hthorough₁, fun s' hretains hrecorded => hcarried s' hretains fun problem herror => ?_⟩
    cases hwriter.symm.trans herror
    exact hrecorded _ rfl
  | unread p hwritten hwriter hread | planned p hwritten hwriter hread =>
    obtain ⟨hthorough₁, hcarried⟩ := inspects_writer hgive hvisits hselect h hthorough hwritten
    have hsound := (answers_of_run hgive h hwritten).proceeds.sound
    have hgrows := (answers_of_run hgive hsound hread).proceeds.grows
    have hlast := (thorough_run hgive hvisits (p.reader t setting.catalog) hsound hthorough₁).1
    rw [hread] at hlast
    refine ⟨hlast, fun s' hretains _ => ?_⟩
    refine hcarried s' (hgrows.retains.trans hretains) fun problem' herror => ?_
    cases hwriter.symm.trans herror

end

theorem visits_close {name : String} {outcome : Except Problem (Routine × Routine)} {before : Nat}
    (h : Inspects setting t (name, outcome, s)) :
    Visits setting t (s.close t name outcome before).2 := by
  obtain ⟨hthorough, hexplored⟩ := h
  have hsettled : ∀ s₁ e, Thorough setting s₁ → Retains s s₁ →
      (∀ problem, outcome = .error problem → s₁.Recorded problem) →
      Visits setting t (s₁.enter t e) := by
    intro s₁ e hthorough₁ hretains hrecorded
    have hkept := retains_enter s₁ t e
    have hsettled := hexplored _ (hretains.trans hkept) fun problem herror =>
      (hrecorded problem herror).kept hkept
    refine ⟨hthorough₁.settle hsettled, .inr ?_⟩
    rw [entry?_enter_self]
    exact Option.some_ne_none _
  have hended := ended_close s t name outcome before
  generalize s.close t name outcome before = r at hended ⊢
  cases hended with
  | failed problem =>
    have hreport := recorded_record s ⟨s.chain, problem⟩
    refine hsettled (s.report problem).pop .failed ((hthorough.record _).of_eq rfl rfl)
      ((grows_report s problem).retains.trans (.of_eq rfl rfl)) fun problem' herror => ?_
    cases herror
    exact hreport
  | finished =>
    have hfinished := hsettled s.pop .finished (hthorough.of_eq rfl rfl) (.of_eq rfl rfl) nofun
    exact ⟨hfinished.thorough.of_eq rfl rfl, hfinished.known.kept (.of_eq rfl rfl)⟩
  | abandoned => exact hsettled s.pop .failed (hthorough.of_eq rfl rfl) (.of_eq rfl rfl) nofun

/-- The induction over the depth of a session: whatever room is left, a new type has been looked at
in full in the end. -/
theorem visits_compile (room : Nat) (t : Ty) (isIndirect : Bool) (s : Session)
    (h : Sound setting s) (hthorough : Thorough setting s) (hnew : s.entry? t = none)
    (hlibrary : setting.library.contains t = false) :
    Visits setting t (compile setting room t isIndirect s).2 := by
  induction room generalizing t isIndirect s with
  | zero => exact visits_failed hthorough (.inl ⟨t, setting.maxDepth, recorded_record s _⟩)
  | succ room ih =>
    simp only [compile]
    split
    · rename_i problem hselect
      exact visits_failed hthorough (.inr hselect)
    · rename_i emitter hselect
      have hgive : ∀ t isIndirect s, Sound setting s →
          Gives setting s t (edge setting (compile setting room) t isIndirect s) :=
        fun t isIndirect s hs => gives_edge (compiles_compile room) t isIndirect hs
      exact visits_close (inspects_routines hgive
        (fun t isIndirect s hs hthorough => visits_edge ih t isIndirect hs hthorough) hselect
        (sound_start h hnew hlibrary) (hthorough.start t _))

end SchemaPack.Compile.Session

namespace SchemaPack.Compile

/-- In a session that does not meet its limit of depth, the requested type and every other type that
is met has been looked at in full by the end. -/
theorem explored_session {setting : Setting} {type : Ty}
    (hlibrary : setting.library.contains type = false)
    (hlimit : ¬ (session setting type).2.Limited) :
    Session.Known setting (session setting type).2 type ∧
      ∀ t, Session.entry? (session setting type).2 t ≠ none →
        Session.Explored setting (session setting type).2 t := by
  have hvisits := Session.visits_compile setting.maxDepth type false {}
    (Session.sound_empty setting) (.inr nofun) rfl hlibrary
  change Session.Visits setting type (session setting type).2 at hvisits
  refine ⟨hvisits.known, fun t ht => ?_⟩
  obtain ⟨e, he⟩ := Option.ne_none_iff_exists'.mp ht
  refine (hvisits.thorough.resolve_left hlimit) t e he ?_
  rintro rfl
  exact session_ne_compiling hlibrary t he

end SchemaPack.Compile
