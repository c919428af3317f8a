import SchemaPack.Proofs.Session.Steps

/-!
Sessions that find codecs and sessions that find none. Take a library that holds with every type all
that the type asks for. A session without it that meets no problem is mirrored by the session with
it: both give the same edges and know the same of the types outside the library; where the one has
to compile a type of the library the other only takes an edge to it.
-/
namespace SchemaPack.Compile

/-- The same setting with nothing published. -/
def Setting.bare (setting : Setting) : Setting := { setting with library := {} }

/-- With every type the library holds all that the type asks for. -/
def Setting.Closed (setting : Setting) : Prop :=
  ∀ t u isIndirect, setting.library.contains t = true → setting.Requests t u isIndirect →
    setting.library.contains u = true

variable {setting : Setting}

theorem Setting.bare_contains (setting : Setting) (t : Ty) :
    setting.bare.library.contains t = false := rfl

/-- What a type asks for does not depend on what is published. -/
theorem Setting.Requests.of_bare {t u : Ty} {isIndirect : Bool}
    (h : setting.bare.Requests t u isIndirect) : setting.Requests t u isIndirect := by
  cases h with
  | inner hselect => exact .inner hselect
  | written hselect h => exact .written hselect h
  | read hselect h => exact .read hselect h

namespace Session

variable {s s' : Session}

/-- A session without problems at the end had none before. -/
theorem entry?_enter_congr {t u : Ty} (h : s'.entry? u = s.entry? u) (e : Entry) :
    entry? (s'.enter t e) u = entry? (s.enter t e) u := by
  by_cases hut : u = t
  · rw [hut, entry?_enter_self, entry?_enter_self]
  · rw [entry?_enter_of_ne hut, entry?_enter_of_ne hut, h]

theorem record_stack (s : Session) (d : Diagnostic) : (s.record d).stack = s.stack :=
  (grows_record s d).stack

theorem pop_record (s : Session) (d : Diagnostic) : (s.record d).pop = s.pop.record d :=
  apply_ite pop _ _ _

/-! ## Types of the library compiled anew -/

/-- What a session still has in common with the one where a type of the library was begun: the
frames there were then and all that is known of types outside the library. -/
structure Keeps (setting : Setting) (s s' : Session) : Prop where
  stack : ∃ inner, s'.stack = inner ++ s.stack ∧
    ∀ f ∈ inner, setting.library.contains f.type = true
  entry : ∀ t, setting.library.contains t = false → s'.entry? t = s.entry? t

theorem Keeps.record (h : Keeps setting s s') (d : Diagnostic) :
    Keeps setting s (s'.record d) where
  stack := by
    rw [record_stack]
    exact h.stack
  entry t ht := by
    rw [entry?_record]
    exact h.entry t ht

theorem Keeps.enter (h : Keeps setting s s') {t : Ty} (ht : setting.library.contains t = true)
    (e : Entry) : Keeps setting s (s'.enter t e) where
  stack := h.stack
  entry u hu := by
    have hne : u ≠ t := by
      rintro rfl
      rw [ht] at hu
      cases hu
    rw [entry?_enter_of_ne hne]
    exact h.entry u hu

theorem Keeps.push (h : Keeps setting s s') {f : Frame}
    (hf : setting.library.contains f.type = true) : Keeps setting s (s'.push f) where
  stack := by
    obtain ⟨inner, hstack, hinner⟩ := h.stack
    refine ⟨f :: inner, congrArg (f :: ·) hstack, ?_⟩
    intro g hg
    rcases List.mem_cons.mp hg with rfl | hg
    · exact hf
    · exact hinner g hg
  entry := h.entry

/-- The innermost frame was pushed since, so it is one of a type of the library. -/
theorem Keeps.works {r : Stretch} (h : Keeps setting s s') (hbase : r.base = s.stack) {f : Frame}
    (hworks : r.Works s' f) :
    setting.library.contains f.type = true ∧ Keeps setting s s'.pop := by
  obtain ⟨rest, hrest, hlength⟩ := hworks
  obtain ⟨inner, hstack, hinner⟩ := h.stack
  rw [hbase] at hlength
  cases inner with
  | nil =>
    have hcons := congrArg List.length (hrest.symm.trans hstack)
    simp only [List.length_cons, List.nil_append] at hcons
    omega
  | cons g inner =>
    obtain ⟨rfl, -⟩ := List.cons.inj (hrest.symm.trans hstack)
    refine ⟨hinner f List.mem_cons_self, ⟨inner, ?_, ?_⟩, h.entry⟩
    · show s'.stack.tail = inner ++ s.stack
      rw [hstack]
      rfl
    · exact fun g hg => hinner g (List.mem_cons_of_mem _ hg)

theorem Keeps.due {r : Stretch} (h : Keeps setting s s') (hclosed : setting.Closed)
    (hbase : r.base = s.stack) (hroot : setting.library.contains r.root.type = true) {t : Ty}
    {isIndirect : Bool} (hdue : r.Due setting.bare s' t isIndirect) :
    setting.library.contains t = true := by
  cases hdue with
  | root => exact hroot
  | requested hworks hrequests =>
    exact hclosed _ _ _ (h.works hbase hworks).1 hrequests.of_bare

theorem Keeps.moves {r : Stretch} {s₁ : Session} (h : Keeps setting s s') (hclosed : setting.Closed)
    (hbase : r.base = s.stack) (hroot : setting.library.contains r.root.type = true)
    (hmove : r.Moves setting.bare s' s₁) : Keeps setting s s₁ := by
  cases hmove with
  | limit hnew | reject hnew =>
    exact (h.record _).enter (h.due hclosed hbase hroot hnew.due) _
  | start hnew =>
    have ht := h.due hclosed hbase hroot hnew.due
    exact (h.enter ht _).push ht
  | @reenter t isIndirect hdue =>
    simp only [reenter]
    split
    · exact ⟨h.stack, h.entry⟩
    · exact h.record _
  | report => exact h.record _
  | fail hworks =>
    obtain ⟨hf, hpop⟩ := h.works hbase hworks
    rw [report, pop_record]
    exact (hpop.record _).enter hf _
  | abandon hworks =>
    obtain ⟨hf, hpop⟩ := h.works hbase hworks
    exact hpop.enter hf _
  | finish hworks htype =>
    obtain ⟨hf, hpop⟩ := h.works hbase hworks
    rw [← htype] at hf
    have hentered := hpop.enter hf .finished
    exact ⟨hentered.stack, hentered.entry⟩

/-- Compiling a type of the library changes nothing but types of the library. -/
theorem keeps_compile (hclosed : setting.Closed) (room : Nat) {t : Ty} (isIndirect : Bool)
    (h : Sound setting.bare s) (hnew : s.entry? t = none)
    (ht : setting.library.contains t = true) :
    Keeps setting s (compile setting.bare room t isIndirect s).2 := by
  have hruns := runs_compile room t isIndirect s h hnew (setting.bare_contains t)
  refine hruns.invariant (fun s₁ s₂ hkeeps hmove => hkeeps.moves hclosed rfl ht hmove) ?_
  exact ⟨⟨[], rfl, nofun⟩, fun _ _ => rfl⟩

/-! ## The mirror -/

/-- A session without the library and one with it, at the same point and with no problem so far. -/
structure Mirrors (setting : Setting) (s s' : Session) : Prop where
  bareSound : Sound setting.bare s
  sound : Sound setting s'
  stack : s'.stack = s.stack
  entry : ∀ t, setting.library.contains t = false → s'.entry? t = s.entry? t
  bareQuiet : s.diagnostics = []
  quiet : s'.diagnostics = []

theorem Mirrors.compiling (h : Mirrors setting s s') {t : Ty} (ht : s.entry? t = some .compiling) :
    setting.library.contains t = false := by
  have hstacked := (h.bareSound.compiling_iff t).mp ht
  rw [← h.stack] at hstacked
  exact h.sound.unpublished t _ ((h.sound.compiling_iff t).mpr hstacked)

theorem Mirrors.not_failed (h : Mirrors setting s s') {t : Ty} : s.entry? t ≠ some .failed :=
  fun ht => h.bareSound.failed t ht h.bareQuiet

def MirrorsCompile (setting : Setting) (room : Nat) : Prop :=
  ∀ t isIndirect s s', Mirrors setting s s' → s.entry? t = none →
    setting.library.contains t = false →
    (compile setting.bare room t isIndirect s).2.diagnostics = [] →
    Mirrors setting (compile setting.bare room t isIndirect s).2
      (compile setting room t isIndirect s').2

theorem mirrors_reenter (h : Mirrors setting s s') {t : Ty}
    (hcompiling : s.entry? t = some .compiling) (isIndirect : Bool)
    (hquiet : (s.reenter t isIndirect).2.diagnostics = []) :
    (s'.reenter t isIndirect).1 = (s.reenter t isIndirect).1 ∧
      Mirrors setting (s.reenter t isIndirect).2 (s'.reenter t isIndirect).2 := by
  have hbare := gives_reenter h.bareSound hcompiling isIndirect
  have hcompiling' : s'.entry? t = some .compiling :=
    (h.entry t (h.compiling hcompiling)).trans hcompiling
  have hgives := gives_reenter h.sound hcompiling' isIndirect
  have hinside : s'.framesInside t = s.framesInside t := by
    rw [framesInside, framesInside, h.stack]
  simp only [reenter, hinside] at hquiet hbare hgives ⊢
  split at hquiet
  · rename_i hindirect
    simp only [if_pos hindirect] at hbare hgives ⊢
    exact ⟨trivial, hbare.proceeds.sound, hgives.proceeds.sound, h.stack, h.entry, h.bareQuiet,
      h.quiet⟩
  · exact absurd hquiet (record_diagnostics_ne_nil s _)

theorem mirrors_edge (hclosed : setting.Closed) {room : Nat}
    (hcompile : MirrorsCompile setting room) (h : Mirrors setting s s') (t : Ty) (isIndirect : Bool)
    (hquiet : (edge setting.bare (compile setting.bare room) t isIndirect s).2.diagnostics = []) :
    (edge setting (compile setting room) t isIndirect s').1 =
        (edge setting.bare (compile setting.bare room) t isIndirect s).1 ∧
      Mirrors setting (edge setting.bare (compile setting.bare room) t isIndirect s).2
        (edge setting (compile setting room) t isIndirect s').2 := by
  have hbare := setting.bare_contains t
  cases hentry : s.entry? t with
  | none =>
    rw [edge_of_new hbare hentry] at hquiet ⊢
    have hcompiled := compiles_compile room t isIndirect s h.bareSound hentry hbare
    simp only [hcompiled.finished hquiet, if_true]
    cases hpublished : setting.library.contains t with
    | true =>
      have hkeeps := keeps_compile hclosed room isIndirect h.bareSound hentry hpublished
      have hedge : edge setting (compile setting room) t isIndirect s' = (⟨t, .ready⟩, s') := by
        rw [edge, if_pos hpublished]
      rw [hedge]
      refine ⟨rfl, hcompiled.proceeds.sound, h.sound, ?_, ?_, hquiet, h.quiet⟩
      · exact h.stack.trans hcompiled.proceeds.grows.stack.symm
      · exact fun u hu => (h.entry u hu).trans (hkeeps.entry u hu).symm
    | false =>
      have hentry' := (h.entry t hpublished).trans hentry
      have hmirrors := hcompile t isIndirect s s' h hentry hpublished hquiet
      have hcompiled' := compiles_compile room t isIndirect s' h.sound hentry' hpublished
      rw [edge_of_new hpublished hentry']
      simp only [hcompiled'.finished hmirrors.quiet, if_true]
      exact ⟨trivial, hmirrors⟩
  | some e =>
    unfold edge at hquiet ⊢
    simp only [hbare, hentry, Bool.false_eq_true, if_false] at hquiet ⊢
    cases hpublished : setting.library.contains t with
    | true =>
      rw [if_pos rfl]
      cases e with
      | finished => exact ⟨rfl, h⟩
      | failed => exact absurd hentry h.not_failed
      | compiling =>
        rw [h.compiling hentry] at hpublished
        cases hpublished
    | false =>
      rw [if_neg Bool.false_ne_true, h.entry t hpublished, hentry]
      cases e with
      | finished => exact ⟨rfl, h⟩
      | failed => exact absurd hentry h.not_failed
      | compiling => exact mirrors_reenter h hentry isIndirect hquiet

section Plans

variable {bare give : Ty → Bool → Session → Edge × Session}

/-- The steps of a plan give the same edges, if every single edge is the same. -/
theorem mirrors_run
    (hbare : ∀ t isIndirect s, Sound setting.bare s →
      Gives setting.bare s t (bare t isIndirect s))
    (hgive : ∀ t isIndirect s s', Mirrors setting s s' →
      (bare t isIndirect s).2.diagnostics = [] →
      (give t isIndirect s').1 = (bare t isIndirect s).1 ∧
        Mirrors setting (bare t isIndirect s).2 (give t isIndirect s').2)
    (b : Blueprint) (h : Mirrors setting s s')
    (hquiet : (run bare b.steps s).2.diagnostics = []) :
    (run give b.steps s').1 = (run bare b.steps s).1 ∧
      Mirrors setting (run bare b.steps s).2 (run give b.steps s').2 := by
  obtain ⟨steps, finish⟩ := b
  induction steps generalizing s s' with
  | nil => exact ⟨rfl, h⟩
  | cons step rest ih =>
    cases step with
    | request t isIndirect =>
      have hsound := (hbare t isIndirect s h.bareSound).proceeds.sound
      have hrest := answers_run hbare rest finish hsound
      have hfirst := hrest.proceeds.grows.quiet hquiet
      obtain ⟨hedge, hmirrors⟩ := hgive t isIndirect s s' h hfirst
      obtain ⟨hedges, hmirrors⟩ := ih hmirrors hquiet
      refine ⟨?_, hmirrors⟩
      show (give t isIndirect s').1 :: _ = (bare t isIndirect s).1 :: _
      rw [hedge, hedges]
    | report problem =>
      have hreport := proceeds_report h.bareSound (problem s.diagnostics.length)
      have hrest := answers_run hbare rest finish hreport.sound
      exact absurd hquiet
        (hrest.proceeds.grows.diagnostics_ne_nil (record_diagnostics_ne_nil s _))

/-- The two plans of a provider, carried out one after the other. -/
theorem routines_provider (setting : Setting) (t : Ty) (p : Provider) (s : Session) :
    s.routines setting give t (.provider p) =
      match (p.writer t setting.catalog).finish
        (run give (p.writer t setting.catalog).steps s).1 with
      | .error problem =>
        (p.name, .error problem, (run give (p.writer t setting.catalog).steps s).2)
      | .ok writer =>
        match (p.reader t setting.catalog).finish (run give (p.reader t setting.catalog).steps
          (run give (p.writer t setting.catalog).steps s).2).1 with
        | .error problem =>
          (p.name, .error problem, (run give (p.reader t setting.catalog).steps
            (run give (p.writer t setting.catalog).steps s).2).2)
        | .ok reader =>
          (p.name, .ok (writer, reader), (run give (p.reader t setting.catalog).steps
            (run give (p.writer t setting.catalog).steps s).2).2) := by
  simp only [routines, runBlueprint]
  cases (p.writer t setting.catalog).finish
    (run give (p.writer t setting.catalog).steps s).1 with
  | error problem => rfl
  | ok writer =>
    simp only
    cases (p.reader t setting.catalog).finish (run give (p.reader t setting.catalog).steps
      (run give (p.writer t setting.catalog).steps s).2).1 with
    | error problem => rfl
    | ok reader => rfl

theorem mirrors_routines
    (hbare : ∀ t isIndirect s, Sound setting.bare s →
      Gives setting.bare s t (bare t isIndirect s))
    (hgive : ∀ t isIndirect s s', Mirrors setting s s' →
      (bare t isIndirect s).2.diagnostics = [] →
      (give t isIndirect s').1 = (bare t isIndirect s).1 ∧
        Mirrors setting (bare t isIndirect s).2 (give t isIndirect s').2)
    (t : Ty) (emitter : Emitter) (h : Mirrors setting s s')
    (hquiet : (s.routines setting.bare bare t emitter).2.2.diagnostics = []) :
    (s'.routines setting give t emitter).1 = (s.routines setting.bare bare t emitter).1 ∧
      (s'.routines setting give t emitter).2.1 = (s.routines setting.bare bare t emitter).2.1 ∧
      Mirrors setting (s.routines setting.bare bare t emitter).2.2
        (s'.routines setting give t emitter).2.2 := by
  cases emitter with
  | nullWrapper inner =>
    obtain ⟨hedge, hmirrors⟩ := hgive inner true s s' h hquiet
    refine ⟨rfl, ?_, hmirrors⟩
    show Except.ok (Routine.nullable (give inner true s').1, _) = Except.ok (_, _)
    rw [hedge]
  | provider p =>
    have hwriter := answers_blueprint hbare (p.writer t setting.catalog) h.bareSound
    have hreader := answers_blueprint hbare (p.reader t setting.catalog) hwriter.proceeds.sound
    have hwritten := mirrors_run hbare hgive (p.writer t setting.catalog) h
    rw [routines_provider setting.bare] at hquiet
    rw [routines_provider setting.bare, routines_provider setting]
    simp only [Setting.bare] at hquiet ⊢
    cases hfinish : (p.writer t setting.catalog).finish
      (run bare (p.writer t setting.catalog).steps s).1 with
    | error problem =>
      simp only [hfinish] at hquiet ⊢
      obtain ⟨hedges, hmirrors⟩ := hwritten hquiet
      simp only [hedges, hfinish]
      exact ⟨trivial, trivial, hmirrors⟩
    | ok writer =>
      simp only [hfinish] at hquiet ⊢
      have hlast : (run bare (p.reader t setting.catalog).steps
          (run bare (p.writer t setting.catalog).steps s).2).2.diagnostics = [] := by
        split at hquiet
        · exact hquiet
        · exact hquiet
      obtain ⟨hedges, hmirrors⟩ := hwritten (hreader.proceeds.grows.quiet hlast)
      obtain ⟨hedges', hmirrors'⟩ :=
        mirrors_run hbare hgive (p.reader t setting.catalog) hmirrors hlast
      simp only [hedges, hfinish, hedges']
      split
      · exact ⟨rfl, rfl, hmirrors'⟩
      · exact ⟨rfl, rfl, hmirrors'⟩

end Plans

/-- Ending the work on a type takes no problem back. -/
theorem quiet_of_close {t : Ty} {name : String} {outcome : Except Problem (Routine × Routine)}
    {before : Nat} (h : (s.close t name outcome before).2.diagnostics = []) :
    s.diagnostics = [] := by
  have hended := ended_close s t name outcome before
  generalize s.close t name outcome before = r at h hended
  cases hended with
  | failed problem => exact absurd h (record_diagnostics_ne_nil s _)
  | finished | abandoned => exact h

/-- The work on a type ends without a problem, so its codec is finished, the same one in both. -/
theorem mirrors_close (h : Mirrors setting s s') (t : Ty) (name : String)
    (outcome : Except Problem (Routine × Routine))
    (hquiet : (s.close t name outcome 0).2.diagnostics = []) :
    (s'.close t name outcome 0).2.stack = (s.close t name outcome 0).2.stack ∧
      (∀ u, setting.library.contains u = false →
        entry? (s'.close t name outcome 0).2 u = entry? (s.close t name outcome 0).2 u) ∧
      (s'.close t name outcome 0).2.diagnostics = [] := by
  cases outcome with
  | error problem => exact absurd hquiet (record_diagnostics_ne_nil s _)
  | ok routines =>
    have hlength : s.diagnostics.length = 0 := List.length_eq_zero_iff.mpr h.bareQuiet
    have hlength' : s'.diagnostics.length = 0 := List.length_eq_zero_iff.mpr h.quiet
    simp only [close, hlength, hlength', if_pos]
    exact ⟨congrArg List.tail h.stack, fun u hu => entry?_enter_congr (h.entry u hu) _, h.quiet⟩

/-- The sessions once the work on a type has begun. -/
theorem Mirrors.start (h : Mirrors setting s s') {t : Ty} (hnew : s.entry? t = none)
    (hlibrary : setting.library.contains t = false) (isIndirect : Bool) :
    Mirrors setting ((s.enter t .compiling).push ⟨t, isIndirect⟩)
      ((s'.enter t .compiling).push ⟨t, isIndirect⟩) where
  bareSound := sound_start h.bareSound hnew (setting.bare_contains t)
  sound := sound_start h.sound ((h.entry t hlibrary).trans hnew) hlibrary
  stack := congrArg (_ :: ·) h.stack
  entry u hu := entry?_enter_congr (h.entry u hu) _
  bareQuiet := h.bareQuiet
  quiet := h.quiet

/-- Compiling a type that is not rejected: its plans are carried out and the work on it ends. -/
theorem compile_selected {t : Ty} {emitter : Emitter} (hselect : setting.select t = .ok emitter)
    (room : Nat) (isIndirect : Bool) (s : Session)
    {r : String × Except Problem (Routine × Routine) × Session}
    (hr : ((s.enter t .compiling).push ⟨t, isIndirect⟩).routines setting
      (edge setting (compile setting room)) t emitter = r) :
    compile setting (room + 1) t isIndirect s =
      r.2.2.close t r.1 r.2.1 s.diagnostics.length := by
  simp only [compile, hselect, hr]
  rfl

/-- The induction over the depth of a session. -/
theorem mirrors_compile (hclosed : setting.Closed) (room : Nat) : MirrorsCompile setting room := by
  induction room with
  | zero =>
    intro t isIndirect s s' h hnew hlibrary hquiet
    exact absurd hquiet (record_diagnostics_ne_nil s _)
  | succ room ih =>
    intro t isIndirect s s' h hnew hlibrary hquiet
    cases hselect : setting.select t with
    | error problem =>
      have hselect' : setting.bare.select t = .error problem := hselect
      simp only [compile, hselect'] at hquiet
      exact absurd hquiet (record_diagnostics_ne_nil s _)
    | ok emitter =>
      have hselect' : setting.bare.select t = .ok emitter := hselect
      have hbare : ∀ t isIndirect s, Sound setting.bare s → Gives setting.bare s t
          (edge setting.bare (compile setting.bare room) t isIndirect s) :=
        fun t isIndirect s hs => gives_edge (compiles_compile room) t isIndirect hs
      have hplanned := mirrors_routines hbare
        (fun t isIndirect s s' hs hq => mirrors_edge hclosed ih hs t isIndirect hq) t emitter
        (h.start hnew hlibrary isIndirect)
      have hcompiled := compiles_compile (room + 1) t isIndirect s h.bareSound hnew
        (setting.bare_contains t)
      have hcompiled' := compiles_compile (room + 1) t isIndirect s' h.sound
        ((h.entry t hlibrary).trans hnew) hlibrary
      rw [compile_selected hselect' room isIndirect s rfl, h.bareQuiet] at hquiet hcompiled ⊢
      rw [compile_selected hselect room isIndirect s' rfl, h.quiet] at hcompiled' ⊢
      obtain ⟨hname, houtcome, hmirrors⟩ := hplanned (quiet_of_close hquiet)
      rw [hname, houtcome] at hcompiled' ⊢
      obtain ⟨hstack, hentry, hquiet'⟩ := mirrors_close hmirrors t _ _ hquiet
      exact ⟨hcompiled.proceeds.sound, hcompiled'.proceeds.sound, hstack, hentry, hquiet, hquiet'⟩

theorem mirrors_empty (setting : Setting) : Mirrors setting {} {} :=
  ⟨sound_empty setting.bare, sound_empty setting, rfl, fun _ _ => rfl, rfl, rfl⟩

end Session

/-- A session that succeeds with nothing published succeeds with the library too. -/
theorem outcome_of_bare (hclosed : setting.Closed) {type : Ty}
    (hlibrary : setting.library.contains type = false) {codecs : List CompiledCodec}
    (h : outcome type (session setting.bare type) = .ok codecs) :
    ∃ codecs', outcome type (session setting type) = .ok codecs' := by
  rw [outcome_eq (setting.bare_contains type)] at h
  split at h
  · rename_i hquiet
    have hmirrors := Session.mirrors_compile hclosed setting.maxDepth type false {} {}
      (Session.mirrors_empty setting) rfl hlibrary hquiet
    have hquiet' : (session setting type).2.diagnostics = [] := hmirrors.quiet
    exact ⟨_, (outcome_eq hlibrary).trans (if_pos hquiet')⟩
  · cases h

end SchemaPack.Compile
