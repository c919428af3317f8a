import SchemaPack.Compile.Session

/-!
What a step of a compile session can come to, and what every step leaves as it was. A session only
grows: what it knows of a type it goes on knowing, finished codecs and problems stay, and a type
that has been compiled has left the stack as it found it. A problem once put on record shows at the
end.
-/
namespace SchemaPack.Compile.Session

variable {setting : Setting} {s s' s'' : Session} {t u : Ty} {e : Entry}

/-! ## What a step comes to -/

/-- What an edge comes to. What is known of the type decides, and a new type is compiled. -/
inductive Answered (setting : Setting) (compile : Ty → Bool → Session → Bool × Session) (t : Ty)
    (isIndirect : Bool) (s : Session) : Edge × Session → Prop
  | published (hpublished : setting.library.contains t = true) :
      Answered setting compile t isIndirect s (⟨t, .ready⟩, s)
  | finished (hlibrary : setting.library.contains t = false)
      (hentry : s.entry? t = some .finished) :
      Answered setting compile t isIndirect s (⟨t, .ready⟩, s)
  | failed (hlibrary : setting.library.contains t = false) (hentry : s.entry? t = some .failed) :
      Answered setting compile t isIndirect s (⟨t, .poisoned⟩, s)
  | reentered (hlibrary : setting.library.contains t = false)
      (hentry : s.entry? t = some .compiling) :
      Answered setting compile t isIndirect s (s.reenter t isIndirect)
  | compiled (hlibrary : setting.library.contains t = false) (hnew : s.entry? t = none) :
      Answered setting compile t isIndirect s
        (⟨t, if (compile t isIndirect s).1 then .ready else .poisoned⟩, (compile t isIndirect s).2)

theorem edge_of_new {compile : Ty → Bool → Session → Bool × Session}
    (hlibrary : setting.library.contains t = false) (hnew : s.entry? t = none)
    (isIndirect : Bool) :
    edge setting compile t isIndirect s =
      (⟨t, if (compile t isIndirect s).1 then .ready else .poisoned⟩,
        (compile t isIndirect s).2) := by
  simp only [edge, hlibrary, hnew, Bool.false_eq_true, if_false]
  rcases compile t isIndirect s with ⟨done, s₁⟩
  cases done with
  | true | false => rfl

theorem answered_edge (setting : Setting) (compile : Ty → Bool → Session → Bool × Session) (t : Ty)
    (isIndirect : Bool) (s : Session) :
    Answered setting compile t isIndirect s (edge setting compile t isIndirect s) := by
  cases hlibrary : setting.library.contains t with
  | true =>
    rw [edge, if_pos hlibrary]
    exact .published hlibrary
  | false =>
    cases hentry : s.entry? t with
    | none =>
      rw [edge_of_new hlibrary hentry]
      exact .compiled hlibrary hentry
    | some e =>
      simp only [edge, hlibrary, hentry, Bool.false_eq_true, if_false]
      cases e with
      | compiling => exact .reentered hlibrary hentry
      | finished => exact .finished hlibrary hentry
      | failed => exact .failed hlibrary hentry

/-- What the two routines of a type come to. A wrapper for null has one edge. The two plans of a
provider are carried out one after the other, unless the first comes to no routine. -/
inductive Planned (setting : Setting) (give : Ty → Bool → Session → Edge × Session) (t : Ty)
    (s : Session) : Emitter → String × Except Problem (Routine × Routine) × Session → Prop
  | wrapped (inner : Ty) :
      Planned setting give t s (.nullWrapper inner) (nullWrapperName,
        .ok (.nullable (give inner true s).1, .nullable (give inner true s).1),
        (give inner true s).2)
  | unwritten (p : Provider) {problem : Problem} {edges : List Edge} {s₁ : Session}
      (hwritten : run give (p.writer t setting.catalog).steps s = (edges, s₁))
      (hwriter : (p.writer t setting.catalog).finish edges = .error problem) :
      Planned setting give t s (.provider p) (p.name, .error problem, s₁)
  | unread (p : Provider) {writer : Routine} {problem : Problem} {edges edges' : List Edge}
      {s₁ s₂ : Session} (hwritten : run give (p.writer t setting.catalog).steps s = (edges, s₁))
      (hwriter : (p.writer t setting.catalog).finish edges = .ok writer)
      (hread : run give (p.reader t setting.catalog).steps s₁ = (edges', s₂))
      (hreader : (p.reader t setting.catalog).finish edges' = .error problem) :
      Planned setting give t s (.provider p) (p.name, .error problem, s₂)
  | planned (p : Provider) {writer reader : Routine} {edges edges' : List Edge}
      {s₁ s₂ : Session} (hwritten : run give (p.writer t setting.catalog).steps s = (edges, s₁))
      (hwriter : (p.writer t setting.catalog).finish edges = .ok writer)
      (hread : run give (p.reader t setting.catalog).steps s₁ = (edges', s₂))
      (hreader : (p.reader t setting.catalog).finish edges' = .ok reader) :
      Planned setting give t s (.provider p) (p.name, .ok (writer, reader), s₂)

theorem planned_routines (setting : Setting) (give : Ty → Bool → Session → Edge × Session)
    (t : Ty) (s : Session) (emitter : Emitter) :
    Planned setting give t s emitter (s.routines setting give t emitter) := by
  cases emitter with
  | nullWrapper inner => exact .wrapped inner
  | provider p =>
    rcases hwritten : run give (p.writer t setting.catalog).steps s with ⟨edges, s₁⟩
    rcases hread : run give (p.reader t setting.catalog).steps s₁ with ⟨edges', s₂⟩
    simp only [routines, runBlueprint, hwritten]
    cases hwriter : (p.writer t setting.catalog).finish edges with
    | error problem => exact .unwritten p hwritten hwriter
    | ok writer =>
      simp only [hread]
      cases hreader : (p.reader t setting.catalog).finish edges' with
      | error problem => exact .unread p hwritten hwriter hread hreader
      | ok reader => exact .planned p hwritten hwriter hread hreader

/-- How the work on a type ends. -/
inductive Ended (t : Ty) (name : String) (before : Nat) (s : Session) :
    Except Problem (Routine × Routine) → Bool × Session → Prop
  | failed (problem : Problem) :
      Ended t name before s (.error problem) (false, (s.report problem).pop.fail t)
  | finished {writer reader : Routine} (hbefore : s.diagnostics.length = before) :
      Ended t name before s (.ok (writer, reader))
        (true, s.pop.finish ⟨t, name, writer, reader⟩)
  | abandoned {writer reader : Routine} (hsince : s.diagnostics.length ≠ before) :
      Ended t name before s (.ok (writer, reader)) (false, s.pop.fail t)

theorem ended_close (s : Session) (t : Ty) (name : String)
    (outcome : Except Problem (Routine × Routine)) (before : Nat) :
    Ended t name before s outcome (s.close t name outcome before) := by
  rcases outcome with problem | ⟨writer, reader⟩
  · exact .failed problem
  · simp only [close]
    split
    · rename_i hbefore
      exact .finished hbefore
    · rename_i hsince
      exact .abandoned hsince

/-! ## What a session keeps -/

theorem entry?_empty (t : Ty) : entry? {} t = none := rfl

theorem entry?_enter_self (s : Session) (t : Ty) (e : Entry) :
    entry? (s.enter t e) t = some e := by
  simp [enter, entry?]

theorem entry?_enter_of_ne (h : u ≠ t) : entry? (s.enter t e) u = s.entry? u := by
  have hne : (t == u) = false := beq_eq_false_iff_ne.mpr h.symm
  simp [enter, entry?, hne]

theorem record_eq (s : Session) (d : Diagnostic) :
    ∃ diagnostics, s.record d = { s with diagnostics } ∧
      s.diagnostics <+: diagnostics ∧ diagnostics ≠ [] := by
  unfold record
  split
  · rename_i h
    refine ⟨s.diagnostics, rfl, List.prefix_rfl, ?_⟩
    intro hnil
    simp [hnil] at h
  · exact ⟨s.diagnostics ++ [d], rfl, List.prefix_append .., by simp⟩

theorem entries_record (s : Session) (d : Diagnostic) : (s.record d).entries = s.entries := by
  obtain ⟨diagnostics, heq, -⟩ := record_eq s d
  rw [heq]

theorem entry?_record (s : Session) (d : Diagnostic) (t : Ty) :
    entry? (s.record d) t = s.entry? t := by
  rw [ entry?, entry?, entries_record]

/-- The later session knows all that the earlier one knew and has the same types on its stack. -/
structure Grows (s s' : Session) : Prop where
  stack : s'.stack = s.stack
  entry : ∀ {t e}, s.entry? t = some e → s'.entry? t = some e
  finished : s.finished <+: s'.finished
  diagnostics : s.diagnostics <+: s'.diagnostics

theorem Grows.refl (s : Session) : Grows s s :=
  ⟨rfl, id, List.prefix_rfl, List.prefix_rfl⟩

theorem Grows.trans (h : Grows s s') (h' : Grows s' s'') : Grows s s'' :=
  ⟨h'.stack.trans h.stack, fun he => h'.entry (h.entry he), h.finished.trans h'.finished,
    h.diagnostics.trans h'.diagnostics⟩

theorem Grows.quiet (h : Grows s s') (hnil : s'.diagnostics = []) : s.diagnostics = [] := by
  have hprefix := h.diagnostics
  rw [hnil] at hprefix
  exact List.prefix_nil.mp hprefix

theorem Grows.diagnostics_ne_nil (h : Grows s s') (hne : s.diagnostics ≠ []) :
    s'.diagnostics ≠ [] := mt h.quiet hne

theorem Grows.ne_nil_of_length_ne (h : Grows s s')
    (hsince : s'.diagnostics.length ≠ s.diagnostics.length) : s'.diagnostics ≠ [] := by
  intro hnil
  rw [hnil, h.quiet hnil] at hsince
  exact hsince rfl

theorem Grows.mem_finished (h : Grows s s') {c : CompiledCodec} (hc : c ∈ s.finished) :
    c ∈ s'.finished := h.finished.subset hc

theorem grows_record (s : Session) (d : Diagnostic) : Grows s (s.record d) := by
  obtain ⟨diagnostics, heq, hprefix, -⟩ := record_eq s d
  rw [heq]
  exact ⟨rfl, id, List.prefix_rfl, hprefix⟩

theorem record_diagnostics_ne_nil (s : Session) (d : Diagnostic) :
    (s.record d).diagnostics ≠ [] := by
  obtain ⟨diagnostics, heq, -, hne⟩ := record_eq s d
  rw [heq]
  exact hne

theorem grows_report (s : Session) (p : Problem) : Grows s (s.report p) := grows_record s _

theorem grows_reportNested (s : Session) (t : Ty) (p : Problem) : Grows s (s.reportNested t p) :=
  grows_record s _

/-- A type met for the first time gets its entry. -/
theorem grows_enter (h : s.entry? t = none) (e : Entry) : Grows s (s.enter t e) := by
  refine ⟨rfl, ?_, List.prefix_rfl, List.prefix_rfl⟩
  intro u e' hu
  have hne : u ≠ t := by
    rintro rfl
    rw [h] at hu
    cases hu
  rw [entry?_enter_of_ne hne]
  exact hu

/-- The work on a type, from its frame being pushed to its frame being popped. -/
theorem grows_frame {f : Frame} {e e' : Entry} {s₁ : Session} (h : s.entry? t = none)
    (hgrows : Grows ((s.enter t e').push f) s₁) : Grows s (s₁.pop.enter t e) := by
  refine ⟨?_, ?_, hgrows.finished, hgrows.diagnostics⟩
  · show s₁.stack.tail = s.stack
    rw [hgrows.stack]
    rfl
  · intro u e'' hu
    have hne : u ≠ t := by
      rintro rfl
      rw [h] at hu
      cases hu
    have hkept : entry? ((s.enter t e').push f) u = some e'' :=
      (entry?_enter_of_ne (s := s) hne).trans hu
    rw [entry?_enter_of_ne hne]
    exact hgrows.entry hkept

end SchemaPack.Compile.Session
