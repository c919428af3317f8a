import SchemaPack.Proofs.Session.Requests
import SchemaPack.Proofs.Session.Run

/-!
The visits of a compile session, one for each time that it sets out to compile a type. Whatever the
registry, a type is visited once at most, when nothing is known of it, and the types on the stack
are all different. So a session has an end whatever its limit of depth: every visit makes one type
more known, out of those that compiling the root involves.
-/
namespace SchemaPack.Compile

/-- A type that a session sets out to compile, and the frames there are then. Its own frame is the
innermost, unless the type is refused at once. No frame is pushed but by a visit, so no stack is
higher than that of some visit. -/
structure Visit where
  type : Ty
  stack : List Frame
  deriving DecidableEq

namespace Session

/-! ## Visits in order -/

section

variable (setting : Setting) (give : Ty → Bool → Session → Edge × Session)
  (visit : Ty → Bool → Session → List Visit)

def stepVisits : List Step → Session → List Visit
  | [], _ => []
  | .request type isIndirect :: rest, s =>
    visit type isIndirect s ++ stepVisits rest (give type isIndirect s).2
  | .report problem :: rest, s => stepVisits rest (s.report (problem s.diagnostics.length))

/-- The visits while the two routines of a type are planned. The plan for reading is carried out
only if the one for writing comes to a routine. -/
def routineVisits (type : Ty) (emitter : Emitter) (s : Session) : List Visit :=
  match emitter with
  | .nullWrapper inner => visit inner true s
  | .provider p =>
    stepVisits give visit (p.writer type setting.catalog).steps s ++
      match runBlueprint give (p.writer type setting.catalog) s with
      | (.error _, _) => []
      | (.ok _, s) => stepVisits give visit (p.reader type setting.catalog).steps s

def edgeVisits (type : Ty) (isIndirect : Bool) (s : Session) : List Visit :=
  if setting.library.contains type then []
  else
    match s.entry? type with
    | some _ => []
    | none => visit type isIndirect s

end

def visits (setting : Setting) : (room : Nat) → Ty → Bool → Session → List Visit
  | 0, type, _, s => [⟨type, s.stack⟩]
  | room + 1, type, isIndirect, s =>
    match setting.select type with
    | .error _ => [⟨type, s.stack⟩]
    | .ok emitter =>
      let s := (s.enter type .compiling).push ⟨type, isIndirect⟩
      ⟨type, s.stack⟩ ::
        routineVisits setting (edge setting (compile setting room))
          (edgeVisits setting (visits setting room)) type emitter s

/-! ## The record of a type -/

/-- What has been entered for a type, the latest entry first. -/
def log (s : Session) (t : Ty) : List Entry := (s.entries.filter (·.1 == t)).map (·.2)

/-- All that is ever entered for a type: that it failed at once, or that the work on it began and
then how it ended. -/
inductive Settled : List Entry → Prop
  | refused : Settled [.failed]
  | worked {e : Entry} (h : e ≠ .compiling) : Settled [e, .compiling]

variable {setting : Setting} {s s' s'' : Session} {t u : Ty}

theorem Settled.ne_nil {entries : List Entry} (h : Settled entries) : entries ≠ [] := by
  cases h with
  | refused | worked => exact List.cons_ne_nil _ _

theorem log_eq_nil_iff : s.log t = [] ↔ s.entry? t = none := by
  rw [log, List.map_eq_nil_iff, List.filter_eq_nil_iff, entry?, Option.map_eq_none_iff,
    List.find?_eq_none]

theorem log_cons_self {e : Entry} (h : s'.entries = (t, e) :: s.entries) :
    s'.log t = e :: s.log t := by
  simp [log, h]

theorem log_cons_of_ne {e : Entry} (h : s'.entries = (t, e) :: s.entries) (hne : u ≠ t) :
    s'.log u = s.log u := by
  have hother : (t == u) = false := beq_eq_false_iff_ne.mpr hne.symm
  simp [log, h, hother]

theorem log_of_entries (h : s'.entries = s.entries) (t : Ty) : s'.log t = s.log t := by
  rw [log, log, h]

theorem entries_reenter (s : Session) (t : Ty) (isIndirect : Bool) :
    (s.reenter t isIndirect).2.entries = s.entries := by
  simp only [reenter]
  split
  · rfl
  · exact entries_record s _

/-- How the work on a type ended is the last that is entered for it. -/
theorem entries_close (s : Session) (t : Ty) (name : String)
    (outcome : Except Problem (Routine × Routine)) (before : Nat) :
    ∃ e, e ≠ .compiling ∧ (s.close t name outcome before).2.entries = (t, e) :: s.entries := by
  have hended := ended_close s t name outcome before
  generalize s.close t name outcome before = r at hended ⊢
  cases hended with
  | failed problem =>
    refine ⟨.failed, nofun, ?_⟩
    rw [← entries_record s ⟨s.chain, problem⟩]
    rfl
  | finished => exact ⟨.finished, nofun, rfl⟩
  | abandoned => exact ⟨.failed, nofun, rfl⟩

/-! ## What visits keep -/

/-- A visit to one of the given types, within the limit and with all frames apart. -/
structure Orderly (among : Ty → Prop) (limit : Nat) (v : Visit) : Prop where
  reached : among v.type
  room : v.stack.length ≤ limit
  apart : (v.stack.map (·.type)).Nodup

/-- The visits of a stretch of a session: no type is visited twice, each is entered in full from the
first to the last, and nothing is entered for any other. -/
structure VisitsOnce (among : Ty → Prop) (limit : Nat) (s s' : Session) (visited : List Visit) :
    Prop where
  once : (visited.map (·.type)).Nodup
  settled : ∀ v ∈ visited, s.log v.type = [] ∧ Settled (s'.log v.type)
  others : ∀ t, (∀ v ∈ visited, v.type ≠ t) → s'.log t = s.log t
  orderly : ∀ v ∈ visited, Orderly among limit v

variable {among : Ty → Prop} {limit : Nat}

theorem visitsOnce_nil (h : s'.entries = s.entries) : VisitsOnce among limit s s' [] where
  once := List.nodup_nil
  settled := nofun
  others t _ := log_of_entries h t
  orderly := nofun

theorem VisitsOnce.append {visited visited' : List Visit} (h : VisitsOnce among limit s s' visited)
    (h' : VisitsOnce among limit s' s'' visited') :
    VisitsOnce among limit s s'' (visited ++ visited') := by
  -- what one stretch has settled is not new in the next
  have happart : ∀ v ∈ visited, ∀ w ∈ visited', w.type ≠ v.type := by
    intro v hv w hw heq
    exact (h.settled v hv).2.ne_nil (heq ▸ (h'.settled w hw).1)
  refine ⟨?_, ?_, ?_, List.forall_mem_append.mpr ⟨h.orderly, h'.orderly⟩⟩
  · rw [List.map_append, List.nodup_append]
    refine ⟨h.once, h'.once, List.forall_mem_map.mpr fun v hv => List.forall_mem_map.mpr ?_⟩
    exact fun w hw => (happart v hv w hw).symm
  · refine List.forall_mem_append.mpr ⟨fun v hv => ?_, fun w hw => ?_⟩
    · rw [h'.others v.type (happart v hv)]
      exact h.settled v hv
    · rw [← h.others w.type fun v hv => (happart v hv w hw).symm]
      exact h'.settled w hw
  · intro t ht
    obtain ⟨hbefore, hafter⟩ := List.forall_mem_append.mp ht
    exact (h'.others t hafter).trans (h.others t hbefore)

/-! ## Through a session -/

section

variable {frames : List Frame} {compile : Ty → Bool → Session → Bool × Session}
  {visit : Ty → Bool → Session → List Visit}

theorem visitsOnce_edge
    (hcompile : ∀ t isIndirect s, Sound setting s → s.stack = frames → among t →
      s.entry? t = none → setting.library.contains t = false →
      VisitsOnce among limit s (compile t isIndirect s).2 (visit t isIndirect s))
    (t : Ty) (isIndirect : Bool) (s : Session) (h : Sound setting s) (hstack : s.stack = frames)
    (ht : among t) :
    VisitsOnce among limit s (edge setting compile t isIndirect s).2
      (edgeVisits setting visit t isIndirect s) := by
  have hknown : ∀ e, s.entry? t = some e → edgeVisits setting visit t isIndirect s = [] := by
    intro e hentry
    rw [edgeVisits, hentry]
    exact ite_self _
  have hanswered := answered_edge setting compile t isIndirect s
  generalize edge setting compile t isIndirect s = r at hanswered ⊢
  cases hanswered with
  | published hpublished =>
    rw [edgeVisits, if_pos hpublished]
    exact visitsOnce_nil rfl
  | finished _ hentry | failed _ hentry =>
    rw [hknown _ hentry]
    exact visitsOnce_nil rfl
  | reentered _ hentry =>
    rw [hknown _ hentry]
    exact visitsOnce_nil (entries_reenter s t isIndirect)
  | compiled hlibrary hnew =>
    simp only [edgeVisits, hlibrary, hnew, Bool.false_eq_true, if_false]
    exact hcompile t isIndirect s h hstack ht hnew hlibrary

variable {give : Ty → Bool → Session → Edge × Session}

theorem visitsOnce_steps
    (hgive : ∀ t isIndirect s, Sound setting s → Gives setting s t (give t isIndirect s))
    (hvisit : ∀ t isIndirect s, Sound setting s → s.stack = frames → among t →
      VisitsOnce among limit s (give t isIndirect s).2 (visit t isIndirect s))
    (steps : List Step) (hamong : ∀ t isIndirect, Step.request t isIndirect ∈ steps → among t)
    (h : Sound setting s) (hstack : s.stack = frames) :
    VisitsOnce among limit s (run give steps s).2 (stepVisits give visit steps s) := by
  induction steps generalizing s with
  | nil => exact visitsOnce_nil rfl
  | cons step rest ih =>
    have hrest := fun t isIndirect hmem => hamong t isIndirect (List.mem_cons_of_mem step hmem)
    cases step with
    | request t isIndirect =>
      have hgives := (hgive t isIndirect s h).proceeds
      have hfirst := hvisit t isIndirect s h hstack (hamong t isIndirect List.mem_cons_self)
      exact hfirst.append (ih hrest hgives.sound (hgives.grows.stack.trans hstack))
    | report problem =>
      have hreport := proceeds_report h (problem s.diagnostics.length)
      have hfirst : VisitsOnce among limit s (s.report (problem s.diagnostics.length)) [] :=
        visitsOnce_nil (entries_record s _)
      exact hfirst.append (ih hrest hreport.sound (hreport.grows.stack.trans hstack))

theorem visitsOnce_routines
    (hgive : ∀ t isIndirect s, Sound setting s → Gives setting s t (give t isIndirect s))
    (hvisit : ∀ t isIndirect s, Sound setting s → s.stack = frames → among t →
      VisitsOnce among limit s (give t isIndirect s).2 (visit t isIndirect s))
    {emitter : Emitter} (hselect : setting.select t = .ok emitter)
    (hamong : ∀ u isIndirect, setting.Requests t u isIndirect → among u)
    (h : Sound setting s) (hstack : s.stack = frames) :
    VisitsOnce among limit s (s.routines setting give t emitter).2.2
      (routineVisits setting give visit t emitter s) := by
  cases emitter with
  | nullWrapper inner => exact hvisit inner true s h hstack (hamong inner true (.inner hselect))
  | provider p =>
    have hanswers := (answers_blueprint hgive (p.writer t setting.catalog) h).proceeds
    have hwriter := visitsOnce_steps hgive hvisit (p.writer t setting.catalog).steps
      (fun u i hmem => hamong u i (.written hselect (Blueprint.mem_requests.mpr hmem))) h hstack
    have hreader := visitsOnce_steps hgive hvisit (p.reader t setting.catalog).steps
      (fun u i hmem => hamong u i (.read hselect (Blueprint.mem_requests.mpr hmem)))
      hanswers.sound (hanswers.grows.stack.trans hstack)
    simp only [routines, routineVisits, runBlueprint]
    cases hwritten : (p.writer t setting.catalog).finish
        (run give (p.writer t setting.catalog).steps s).1 with
    | error problem =>
      simp only [List.append_nil]
      exact hwriter
    | ok writer =>
      simp only
      cases hread : (p.reader t setting.catalog).finish (run give (p.reader t setting.catalog).steps
          (run give (p.writer t setting.catalog).steps s).2).1 with
      | error problem => exact hwriter.append hreader
      | ok reader => exact hwriter.append hreader

end

/-- A type that is refused at once has been visited all the same. -/
theorem visitsOnce_failed (ht : among t) (hnew : s.entry? t = none) (hroom : s.stack.length ≤ limit)
    (hapart : (s.stack.map (·.type)).Nodup) (problem : Problem) :
    VisitsOnce among limit s ((s.reportNested t problem).fail t) [⟨t, s.stack⟩] := by
  have hentries : ((s.reportNested t problem).fail t).entries = (t, .failed) :: s.entries :=
    congrArg _ (entries_record s ⟨s.chain ++ [t], problem⟩)
  have hlog := log_eq_nil_iff.mpr hnew
  refine ⟨by simp, List.forall_mem_singleton.mpr ⟨hlog, ?_⟩, fun u hu => ?_,
    List.forall_mem_singleton.mpr ⟨ht, hroom, hapart⟩⟩
  · rw [log_cons_self hentries, hlog]
    exact .refused
  · exact log_cons_of_ne hentries (hu _ List.mem_cons_self).symm

/-- The work on a new type, from its frame being pushed to its entry being settled. -/
theorem visitsOnce_worked {frame : Frame} {visited : List Visit} {v : Visit} {e : Entry}
    (hnew : s.entry? v.type = none) (horderly : Orderly among limit v)
    (hinside : VisitsOnce among limit ((s.enter v.type .compiling).push frame) s' visited)
    (he : e ≠ .compiling) (hentries : s''.entries = (v.type, e) :: s'.entries) :
    VisitsOnce among limit s s'' (v :: visited) := by
  have hlog := log_eq_nil_iff.mpr hnew
  have hbegun : log ((s.enter v.type .compiling).push frame) v.type = [.compiling] := by
    rw [log_cons_self rfl, hlog]
  have hother : ∀ u, u ≠ v.type →
      log ((s.enter v.type .compiling).push frame) u = s.log u := fun u hu => log_cons_of_ne rfl hu
  -- the type has an entry all the while, so nothing inside visits it
  have happart : ∀ w ∈ visited, w.type ≠ v.type := by
    intro w hw heq
    have hempty := (hinside.settled w hw).1
    rw [heq, hbegun] at hempty
    cases hempty
  refine ⟨?_, List.forall_mem_cons.mpr ⟨⟨hlog, ?_⟩, fun w hw => ?_⟩, fun u hu => ?_,
    List.forall_mem_cons.mpr ⟨horderly, hinside.orderly⟩⟩
  · rw [List.map_cons, List.nodup_cons]
    refine ⟨fun hmem => ?_, hinside.once⟩
    obtain ⟨w, hw, heq⟩ := List.mem_map.mp hmem
    exact happart w hw heq
  · rw [log_cons_self hentries, hinside.others v.type happart, hbegun]
    exact .worked he
  · rw [log_cons_of_ne hentries (happart w hw), ← hother w.type (happart w hw)]
    exact hinside.settled w hw
  · obtain ⟨hne, hvisited⟩ := List.forall_mem_cons.mp hu
    rw [log_cons_of_ne hentries hne.symm, hinside.others u hvisited, hother u hne.symm]

/-- The induction over the depth of a session: whatever room is left, compiling a new type visits it
and then what is new below it. -/
theorem visitsOnce_compile
    (hclosed : ∀ t, among t → ∀ u isIndirect, setting.Requests t u isIndirect → among u)
    (room : Nat) (t : Ty) (isIndirect : Bool) (s : Session) (h : Sound setting s)
    (hlimit : s.stack.length + room ≤ limit) (hapart : (s.stack.map (·.type)).Nodup)
    (ht : among t) (hnew : s.entry? t = none) (hlibrary : setting.library.contains t = false) :
    VisitsOnce among limit s (compile setting room t isIndirect s).2
      (visits setting room t isIndirect s) := by
  induction room generalizing t isIndirect s with
  | zero => exact visitsOnce_failed ht hnew hlimit hapart _
  | succ room ih =>
    cases hselect : setting.select t with
    | error problem =>
      simp only [compile, visits, hselect]
      exact visitsOnce_failed ht hnew (Nat.le_of_add_right_le hlimit) hapart problem
    | ok emitter =>
      have hgive : ∀ t isIndirect s, Sound setting s →
          Gives setting s t (edge setting (compile setting room) t isIndirect s) :=
        fun t isIndirect s hs => gives_edge (compiles_compile room) t isIndirect hs
      let begun := (s.enter t .compiling).push ⟨t, isIndirect⟩
      have hsound : Sound setting begun := sound_start h hnew hlibrary
      have hroom : begun.stack.length + room ≤ limit := by
        have hlength : begun.stack.length = s.stack.length + 1 := rfl
        omega
      have hapart' : (begun.stack.map (·.type)).Nodup := by
        refine List.nodup_cons.mpr ⟨fun hmem => ?_, hapart⟩
        exact h.not_mem_stack (by rw [hnew]; decide) (List.mem_map.mp hmem)
      have hedge := visitsOnce_edge fun u i s' hs (hstack : s'.stack = begun.stack) =>
        ih u i s' hs (hstack ▸ hroom) (hstack ▸ hapart')
      have hinside := visitsOnce_routines hgive hedge hselect (hclosed t ht) hsound rfl
      have hvisit : Orderly among limit ⟨t, begun.stack⟩ :=
        ⟨ht, Nat.le_of_add_right_le hroom, hapart'⟩
      simp only [compile, visits, hselect]
      obtain ⟨e, he, hentries⟩ := entries_close _ t _ _ s.diagnostics.length
      exact visitsOnce_worked hnew hvisit hinside he hentries

end Session

def sessionVisits (setting : Setting) (type : Ty) : List Visit :=
  Session.visits setting setting.maxDepth type false {}

/-- A whole session only visits types out of a set that is closed under requests. -/
theorem visitsOnce_session {setting : Setting} {type : Ty} {among : Ty → Prop}
    (hclosed : ∀ t, among t → ∀ u isIndirect, setting.Requests t u isIndirect → among u)
    (htype : among type) (hlibrary : setting.library.contains type = false) :
    Session.VisitsOnce among setting.maxDepth {} (session setting type).2
      (sessionVisits setting type) :=
  Session.visitsOnce_compile hclosed setting.maxDepth type false {} (Session.sound_empty setting)
    (Nat.le_of_eq (Nat.zero_add _)) List.nodup_nil htype rfl hlibrary

end SchemaPack.Compile
