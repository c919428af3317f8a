import SchemaPack.Proofs.Library.RequestOrder
import SchemaPack.Proofs.Session.Exploration

/-!
What the problems of a session tell. With the built-in providers and after any requests, a session
that keeps within its limit of depth puts on record, once each, exactly the types without a
provider, the records that are not declared and the defaults that do not fit, among all types that
are reached through types with a provider. Types that were published before have none of these
problems, so it does not matter that the session does not look into them.
-/
namespace SchemaPack

/-- The problem is one of a single type, and does not come of the way that a session takes. -/
def Problem.IsFault : Problem → Prop
  | .unsupportedType _ | .unknownRecord _ | .invalidDefault _ _ _ => True
  | .unresolvableRecursion _ _ | .depthLimitExceeded _ _ => False

namespace Provider

theorem resolve_record (name : TypeName) (c : Catalog) :
    Registry.standard.resolve (.record name) c = .ok record := rfl

theorem resolve_union {alternatives : List Ty} (h : 2 ≤ alternatives.length) (c : Catalog) :
    Registry.standard.resolve (.union alternatives) c = .ok union ∧
      Registry.standard.resolve (.nullable (.union alternatives)) c = .ok union := by
  constructor <;>
    simp [Registry.resolve, Registry.standard, builtin, primitive, buffer, decimal, version, scalar,
      tuple, union, unionShape?, h]

end Provider

namespace Compile

/-- The types that are reached from a type through types that have an emitter. -/
inductive Setting.Reached (setting : Setting) (root : Ty) : Ty → Prop
  | root : Reached setting root root
  | part {t u : Ty} {emitter : Emitter} (h : Reached setting root t)
      (hselect : setting.select t = .ok emitter) (hpart : Ty.Part setting.catalog t u) :
      Reached setting root u

variable {setting : Setting} {root : Ty}

/-! ## The emitters of types -/

theorem select_eq_error {t : Ty} {problem : Problem} (h : setting.select t = .error problem) :
    problem = .unsupportedType t := by
  have hprovided :
      (setting.registry.resolve t setting.catalog).map Emitter.provider = .error problem →
        problem = .unsupportedType t := by
    intro hmap
    unfold Registry.resolve at hmap
    split at hmap
    · cases hmap
    · cases hmap
      rfl
  cases t with
  | nullable inner =>
    simp only [Setting.select] at h
    split at h
    · split at h
      · cases h
      · exact hprovided h
    · cases h
  | _ => exact hprovided h

theorem select_record (hregistry : setting.registry = .standard) (name : TypeName) :
    setting.select (.record name) = .ok (.provider Provider.record) := by
  simp only [Setting.select, hregistry, Provider.resolve_record]
  rfl

theorem select_union (hregistry : setting.registry = .standard) {alternatives : List Ty}
    (h : 2 ≤ alternatives.length) :
    setting.select (.union alternatives) = .ok (.provider Provider.union) ∧
      setting.select (.nullable (.union alternatives)) = .ok (.provider Provider.union) := by
  obtain ⟨hplain, hnullable⟩ := Provider.resolve_union h setting.catalog
  simp only [Setting.select, hregistry, hplain, hnullable]
  exact ⟨rfl, rfl⟩

theorem Setting.Requests.select_eq_ok {t u : Ty} {isIndirect : Bool}
    (h : setting.Requests t u isIndirect) : ∃ emitter, setting.select t = .ok emitter := by
  cases h with
  | inner hselect | written hselect | read hselect => exact ⟨_, hselect⟩

/-- What a reached type asks for is reached. -/
theorem Setting.Reached.requests (hregistry : setting.registry = .standard) {t u : Ty}
    (h : setting.Reached root t) {isIndirect : Bool} (hu : setting.Requests t u isIndirect) :
    setting.Reached root u := by
  obtain ⟨emitter, hselect⟩ := hu.select_eq_ok
  cases hu.asks hregistry with
  | direct hdirect => exact h.part hselect hdirect.part
  | indirect hindirect => exact h.part hselect hindirect.part
  | alternative hlength halternative =>
    have hunion := h.part hselect (Ty.Indirect.inner _).part
    exact hunion.part (select_union hregistry hlength).1 (Ty.Indirect.alternative halternative).part

/-! ## Everything on record is a fault -/

/-- A problem with a type that is reached from the root. -/
inductive Setting.Faulty (setting : Setting) (root : Ty) : Problem → Prop
  | unsupported {t : Ty} {problem : Problem} (h : setting.Reached root t)
      (hselect : setting.select t = .error problem) : Faulty setting root (.unsupportedType t)
  | unknown {name : TypeName} (h : setting.Reached root (.record name))
      (hfind : setting.catalog.find? name = none) : Faulty setting root (.unknownRecord name)
  | misdefault {record : TypeName} {field : String} {expected : Ty}
      (h : setting.Reached root (.record record))
      (hdefault : setting.catalog.Misdefaults record field expected) :
      Faulty setting root (.invalidDefault record field expected)

namespace Session

/-- What is being compiled is reached from the root. What is on record is there once, and if it is a
fault it is one that is reached from the root. -/
structure DiagnosticsSound (setting : Setting) (root : Ty) (s : Session) : Prop where
  reached : ∀ f ∈ s.stack, setting.Reached root f.type
  nodup : (s.diagnostics.map (·.problem)).Nodup
  explained : ∀ d ∈ s.diagnostics, setting.Faulty root d.problem ∨ ¬ d.problem.IsFault

variable {s s' : Session} {r : Stretch}

theorem nodup_record (h : (s.diagnostics.map (·.problem)).Nodup) (d : Diagnostic) :
    ((s.record d).diagnostics.map (·.problem)).Nodup := by
  unfold record
  split
  · exact h
  · rename_i hnew
    rw [List.map_append, List.nodup_append]
    refine ⟨h, by simp, ?_⟩
    rintro problem hproblem _ hd rfl
    obtain ⟨e, he, heq⟩ := List.mem_map.mp hproblem
    refine hnew (List.any_eq_true.mpr ⟨e, he, ?_⟩)
    rw [heq, List.mem_singleton.mp hd]
    exact beq_self_eq_true d.problem

theorem DiagnosticsSound.record (h : DiagnosticsSound setting root s) {d : Diagnostic}
    (hd : setting.Faulty root d.problem ∨ ¬ d.problem.IsFault) :
    DiagnosticsSound setting root (s.record d) := by
  refine ⟨record_stack s d ▸ h.reached, nodup_record h.nodup d, fun e he => ?_⟩
  rcases mem_record he with he | rfl
  · exact h.explained e he
  · exact hd

theorem DiagnosticsSound.enter (h : DiagnosticsSound setting root s) (t : Ty) (e : Entry) :
    DiagnosticsSound setting root (s.enter t e) := ⟨h.reached, h.nodup, h.explained⟩

theorem DiagnosticsSound.pop (h : DiagnosticsSound setting root s) :
    DiagnosticsSound setting root s.pop :=
  ⟨fun f hf => h.reached f (List.mem_of_mem_tail hf), h.nodup, h.explained⟩

theorem DiagnosticsSound.works (h : DiagnosticsSound setting root s) {f : Frame}
    (hworks : r.Works s f) : setting.Reached root f.type := by
  obtain ⟨rest, hstack, -⟩ := hworks
  exact h.reached f (hstack ▸ List.mem_cons_self)

theorem DiagnosticsSound.due (h : DiagnosticsSound setting root s)
    (hregistry : setting.registry = .standard) (hr : r.root.type = root) {t : Ty}
    {isIndirect : Bool} (hdue : r.Due setting s t isIndirect) : setting.Reached root t := by
  cases hdue with
  | root => exact hr ▸ .root
  | requested hworks hrequests => exact (h.works hworks).requests hregistry hrequests

theorem DiagnosticsSound.moves (h : DiagnosticsSound setting root s)
    (hregistry : setting.registry = .standard) (hr : r.root.type = root)
    (hmove : r.Moves setting s s') : DiagnosticsSound setting root s' := by
  cases hmove with
  | limit hnew => exact (h.record (.inr id)).enter _ _
  | reject hnew hselect =>
    obtain rfl := select_eq_error hselect
    exact (h.record (.inl (.unsupported (h.due hregistry hr hnew.due) hselect))).enter _ _
  | start hnew hselect =>
    refine ⟨fun f hf => ?_, h.nodup, h.explained⟩
    rcases List.mem_cons.mp hf with rfl | hf
    · exact h.due hregistry hr hnew.due
    · exact h.reached f hf
  | reenter hdue hentered =>
    simp only [Session.reenter]
    split
    · exact ⟨h.reached, h.nodup, h.explained⟩
    · exact h.record (.inr id)
  | report hworks hraises =>
    obtain ⟨p, hselect, hmem⟩ := hraises
    have htakes := takes_of_select hregistry hselect
    rw [htakes.reader_eq, or_self] at hmem
    obtain ⟨record, field, expected, htype, hdefault, rfl⟩ := htakes.misdefaults_of_report hmem
    exact h.record (.inl (.misdefault (htype ▸ h.works hworks) hdefault))
  | fail hworks hfails =>
    obtain ⟨p, edges, hselect, hrefuses⟩ := hfails
    have htakes := takes_of_select hregistry hselect
    rw [htakes.reader_eq, or_self] at hrefuses
    obtain ⟨name, htype, hfind, rfl⟩ := htakes.unknown_of_refuses hrefuses
    exact (h.record (.inl (.unknown (htype ▸ h.works hworks) hfind))).pop.enter _ _
  | abandon => exact h.pop.enter _ _
  | finish => exact ⟨h.pop.reached, h.nodup, h.explained⟩

end Session

theorem diagnosticsSound_session (hregistry : setting.registry = .standard) {type : Ty}
    (hlibrary : setting.library.contains type = false) :
    Session.DiagnosticsSound setting type (session setting type).2 :=
  (runs_session hlibrary).invariant (fun _ _ h hmove => h.moves hregistry rfl hmove)
    ⟨nofun, List.nodup_nil, nofun⟩

/-! ## Every fault is on record -/

namespace Session

/-- The library is complete, and what is not published has been looked at in full, from the root
on. -/
structure FullyExplored (setting : Setting) (root : Ty) (s : Session) : Prop where
  complete : setting.Complete
  registry : setting.registry = .standard
  root : Known setting s root
  explored : ∀ t, s.entry? t ≠ none → Explored setting s t

variable {s : Session} {t u : Ty}

theorem Explored.requests (h : Explored setting s t) (hregistry : setting.registry = .standard)
    {isIndirect : Bool} (hu : setting.Requests t u isIndirect) : Known setting s u := by
  cases h with
  | rejected hselect =>
    cases hu with
    | inner hselect' | written hselect' | read hselect' => cases hselect.symm.trans hselect'
  | wrapped hselect h =>
    cases hu with
    | inner hselect' =>
      cases hselect.symm.trans hselect'
      exact h
    | written hselect' | read hselect' => cases hselect.symm.trans hselect'
  | planned hselect h =>
    cases hu with
    | inner hselect' => cases hselect.symm.trans hselect'
    | written hselect' hmem =>
      cases hselect.symm.trans hselect'
      exact h.known u isIndirect hmem
    | read hselect' hmem =>
      cases hselect.symm.trans hselect'
      rw [(takes_of_select hregistry hselect).reader_eq] at hmem
      exact h.known u isIndirect hmem

theorem FullyExplored.requests (h : FullyExplored setting root s) (ht : Known setting s t)
    {isIndirect : Bool} (hu : setting.Requests t u isIndirect) : Known setting s u := by
  rcases ht with hpublished | hentry
  · exact .inl (h.complete.contains_of_requests hpublished hu)
  · exact (h.explored t hentry).requests h.registry hu

/-- A reached type is known, or it is a union that is known as nullable. -/
theorem FullyExplored.reached (h : FullyExplored setting root s) (ht : setting.Reached root t) :
    Known setting s t ∨ ∃ alternatives, t = .union alternatives ∧ 2 ≤ alternatives.length ∧
      Known setting s (.nullable t) := by
  induction ht with
  | root => exact .inl h.root
  | @part t u _ _ hselect hpart ih =>
    rcases ih with hknown | ⟨alternatives, rfl, hlength, hknown⟩
    · rcases requests_of_part h.registry hselect hpart with
        ⟨_, hrequests⟩ | ⟨alternatives, rfl, hlength, rfl⟩
      · exact .inl (h.requests hknown hrequests)
      · exact .inr ⟨alternatives, rfl, hlength, hknown⟩
    · -- The nullable union asks for the same alternatives.
      rcases hpart with hdirect | hindirect
      · cases hdirect
      · cases hindirect with
        | alternative halternative =>
          have hstep : Step.request u true ∈ alternatives.map (.request · true) :=
            Provider.request_mem_map.mpr ⟨halternative, rfl⟩
          exact .inl (h.requests hknown (.written (select_union h.registry hlength).2
            (Blueprint.mem_requests.mpr hstep)))

/-- A reached record is published, or its plan has been carried out. -/
theorem FullyExplored.record (h : FullyExplored setting root s) {name : TypeName}
    (ht : setting.Reached root (.record name)) :
    setting.library.contains (.record name) = true ∨
      Carried setting s (Provider.record.writer (.record name) setting.catalog) := by
  rcases h.reached ht with (hpublished | hentry) | ⟨_, hunion, -⟩
  · exact .inl hpublished
  · have hselect := select_record h.registry name
    cases h.explored _ hentry with
    | rejected hselect' | wrapped hselect' => cases hselect.symm.trans hselect'
    | planned hselect' hcarried =>
      cases hselect.symm.trans hselect'
      exact .inr hcarried
  · cases hunion

theorem FullyExplored.recorded (h : FullyExplored setting root s) {problem : Problem}
    (hfaulty : setting.Faulty root problem) : s.Recorded problem := by
  cases hfaulty with
  | @unsupported t problem ht hselect =>
    rcases h.reached ht with (hpublished | hentry) | ⟨alternatives, rfl, hlength, -⟩
    · obtain ⟨-, x, edges, rfl, hemitted⟩ := h.complete.emitted hpublished
      obtain ⟨emitter, hok⟩ := hemitted.select_eq_ok
      cases hok.symm.trans hselect
    · cases h.explored t hentry with
      | rejected hselect' hrecorded => exact select_eq_error hselect' ▸ hrecorded
      | wrapped hselect' | planned hselect' => cases hselect.symm.trans hselect'
    · cases (select_union h.registry hlength).1.symm.trans hselect
  | @unknown name ht hfind =>
    rcases h.record ht with hpublished | hcarried
    · obtain ⟨r, hfound⟩ :=
        (h.complete.faithful h.registry).find?_of_reaches hpublished (.refl (.record name))
      rw [hfind] at hfound
      cases hfound
    · obtain ⟨edges, -, hfinish⟩ := hcarried.refused
      exact hfinish _ (Provider.finish_unknown hfind edges)
  | @misdefault record field expected ht hdefault =>
    have hreport := Provider.report_of_misdefaults hdefault
    rcases h.record ht with hpublished | hcarried
    · exact absurd ⟨_, _, select_record h.registry record, .inl hreport⟩
        (h.complete.emitted hpublished).1
    · obtain ⟨-, hrecorded⟩ := hcarried.reported _ hreport
      exact hrecorded

end Session

/-- In a session that does not meet its limit of depth, the faults that are reached from the
requested type are on record. -/
theorem recorded_of_faulty (hcomplete : setting.Complete)
    (hregistry : setting.registry = .standard) {type : Ty}
    (hlibrary : setting.library.contains type = false)
    (hlimit : ¬ (session setting type).2.Limited) {problem : Problem}
    (hfaulty : setting.Faulty type problem) : (session setting type).2.Recorded problem := by
  obtain ⟨hroot, hexplored⟩ := explored_session hlibrary hlimit
  exact Session.FullyExplored.recorded ⟨hcomplete, hregistry, hroot, hexplored⟩ hfaulty

end Compile

namespace Context

/-- What the session for a type puts on record. -/
def diagnosed (c : Context) (type : Ty) : List Diagnostic :=
  (Compile.session c.setting type).2.diagnostics

/-- What a request for a type that is not published comes to, by what its session puts on record;
and what that is. -/
structure Diagnoses (c : Context) (type : Ty) (policy : Policy) : Prop where
  refused_iff : (∃ e, (c.request type policy).1 = .error e) ↔ c.diagnosed type ≠ []
  single : ∀ d, c.diagnosed type = [d] → (c.request type policy).1 = .error (.single d.problem)
  composition : 2 ≤ (c.diagnosed type).length →
    (c.request type policy).1 = .error (.composition type (c.diagnosed type))
  nodup : ((c.diagnosed type).map (·.problem)).Nodup
  unsupported_iff : (∀ d ∈ c.diagnosed type, ¬ d.problem.IsDepthLimit) → ∀ t,
    .unsupportedType t ∈ (c.diagnosed type).map (·.problem) ↔
      c.setting.Reached type t ∧ ∃ problem, c.setting.select t = .error problem
  unknown_iff : (∀ d ∈ c.diagnosed type, ¬ d.problem.IsDepthLimit) → ∀ name,
    .unknownRecord name ∈ (c.diagnosed type).map (·.problem) ↔
      c.setting.Reached type (.record name) ∧ c.catalog.find? name = none
  misdefault_iff : (∀ d ∈ c.diagnosed type, ¬ d.problem.IsDepthLimit) → ∀ record field expected,
    .invalidDefault record field expected ∈ (c.diagnosed type).map (·.problem) ↔
      c.setting.Reached type (.record record) ∧ c.catalog.Misdefaults record field expected

variable {c : Context}

theorem outcome_of_diagnosed {type : Ty} (hnew : c.library.contains type = false) :
    Compile.outcome type (Compile.session c.setting type) =
      if c.diagnosed type = [] then .ok (Compile.session c.setting type).2.finished
      else .error (.ofDiagnostics type (c.diagnosed type)) :=
  Compile.outcome_eq hnew

theorem request_of_quiet {type : Ty} (policy : Policy) (hnew : c.library.contains type = false)
    (hquiet : c.diagnosed type = []) : ∃ h, (c.request type policy).1 = .ok h := by
  have houtcome := outcome_of_diagnosed hnew
  rw [if_pos hquiet] at houtcome
  cases hresult : (c.request type policy).1 with
  | ok h => exact ⟨h, rfl⟩
  | error e => cases (outcome_of_refused hresult).2.symm.trans houtcome

theorem request_of_diagnosed {type : Ty} (policy : Policy) (hnew : c.library.contains type = false)
    (hproblem : c.diagnosed type ≠ []) :
    (c.request type policy).1 = .error (.ofDiagnostics type (c.diagnosed type)) := by
  have houtcome := outcome_of_diagnosed hnew
  rw [if_neg hproblem] at houtcome
  cases hresult : (c.request type policy).1 with
  | ok h =>
    obtain ⟨codecs, hok⟩ := outcome_of_served hnew hresult
    cases hok.symm.trans houtcome
  | error e =>
    cases (outcome_of_refused hresult).2.symm.trans houtcome
    rfl

/-- The faults on record are those reached from the type, if the session had room. -/
theorem mem_diagnosed_iff (hcomplete : c.setting.Complete) (hregistry : c.registry = .standard)
    {type : Ty} (hnew : c.library.contains type = false)
    (hlimit : ∀ d ∈ c.diagnosed type, ¬ d.problem.IsDepthLimit) (problem : Problem)
    (hkind : problem.IsFault) :
    problem ∈ (c.diagnosed type).map (·.problem) ↔ c.setting.Faulty type problem := by
  rw [List.mem_map]
  constructor
  · rintro ⟨d, hd, rfl⟩
    exact ((Compile.diagnosticsSound_session hregistry hnew).explained d hd).resolve_right (· hkind)
  · intro hfaulty
    refine Compile.recorded_of_faulty hcomplete hregistry hnew ?_ hfaulty
    rintro ⟨t, limit, d, hd, heq⟩
    exact hlimit d hd ⟨t, limit, heq⟩

theorem diagnoses_of_complete (hcomplete : c.setting.Complete) (hregistry : c.registry = .standard)
    {type : Ty} (policy : Policy) (hnew : c.library.contains type = false) :
    c.Diagnoses type policy where
  refused_iff := by
    constructor
    · rintro ⟨e, hrefused⟩ hquiet
      obtain ⟨h, hserved⟩ := request_of_quiet policy hnew hquiet
      cases hserved.symm.trans hrefused
    · intro hproblem
      exact ⟨_, request_of_diagnosed policy hnew hproblem⟩
  single d hd := by
    rw [request_of_diagnosed policy hnew (by rw [hd]; exact List.cons_ne_nil d []), hd]
    rfl
  composition hlength := by
    have hproblem : c.diagnosed type ≠ [] := by
      intro hnil
      rw [hnil] at hlength
      cases hlength
    rw [request_of_diagnosed policy hnew hproblem]
    match c.diagnosed type, hlength with
    | _ :: _ :: _, _ => rfl
  nodup := (Compile.diagnosticsSound_session hregistry hnew).nodup
  unsupported_iff hlimit t := by
    rw [mem_diagnosed_iff hcomplete hregistry hnew hlimit (.unsupportedType t) trivial]
    constructor
    · rintro ⟨h, hselect⟩
      exact ⟨h, _, hselect⟩
    · rintro ⟨h, problem, hselect⟩
      exact .unsupported h hselect
  unknown_iff hlimit name := by
    rw [mem_diagnosed_iff hcomplete hregistry hnew hlimit (.unknownRecord name) trivial]
    constructor
    · rintro ⟨⟩
      exact ⟨‹_›, ‹_›⟩
    · rintro ⟨h, hfind⟩
      exact .unknown h hfind
  misdefault_iff hlimit record field expected := by
    rw [mem_diagnosed_iff hcomplete hregistry hnew hlimit
      (.invalidDefault record field expected) trivial]
    constructor
    · rintro ⟨⟩
      exact ⟨‹_›, ‹_›⟩
    · rintro ⟨h, hdefault⟩
      exact .misdefault h hdefault

/-- With the built-in providers, whatever has been requested before, the session for a type that is
not published tells all that is wrong, each fault once, and the request for it tells the same. -/
theorem diagnoses_after (catalog : Catalog) (config : Config) (history : List (Ty × Policy))
    (type : Ty) (policy : Policy)
    (hnew : ((fresh catalog config).after history).isCompiled type = false) :
    ((fresh catalog config).after history).Diagnoses type policy := by
  obtain ⟨hcomplete, hregistry, -⟩ :=
    complete_after (setting_complete_fresh catalog config) history
  exact diagnoses_of_complete hcomplete hregistry policy hnew

/-- A catalog with a default that does not fit and a field of a record that is not declared. -/
def flawed : Catalog where
  records :=
    [⟨⟨"Site"⟩,
      [⟨"rank", .primitive (.int .i32), some (.bool true)⟩, ⟨"owner", .record ⟨"Ghost"⟩, none⟩]⟩]

def flawedPair : Ty := .tuple [.nullable (.tuple [.bytes]), .record ⟨"Site"⟩]

/-- All that is wrong with the pair is told, after a request that has published one of its types. -/
theorem flawedPair_diagnosed :
    ((fresh flawed {}).after [(.bytes, .throw)]).isCompiled flawedPair = false ∧
      ((fresh flawed {}).after [(.bytes, .throw)]).Diagnoses flawedPair .throw ∧
      (((fresh flawed {}).after [(.bytes, .throw)]).diagnosed flawedPair).map (·.problem) =
        [.unsupportedType (.nullable (.tuple [.bytes])),
          .invalidDefault ⟨"Site"⟩ "rank" (.primitive (.int .i32)), .unknownRecord ⟨"Ghost"⟩] :=
  ⟨rfl, diagnoses_after flawed {} [(.bytes, .throw)] flawedPair .throw rfl, rfl⟩

end Context

end SchemaPack
