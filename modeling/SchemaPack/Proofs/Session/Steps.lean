import Mathlib.Logic.Relation
import SchemaPack.Proofs.Session.Requests
import SchemaPack.Proofs.Session.Run

/-!
Compile sessions in small steps. Compiling a type is a run of steps at the innermost frame: a type
that it asks for is refused, begun or met again, a problem of its plan is put on record, or the work
on it ends. What every step keeps is kept by the whole session.
-/
namespace SchemaPack

/-- With edges for all that it asks for, the plan comes to no routine. -/
structure Blueprint.Refuses (b : Blueprint) (edges : List Edge) (problem : Problem) : Prop where
  types : edges.map (·.type) = b.requests.map (·.1)
  finish : b.finish edges = .error problem

namespace Compile

/-- A plan of the type puts this problem on record, given how many are there already. -/
def Setting.Raises (setting : Setting) (t : Ty) (problem : Nat → Problem) : Prop :=
  ∃ p, setting.select t = .ok (.provider p) ∧
    (Step.report problem ∈ (p.writer t setting.catalog).steps ∨
      Step.report problem ∈ (p.reader t setting.catalog).steps)

def Setting.Fails (setting : Setting) (t : Ty) (problem : Problem) : Prop :=
  ∃ p edges, setting.select t = .ok (.provider p) ∧
    ((p.writer t setting.catalog).Refuses edges problem ∨
      (p.reader t setting.catalog).Refuses edges problem)

namespace Session

open Relation (ReflTransGen)

/-- A stretch of a session: the type it compiles, the frames that are there when it begins, and how
many there may be at most. -/
structure Stretch where
  root : Frame
  base : List Frame
  limit : Nat

variable {setting : Setting} {r : Stretch} {s s' : Session} {f : Frame}

/-- The innermost frame was pushed during the stretch. -/
def Stretch.Works (r : Stretch) (s : Session) (f : Frame) : Prop :=
  ∃ rest, s.stack = f :: rest ∧ r.base.length ≤ rest.length

/-- The type is the root, with no frame of the stretch yet, or the innermost frame asks for it. -/
inductive Stretch.Due (setting : Setting) (r : Stretch) (s : Session) : Ty → Bool → Prop
  | root (hstack : s.stack = r.base) : Due setting r s r.root.type r.root.isIndirect
  | requested {f : Frame} {t : Ty} {isIndirect : Bool} (hworks : r.Works s f)
      (h : setting.Requests f.type t isIndirect) : Due setting r s t isIndirect

/-- A type that a session may begin: it is due, not published, and nothing is known of it. -/
structure Stretch.New (setting : Setting) (r : Stretch) (s : Session) (t : Ty)
    (isIndirect : Bool) : Prop where
  due : r.Due setting s t isIndirect
  entry : s.entry? t = none
  unpublished : setting.library.contains t = false

inductive Stretch.Moves (setting : Setting) (r : Stretch) (s : Session) : Session → Prop
  | limit {t : Ty} {isIndirect : Bool} (hnew : r.New setting s t isIndirect)
      (hfull : s.stack.length = r.limit) :
      Moves setting r s ((s.reportNested t (.depthLimitExceeded t setting.maxDepth)).fail t)
  | reject {t : Ty} {isIndirect : Bool} {problem : Problem} (hnew : r.New setting s t isIndirect)
      (hselect : setting.select t = .error problem) :
      Moves setting r s ((s.reportNested t problem).fail t)
  | start {t : Ty} {isIndirect : Bool} {emitter : Emitter} (hnew : r.New setting s t isIndirect)
      (hselect : setting.select t = .ok emitter) (hroom : s.stack.length < r.limit) :
      Moves setting r s ((s.enter t .compiling).push ⟨t, isIndirect⟩)
  | reenter {t : Ty} {isIndirect : Bool} (hdue : r.Due setting s t isIndirect)
      (hentered : ∃ g ∈ s.stack, g.type = t) : Moves setting r s (s.reenter t isIndirect).2
  | report {f : Frame} {problem : Nat → Problem} (hworks : r.Works s f)
      (hraises : setting.Raises f.type problem) :
      Moves setting r s (s.report (problem s.diagnostics.length))
  | fail {f : Frame} {problem : Problem} (hworks : r.Works s f)
      (hfails : setting.Fails f.type problem) :
      Moves setting r s ((s.report problem).pop.fail f.type)
  | abandon {f : Frame} (hworks : r.Works s f) (hproblem : s.diagnostics ≠ []) :
      Moves setting r s (s.pop.fail f.type)
  | finish {f : Frame} {c : CompiledCodec} {edges : List Edge} (hworks : r.Works s f)
      (htype : c.type = f.type) (hemitted : Emitted setting c edges) :
      Moves setting r s (s.pop.finish c)

def Stretch.Runs (setting : Setting) (r : Stretch) : Session → Session → Prop :=
  ReflTransGen (r.Moves setting)

def Stretch.of (s : Session) (t : Ty) (isIndirect : Bool) (room : Nat) : Stretch :=
  ⟨⟨t, isIndirect⟩, s.stack, s.stack.length + room⟩

/-- What every step keeps is there at the end of a run. -/
theorem Stretch.Runs.invariant {P : Session → Prop} (h : r.Runs setting s s')
    (hstep : ∀ s s', P s → r.Moves setting s s' → P s') (hstart : P s) : P s' := by
  induction h with
  | refl => exact hstart
  | tail _ hmove ih => exact hstep _ _ ih hmove

/-! ## Sessions are runs -/

/-- The steps for a type that the innermost frame asks for are steps of the frame's own stretch. -/
theorem Stretch.Moves.outer {t : Ty} {isIndirect : Bool} {rest : List Frame}
    (hbase : r.base.length ≤ rest.length) (hrequests : setting.Requests f.type t isIndirect)
    (h : Stretch.Moves setting ⟨⟨t, isIndirect⟩, f :: rest, r.limit⟩ s s') :
    r.Moves setting s s' := by
  have hworks : ∀ {g : Frame}, Stretch.Works ⟨⟨t, isIndirect⟩, f :: rest, r.limit⟩ s g →
      r.Works s g := by
    rintro g ⟨below, hstack, hlength⟩
    refine ⟨below, hstack, ?_⟩
    simp only [List.length_cons] at hlength
    omega
  have hdue : ∀ {u : Ty} {i : Bool},
      Stretch.Due setting ⟨⟨t, isIndirect⟩, f :: rest, r.limit⟩ s u i → r.Due setting s u i := by
    intro u i hu
    cases hu with
    | root hstack => exact .requested ⟨rest, hstack, hbase⟩ hrequests
    | requested hinner h => exact .requested (hworks hinner) h
  have hnew : ∀ {u : Ty} {i : Bool},
      Stretch.New setting ⟨⟨t, isIndirect⟩, f :: rest, r.limit⟩ s u i → r.New setting s u i :=
    fun hu => ⟨hdue hu.due, hu.entry, hu.unpublished⟩
  cases h with
  | limit h hfull => exact .limit (hnew h) hfull
  | reject h hselect => exact .reject (hnew h) hselect
  | start h hselect hroom => exact .start (hnew h) hselect hroom
  | reenter h hentered => exact .reenter (hdue h) hentered
  | report h hraises => exact .report (hworks h) hraises
  | fail h hfails => exact .fail (hworks h) hfails
  | abandon h hproblem => exact .abandon (hworks h) hproblem
  | finish h htype hemitted => exact .finish (hworks h) htype hemitted

section Frames

variable {rest : List Frame} {room : Nat}

theorem runs_edge {compile : Ty → Bool → Session → Bool × Session}
    (hcompile : ∀ t isIndirect s, Sound setting s → s.entry? t = none →
      setting.library.contains t = false →
      (Stretch.of s t isIndirect room).Runs setting s (compile t isIndirect s).2)
    (hbase : r.base.length ≤ rest.length) (hlimit : r.limit = rest.length + 1 + room)
    (h : Sound setting s) (hstack : s.stack = f :: rest) {t : Ty} {isIndirect : Bool}
    (hrequests : setting.Requests f.type t isIndirect) :
    r.Runs setting s (edge setting compile t isIndirect s).2 := by
  have hanswered := answered_edge setting compile t isIndirect s
  generalize edge setting compile t isIndirect s = e at hanswered ⊢
  cases hanswered with
  | published | finished | failed => exact .refl
  | reentered _ hentry =>
    exact .single (.reenter (.requested ⟨rest, hstack, hbase⟩ hrequests)
      ((h.compiling_iff t).mp hentry))
  | compiled hlibrary hnew =>
    refine ReflTransGen.mono (fun a b hmove => ?_) _ _ (hcompile t isIndirect s h hnew hlibrary)
    rw [Stretch.of, hstack, List.length_cons, ← hlimit] at hmove
    exact hmove.outer hbase hrequests

variable {give : Ty → Bool → Session → Edge × Session}

/-- The steps of a plan, each a request of the innermost frame or a problem of its plans. -/
theorem runs_run
    (hgive : ∀ t isIndirect s, Sound setting s → Gives setting s t (give t isIndirect s))
    (hruns : ∀ t isIndirect s, Sound setting s → s.stack = f :: rest →
      setting.Requests f.type t isIndirect → r.Runs setting s (give t isIndirect s).2)
    (hbase : r.base.length ≤ rest.length) (b : Blueprint)
    (hrequests : ∀ t isIndirect, (t, isIndirect) ∈ b.requests →
      setting.Requests f.type t isIndirect)
    (hraises : ∀ problem, Step.report problem ∈ b.steps → setting.Raises f.type problem)
    (h : Sound setting s) (hstack : s.stack = f :: rest) :
    r.Runs setting s (run give b.steps s).2 := by
  obtain ⟨steps, finish⟩ := b
  induction steps generalizing s with
  | nil => exact .refl
  | cons step steps ih =>
    cases step with
    | request t isIndirect =>
      have hgives := hgive t isIndirect s h
      have hfirst := hruns t isIndirect s h hstack (hrequests t isIndirect List.mem_cons_self)
      exact hfirst.trans (ih hgives.proceeds.sound (hgives.proceeds.grows.stack.trans hstack)
        (fun u i hu => hrequests u i (List.mem_cons_of_mem _ hu))
        (fun p hp => hraises p (List.mem_cons_of_mem _ hp)))
    | report problem =>
      have hreport := proceeds_report h (problem s.diagnostics.length)
      have hfirst : r.Moves setting s (s.report (problem s.diagnostics.length)) :=
        .report ⟨rest, hstack, hbase⟩ (hraises problem List.mem_cons_self)
      exact .head hfirst (ih hreport.sound (hreport.grows.stack.trans hstack) hrequests
        (fun p hp => hraises p (List.mem_cons_of_mem _ hp)))

/-- The two plans of the innermost frame are carried out, and the work on it ends. -/
theorem runs_routines
    (hgive : ∀ t isIndirect s, Sound setting s → Gives setting s t (give t isIndirect s))
    (hruns : ∀ t isIndirect s, Sound setting s → s.stack = f :: rest →
      setting.Requests f.type t isIndirect → r.Runs setting s (give t isIndirect s).2)
    (hbase : r.base.length ≤ rest.length) {emitter : Emitter}
    (hselect : setting.select f.type = .ok emitter) (h : Sound setting s)
    (hstack : s.stack = f :: rest) :
    r.Runs setting s (s.routines setting give f.type emitter).2.2 ∧
      ∀ problem, (s.routines setting give f.type emitter).2.1 = .error problem →
        setting.Fails f.type problem := by
  have hwrites : ∀ {p edges s₁}, setting.select f.type = .ok (.provider p) →
      run give (p.writer f.type setting.catalog).steps s = (edges, s₁) → r.Runs setting s s₁ := by
    intro p edges s₁ hselect hwritten
    have hwriter := runs_run hgive hruns hbase (p.writer f.type setting.catalog)
      (fun _ _ => .written hselect) (fun _ hp => ⟨p, hselect, .inl hp⟩) h hstack
    rwa [hwritten] at hwriter
  have hreads : ∀ {p edges s₁ s₂}, setting.select f.type = .ok (.provider p) →
      Proceeds setting s s₁ →
      run give (p.reader f.type setting.catalog).steps s₁ = (edges, s₂) →
      r.Runs setting s₁ s₂ := by
    intro p edges s₁ s₂ hselect hproceeds hread
    have hreader := runs_run hgive hruns hbase (p.reader f.type setting.catalog)
      (fun _ _ => .read hselect) (fun _ hp => ⟨p, hselect, .inr hp⟩) hproceeds.sound
      (hproceeds.grows.stack.trans hstack)
    rwa [hread] at hreader
  have hplanned := planned_routines setting give f.type s emitter
  generalize s.routines setting give f.type emitter = q at hplanned ⊢
  cases hplanned with
  | wrapped inner => exact ⟨hruns inner true s h hstack (.inner hselect), nofun⟩
  | unwritten p hwritten hwriter =>
    have hplan := answers_of_run hgive h hwritten
    refine ⟨hwrites hselect hwritten, fun problem herror => ?_⟩
    cases herror
    exact ⟨p, _, hselect, .inl ⟨hplan.types, hwriter⟩⟩
  | unread p hwritten hwriter hread hreader =>
    have hplan := answers_of_run hgive h hwritten
    have hplan' := answers_of_run hgive hplan.proceeds.sound hread
    refine ⟨(hwrites hselect hwritten).trans (hreads hselect hplan.proceeds hread), ?_⟩
    intro problem herror
    cases herror
    exact ⟨p, _, hselect, .inr ⟨hplan'.types, hreader⟩⟩
  | planned p hwritten hwriter hread =>
    have hplan := answers_of_run hgive h hwritten
    exact ⟨(hwrites hselect hwritten).trans (hreads hselect hplan.proceeds hread), nofun⟩

end Frames

/-- Ending the work on the innermost frame is a step. -/
theorem moves_close {t : Ty} {isIndirect : Bool} {name : String}
    {outcome : Except Problem (Routine × Routine)} {s₁ : Session}
    (hworks : r.Works s' ⟨t, isIndirect⟩)
    (hplans : Plans setting s₁ t (name, outcome, s'))
    (hfails : ∀ problem, outcome = .error problem → setting.Fails t problem) :
    r.Moves setting s' (s'.close t name outcome s₁.diagnostics.length).2 := by
  have hended := ended_close s' t name outcome s₁.diagnostics.length
  generalize s'.close t name outcome s₁.diagnostics.length = q at hended ⊢
  cases hended with
  | failed problem => exact .fail hworks (hfails problem rfl)
  | finished =>
    obtain ⟨edges, hemitted, -⟩ := hplans.emitted _ _ rfl
    exact .finish hworks rfl hemitted
  | abandoned hsince =>
    exact .abandon hworks (hplans.proceeds.grows.ne_nil_of_length_ne hsince)

/-- Compiling a new type, with all it needs, is a run of steps. -/
theorem runs_compile (room : Nat) (t : Ty) (isIndirect : Bool) (s : Session)
    (h : Sound setting s) (hnew : s.entry? t = none)
    (hlibrary : setting.library.contains t = false) :
    (Stretch.of s t isIndirect room).Runs setting s (compile setting room t isIndirect s).2 := by
  induction room generalizing t isIndirect s with
  | zero => exact .single (.limit ⟨.root rfl, hnew, hlibrary⟩ rfl)
  | succ room ih =>
    have hroot : (Stretch.of s t isIndirect (room + 1)).New setting s t isIndirect :=
      ⟨.root rfl, hnew, hlibrary⟩
    simp only [compile]
    split
    · rename_i problem hselect
      exact .single (.reject hroot hselect)
    · rename_i emitter hselect
      have hgive : ∀ t isIndirect s, Sound setting s →
          Gives setting s t (edge setting (compile setting room) t isIndirect s) :=
        fun t isIndirect s hs => gives_edge (compiles_compile room) t isIndirect hs
      have hsound : Sound setting ((s.enter t .compiling).push ⟨t, isIndirect⟩) :=
        sound_start h hnew hlibrary
      have hplans := plans_routines hgive hselect hsound
      have hstack : ((s.enter t .compiling).push ⟨t, isIndirect⟩).stack =
          ⟨t, isIndirect⟩ :: s.stack := rfl
      have hbase : (Stretch.of s t isIndirect (room + 1)).base.length ≤ s.stack.length :=
        Nat.le_refl _
      have hlimit : (Stretch.of s t isIndirect (room + 1)).limit = s.stack.length + 1 + room := by
        simp only [Stretch.of]
        omega
      obtain ⟨hruns, hfails⟩ := runs_routines hgive
        (fun u i s' hs hstack' => runs_edge ih hbase hlimit hs hstack') hbase hselect hsound hstack
      have hstart : (Stretch.of s t isIndirect (room + 1)).Moves setting s
          ((s.enter t .compiling).push ⟨t, isIndirect⟩) :=
        .start hroot hselect (by simp only [Stretch.of]; omega)
      exact .trans (.head hstart hruns) (.single (moves_close
        ⟨s.stack, hplans.proceeds.grows.stack, hbase⟩ hplans hfails))

end Session

/-- A whole session is a run from the empty session. -/
theorem runs_session {setting : Setting} {type : Ty}
    (hlibrary : setting.library.contains type = false) :
    Session.Stretch.Runs setting ⟨⟨type, false⟩, [], setting.maxDepth⟩ {}
      (session setting type).2 := by
  have hruns := Session.runs_compile setting.maxDepth type false {}
    (Session.sound_empty setting) rfl hlibrary
  rw [Session.Stretch.of, List.length_nil, Nat.zero_add] at hruns
  exact hruns

end Compile

end SchemaPack
