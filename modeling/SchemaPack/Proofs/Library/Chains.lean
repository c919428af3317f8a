import SchemaPack.Proofs.Library.Diagnosis

/-!
The chains of diagnostics. What is being compiled are types of which each was asked for by the one
before, from the requested type on. So a problem is put on record with a way from the requested type
to the type that it is about, and the way of a type back to itself that a session refuses is made of
direct parts only.
-/
namespace SchemaPack

/-- The type that a problem is about. A bad default is a problem of the record that declares it. -/
def Problem.type : Problem → Ty
  | unsupportedType t | unresolvableRecursion t _ | depthLimitExceeded t _ => t
  | unknownRecord name | invalidDefault name _ _ => .record name

namespace Compile

/-- The types lead from the one to the other, and each asks for the next when it is compiled. -/
structure Setting.Leads (setting : Setting) (root t : Ty) (chain : List Ty) : Prop where
  asks : chain.IsChain fun outer inner => ∃ isIndirect, setting.Requests outer inner isIndirect
  first : chain.head? = some root
  last : chain.getLast? = some t

/-- The diagnostic has a way from the root to the type that it is about. If the type contains
itself, its cycle is the end of the way, from the type back to the type, and every step is to an
item of a tuple or a field of a record. -/
structure Setting.Traces (setting : Setting) (root : Ty) (d : Diagnostic) : Prop where
  leads : setting.Leads root d.problem.type d.chain
  cycle : ∀ t cycle, d.problem = .unresolvableRecursion t cycle → cycle <:+ d.chain ∧
    (∃ between, cycle = t :: between ++ [t]) ∧ cycle.IsChain (Ty.Direct setting.catalog)

/-- Where a problem tells no cycle, the way is all. -/
theorem Setting.Leads.traces {setting : Setting} {root : Ty} {chain : List Ty} {problem : Problem}
    (h : setting.Leads root problem.type chain)
    (hcycle : ∀ t cycle, problem ≠ .unresolvableRecursion t cycle) :
    setting.Traces root ⟨chain, problem⟩ :=
  ⟨h, fun t cycle heq => absurd heq (hcycle t cycle)⟩

namespace Session

/-- Every frame was asked for by the one below it, down to the root, and the diagnostics can be
traced. -/
structure RequestsChained (setting : Setting) (root : Ty) (s : Session) : Prop where
  asked : s.stack.IsChain fun f g => setting.Requests g.type f.type f.isIndirect
  rooted : ∀ f ∈ s.stack.getLast?, f.type = root
  traced : ∀ d ∈ s.diagnostics, setting.Traces root d

variable {setting : Setting} {root t : Ty} {isIndirect : Bool} {s s' : Session} {r : Stretch}

theorem chain_push (s : Session) (f : Frame) : (s.push f).chain = s.chain ++ [f.type] := by
  simp [chain, push]

theorem RequestsChained.record (h : RequestsChained setting root s) {d : Diagnostic}
    (hd : setting.Traces root d) : RequestsChained setting root (s.record d) := by
  have hstack := record_stack s d
  refine ⟨hstack ▸ h.asked, hstack ▸ h.rooted, fun e he => ?_⟩
  rcases mem_record he with he | rfl
  · exact h.traced e he
  · exact hd

theorem RequestsChained.enter (h : RequestsChained setting root s) (t : Ty) (e : Entry) :
    RequestsChained setting root (s.enter t e) := ⟨h.asked, h.rooted, h.traced⟩

theorem RequestsChained.pop (h : RequestsChained setting root s) :
    RequestsChained setting root s.pop := by
  refine ⟨h.asked.tail, fun f hf => h.rooted f ?_, h.traced⟩
  rw [Session.pop, List.getLast?_tail] at hf
  split at hf
  · cases hf
  · exact hf

/-- A type that is due is asked for by the innermost frame, or it is the root. -/
theorem RequestsChained.push (h : RequestsChained setting root s) (hr : r.root.type = root)
    (hbase : r.base = []) (hdue : r.Due setting s t isIndirect) :
    RequestsChained setting root (s.push ⟨t, isIndirect⟩) := by
  refine ⟨List.isChain_cons.mpr ⟨hdue.asked hbase, h.asked⟩, fun f hf => ?_, h.traced⟩
  cases hdue with
  | root hstack =>
    rw [Session.push, hstack, hbase] at hf
    cases hf
    exact hr
  | requested hworks =>
    obtain ⟨rest, hstack, -⟩ := hworks
    rw [Session.push, hstack, List.getLast?_cons_cons, ← hstack] at hf
    exact h.rooted f hf

/-- The chain leads to the type that is being compiled. -/
theorem RequestsChained.leads (h : RequestsChained setting root s) {f : Frame} {rest : List Frame}
    (hstack : s.stack = f :: rest) : setting.Leads root f.type s.chain where
  asks := by
    rw [chain, List.isChain_map, List.isChain_reverse]
    exact h.asked.imp fun f g hfg => ⟨_, hfg⟩
  first := by
    have hlast : s.stack.getLast? = some (rest.getLast?.getD f) := by
      rw [hstack, List.getLast?_cons]
    rw [chain, List.head?_map, List.head?_reverse, hlast, Option.map_some, h.rooted _ hlast]
  last := by
    rw [chain, List.getLast?_map, List.getLast?_reverse, hstack, List.head?_cons, Option.map_some]

/-- The chain leads on to a type that is due. -/
theorem RequestsChained.due (h : RequestsChained setting root s) (hr : r.root.type = root)
    (hbase : r.base = []) (hdue : r.Due setting s t isIndirect) :
    setting.Leads root t (s.chain ++ [t]) := by
  have hleads := (h.push hr hbase hdue).leads rfl
  rw [chain_push] at hleads
  exact hleads

/-- A type that is met again ends the chain with its cycle, if it is not deferred. -/
theorem RequestsChained.reenter (h : RequestsChained setting root s)
    (hregistry : setting.registry = .standard) (hr : r.root.type = root) (hbase : r.base = [])
    (hdue : r.Due setting s t isIndirect) (hentered : ∃ g ∈ s.stack, g.type = t) :
    RequestsChained setting root (s.reenter t isIndirect).2 := by
  simp only [Session.reenter]
  split
  · exact ⟨h.asked, h.rooted, h.traced⟩
  · rename_i hdirect
    simp only [Bool.or_eq_true, List.any_eq_true, not_or, not_exists, not_and,
      Bool.not_eq_true] at hdirect
    obtain ⟨rfl, hinside⟩ := hdirect
    refine h.record ⟨h.due hr hbase hdue, fun u cycle heq => ?_⟩
    cases heq
    have hlinked : Linked setting.catalog s.stack :=
      h.asked.imp fun f g hfg => (hfg.asksPart hregistry).direct
    refine ⟨?_, ⟨_, rfl⟩, hlinked.cycle (hdue.direct hregistry hbase) hentered hinside⟩
    obtain ⟨outer, below, hsplit, rfl⟩ := framesInside_append hentered
    refine ⟨below.reverse.map (·.type), ?_⟩
    have hchain : s.chain = below.reverse.map (·.type) ++
        outer.type :: (s.framesInside outer.type).reverse.map (·.type) := by
      rw [chain, congrArg List.reverse hsplit]
      simp
    show _ = s.chain ++ [outer.type]
    rw [hchain, List.append_assoc]

theorem RequestsChained.moves (h : RequestsChained setting root s)
    (hregistry : setting.registry = .standard) (hr : r.root.type = root) (hbase : r.base = [])
    (hmove : r.Moves setting s s') :
    RequestsChained setting root s' := by
  cases hmove with
  | limit hnew =>
    refine (h.record ?_).enter _ _
    exact Setting.Leads.traces (h.due hr hbase hnew.due) nofun
  | reject hnew hselect =>
    obtain rfl := select_eq_error hselect
    refine (h.record ?_).enter _ _
    exact Setting.Leads.traces (h.due hr hbase hnew.due) nofun
  | start hnew => exact (h.push hr hbase hnew.due).enter _ .compiling
  | reenter hdue hentered => exact h.reenter hregistry hr hbase hdue hentered
  | report hworks hraises =>
    obtain ⟨p, hselect, hmem⟩ := hraises
    have htakes := takes_of_select hregistry hselect
    rw [htakes.reader_eq, or_self] at hmem
    obtain ⟨record, field, expected, htype, -, rfl⟩ := htakes.misdefaults_of_report hmem
    obtain ⟨rest, hstack, -⟩ := hworks
    have hleads := h.leads hstack
    rw [htype] at hleads
    exact h.record (hleads.traces nofun)
  | fail hworks hfails =>
    obtain ⟨p, edges, hselect, hrefuses⟩ := hfails
    have htakes := takes_of_select hregistry hselect
    rw [htakes.reader_eq, or_self] at hrefuses
    obtain ⟨name, htype, -, rfl⟩ := htakes.unknown_of_refuses hrefuses
    obtain ⟨rest, hstack, -⟩ := hworks
    have hleads := h.leads hstack
    rw [htype] at hleads
    refine (h.record ?_).pop.enter _ _
    exact hleads.traces nofun
  | abandon => exact h.pop.enter _ _
  | finish => exact ⟨h.pop.asked, h.pop.rooted, h.pop.traced⟩

end Session

theorem requestsChained_session {setting : Setting} (hregistry : setting.registry = .standard)
    {type : Ty} (hlibrary : setting.library.contains type = false) :
    Session.RequestsChained setting type (session setting type).2 :=
  (runs_session hlibrary).invariant (fun _ _ h hmove => h.moves hregistry rfl rfl hmove)
    ⟨.nil, nofun, nofun⟩

end Compile

namespace Context

/-- The error of a refused request is made of what its session has put on record, and each of these
diagnostics can be traced. -/
structure Explains (c : Context) (type : Ty) (e : CompileError) : Prop where
  recorded : c.diagnosed type ≠ []
  error : e = .ofDiagnostics type (c.diagnosed type)
  traced : ∀ d ∈ c.diagnosed type, c.setting.Traces type d

/-- With the built-in providers, whatever has been requested before, a request is refused with
diagnostics that can be traced. -/
theorem explains_of_refused {catalog : Catalog} {config : Config} {history : List (Ty × Policy)}
    {type : Ty} {policy : Policy} {e : CompileError}
    (hrefused : (((fresh catalog config).after history).request type policy).1 = .error e) :
    ((fresh catalog config).after history).Explains type e := by
  obtain ⟨-, hregistry, -⟩ := complete_after (setting_complete_fresh catalog config) history
  obtain ⟨hnew, houtcome⟩ := outcome_of_refused hrefused
  rw [outcome_of_diagnosed hnew] at houtcome
  split at houtcome
  · cases houtcome
  · rename_i hproblem
    cases houtcome
    exact ⟨hproblem, rfl, (Compile.requestsChained_session hregistry hnew).traced⟩

def knotEnds : Ty := .tuple [.record ⟨"Knot"⟩, .list (.record ⟨"Ghost"⟩)]

/-- A knot is tied to itself and to ghosts that are not declared, and its rank cannot be true. -/
def tangled : Catalog where
  records :=
    [⟨⟨"Knot"⟩,
      [⟨"ends", knotEnds, none⟩, ⟨"rank", .primitive (.int .i32), some (.bool true)⟩]⟩]

def tangledError : CompileError :=
  .composition (.list (.record ⟨"Knot"⟩))
    [⟨[.list (.record ⟨"Knot"⟩), .record ⟨"Knot"⟩, knotEnds, .record ⟨"Knot"⟩],
        .unresolvableRecursion (.record ⟨"Knot"⟩) [.record ⟨"Knot"⟩, knotEnds, .record ⟨"Knot"⟩]⟩,
      ⟨[.list (.record ⟨"Knot"⟩), .record ⟨"Knot"⟩, knotEnds, .list (.record ⟨"Ghost"⟩),
          .record ⟨"Ghost"⟩],
        .unknownRecord ⟨"Ghost"⟩⟩,
      ⟨[.list (.record ⟨"Knot"⟩), .record ⟨"Knot"⟩],
        .invalidDefault ⟨"Knot"⟩ "rank" (.primitive (.int .i32))⟩]

/-- The list of knots is refused so after another request. -/
theorem tangled_explained :
    (((fresh tangled {}).after [(.bytes, .throw)]).request (.list (.record ⟨"Knot"⟩)) .throw).1 =
        .error tangledError ∧
      ((fresh tangled {}).after [(.bytes, .throw)]).Explains (.list (.record ⟨"Knot"⟩))
        tangledError := by
  have hrefused : (((fresh tangled {}).after [(.bytes, .throw)]).request
      (.list (.record ⟨"Knot"⟩)) .throw).1 = .error tangledError := rfl
  exact ⟨hrefused, explains_of_refused hrefused⟩

end Context

end SchemaPack
