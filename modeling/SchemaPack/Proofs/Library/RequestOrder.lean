import Mathlib.Data.List.Chain
import SchemaPack.Proofs.Library.Asking
import SchemaPack.Proofs.Library.Cache
import SchemaPack.Proofs.Library.DirectCycles
import SchemaPack.Proofs.Session.Mirror

/-!
The order of requests. What a fresh context serves is served after any history too. The other way
round it is not: a type is served from the library even where a fresh session for it would come back
to a type that contains itself directly. No other problem can come up in the fresh session, the
limit of depth apart.
-/
namespace SchemaPack

def Problem.IsDepthLimit (problem : Problem) : Prop :=
  ∃ t limit, problem = .depthLimitExceeded t limit

/-- The problem is with a type that is reached from the root and contains itself directly. -/
def Problem.IsDirectCycle (c : Catalog) (root : Ty) (problem : Problem) : Prop :=
  ∃ t chain, problem = .unresolvableRecursion t chain ∧ Ty.Reaches c root t ∧ Ty.Contains c t t

namespace Compile

variable {setting : Setting}

theorem Setting.Complete.emitted (h : setting.Complete) {t : Ty}
    (ht : setting.library.contains t = true) :
    ¬ setting.Reports t ∧ ∃ x edges, x.type = t ∧ Emitted setting x edges := by
  obtain ⟨x, hx, rfl⟩ := contains_iff.mp ht
  obtain ⟨earlier, later, hsplit⟩ := List.append_of_mem hx
  obtain ⟨hquiet, edges, hemitted, -⟩ := h.placed earlier x later hsplit
  exact ⟨hquiet, x, edges, rfl, hemitted⟩

theorem Setting.Complete.closed (h : setting.Complete) : setting.Closed :=
  fun _ _ _ ht hu => h.contains_of_requests ht hu

namespace Session

variable {s : Session} {root : Ty}

/-- A frame that was entered through a direct edge holds a direct part of the one below it. -/
def Linked (c : Catalog) : List Frame → Prop :=
  List.IsChain fun f g => f.isIndirect = false → Ty.Direct c g.type f.type

/-- The frames since a type began to be compiled stand above the frame of the type. -/
theorem framesInside_append {t : Ty} (hentered : ∃ g ∈ s.stack, g.type = t) :
    ∃ outer below, s.stack = s.framesInside t ++ outer :: below ∧ outer.type = t := by
  have hsome : (s.stack.find? (·.type == t)).isSome = true := by
    obtain ⟨g, hg, hgtype⟩ := hentered
    exact List.find?_isSome.mpr ⟨g, hg, beq_iff_eq.mpr hgtype⟩
  obtain ⟨outer, hfind⟩ := Option.isSome_iff_exists.mp hsome
  obtain ⟨houter, inside, below, hsplit, hbefore⟩ := List.find?_eq_some_iff_append.mp hfind
  have hother : ∀ e ∈ inside, (e.type != t) = true := hbefore
  refine ⟨outer, below, ?_, beq_iff_eq.mp houter⟩
  rw [framesInside, hsplit, List.takeWhile_append_of_pos hother,
    List.takeWhile_cons_of_neg (by simp [beq_iff_eq.mp houter]), List.append_nil]

/-- Frames that were entered through direct edges hold direct parts, down to the one below them. -/
theorem Linked.direct {c : Catalog} {inside : List Frame} {outer : Frame}
    (h : Linked c (inside ++ [outer])) (hdirect : ∀ e ∈ inside, e.isIndirect = false) :
    (inside ++ [outer]).IsChain fun f g => Ty.Direct c g.type f.type := by
  induction inside with
  | nil => exact .singleton outer
  | cons e inside ih =>
    obtain ⟨hlink, hrest⟩ := List.isChain_cons.mp h
    refine List.isChain_cons.mpr ⟨fun g hg => hlink g hg (hdirect e List.mem_cons_self), ?_⟩
    exact ih hrest fun e he => hdirect e (List.mem_cons_of_mem _ he)

/-- From a type that is being compiled back to it, where the innermost frame asks for it directly
and only direct edges lie between. -/
theorem Linked.cycle {c : Catalog} {t : Ty} (h : Linked c s.stack)
    (hasks : ∀ f ∈ s.stack.head?, Ty.Direct c f.type t) (hentered : ∃ g ∈ s.stack, g.type = t)
    (hinside : ∀ e ∈ s.framesInside t, e.isIndirect = false) :
    (t :: (s.framesInside t).reverse.map (·.type) ++ [t]).IsChain (Ty.Direct c) := by
  obtain ⟨outer, below, hsplit, rfl⟩ := framesInside_append hentered
  generalize s.framesInside outer.type = inside at hsplit hinside
  rw [hsplit] at h hasks
  have hway : (inside ++ [outer]).IsChain fun f g => Ty.Direct c g.type f.type := by
    rw [List.append_cons] at h
    exact Linked.direct (List.IsChain.left_of_append h) hinside
  have hround : (outer.type :: (inside ++ [outer]).map (·.type)).IsChain
      fun t u => Ty.Direct c u t := by
    refine List.isChain_cons.mpr ⟨fun t ht => ?_, (List.isChain_map _).mpr hway⟩
    rw [List.head?_map] at ht
    obtain ⟨f, hf, rfl⟩ := Option.map_eq_some_iff.mp ht
    refine hasks f ?_
    rw [List.head?_append] at hf ⊢
    exact hf
  have hback := List.isChain_reverse.mpr hround
  simpa using hback

/-- A way of direct parts from a type to another puts the other into it. -/
theorem contains_of_way {c : Catalog} {a b : Ty} {between : List Ty}
    (h : (a :: between ++ [b]).IsChain (Ty.Direct c)) : Ty.Contains c a b := by
  induction between generalizing a with
  | nil => exact .single (List.isChain_pair.mp h)
  | cons d between ih =>
    obtain ⟨hstep, hrest⟩ := List.isChain_cons_cons.mp h
    exact .head hstep (ih hrest)

/-- A session for a type of the library that does without the library. It stays among the types of
the library, so nothing but its depth and direct cycles can stop it. -/
structure StaysPublished (setting : Setting) (root : Ty) (s : Session) : Prop where
  published : ∀ f ∈ s.stack, setting.library.contains f.type = true
  reached : ∀ f ∈ s.stack, Ty.Reaches setting.catalog root f.type
  linked : Linked setting.catalog s.stack
  explained : ∀ d ∈ s.diagnostics,
    d.problem.IsDepthLimit ∨ d.problem.IsDirectCycle setting.catalog root

theorem mem_record {d e : Diagnostic} (h : e ∈ (s.record d).diagnostics) :
    e ∈ s.diagnostics ∨ e = d := by
  unfold record at h
  split at h
  · exact Or.inl h
  · exact (List.mem_append.mp h).imp_right List.mem_singleton.mp

theorem StaysPublished.record (h : StaysPublished setting root s) {d : Diagnostic}
    (hd : d.problem.IsDepthLimit ∨ d.problem.IsDirectCycle setting.catalog root) :
    StaysPublished setting root (s.record d) := by
  have hstack := record_stack s d
  refine ⟨hstack ▸ h.published, hstack ▸ h.reached, hstack ▸ h.linked, ?_⟩
  intro e he
  rcases mem_record he with he | rfl
  · exact h.explained e he
  · exact hd

theorem StaysPublished.pop (h : StaysPublished setting root s) :
    StaysPublished setting root s.pop where
  published f hf := h.published f (List.mem_of_mem_tail hf)
  reached f hf := h.reached f (List.mem_of_mem_tail hf)
  linked := List.IsChain.tail h.linked
  explained := h.explained

variable {r : Stretch}

/-- What is due is asked for by the innermost frame, if there is one. -/
theorem Stretch.Due.asked (hbase : r.base = []) {t : Ty} {isIndirect : Bool}
    (h : r.Due setting s t isIndirect) :
    ∀ f ∈ s.stack.head?, setting.Requests f.type t isIndirect := by
  cases h with
  | root hstack =>
    rw [hstack, hbase]
    exact nofun
  | requested hworks hrequests =>
    obtain ⟨rest, hstack, -⟩ := hworks
    rw [hstack]
    intro f hf
    cases hf
    exact hrequests

theorem Stretch.Due.direct (hregistry : setting.registry = .standard) (hbase : r.base = []) {t : Ty}
    (h : r.Due setting s t false) : ∀ f ∈ s.stack.head?, Ty.Direct setting.catalog f.type t :=
  fun f hf => ((h.asked hbase f hf).asksPart hregistry).direct rfl

/-- The types that come up are types of the library, and each lies in the one that asks for it. -/
theorem StaysPublished.due (h : StaysPublished setting root s) (hcomplete : setting.Complete)
    (hregistry : setting.registry = .standard) (hroot : setting.library.contains root = true)
    (hr : r.root.type = root) {t : Ty} {isIndirect : Bool}
    (hdue : r.Due setting.bare s t isIndirect) :
    setting.library.contains t = true ∧ Ty.Reaches setting.catalog root t := by
  subst hr
  cases hdue with
  | root => exact ⟨hroot, .refl _⟩
  | @requested f _ _ hworks hrequests =>
    obtain ⟨rest, hstack, -⟩ := hworks
    have hf : f ∈ s.stack := by
      rw [hstack]
      exact List.mem_cons_self
    refine ⟨hcomplete.closed _ _ _ (h.published f hf) hrequests.of_bare, ?_⟩
    exact (h.reached f hf).trans (hrequests.of_bare.asksPart hregistry).reaches

theorem StaysPublished.push (h : StaysPublished setting root s) {f : Frame}
    (hf : setting.library.contains f.type = true ∧ Ty.Reaches setting.catalog root f.type)
    (hlinked : Linked setting.catalog (f :: s.stack)) : StaysPublished setting root (s.push f) where
  published g hg := by
    rcases List.mem_cons.mp hg with rfl | hg
    · exact hf.1
    · exact h.published g hg
  reached g hg := by
    rcases List.mem_cons.mp hg with rfl | hg
    · exact hf.2
    · exact h.reached g hg
  linked := hlinked
  explained := h.explained

theorem StaysPublished.enter (h : StaysPublished setting root s) (t : Ty) (e : Entry) :
    StaysPublished setting root (s.enter t e) := ⟨h.published, h.reached, h.linked, h.explained⟩

/-- A type met again on the stack is deferred, or it contains itself directly. -/
theorem StaysPublished.reenter (h : StaysPublished setting root s)
    (hregistry : setting.registry = .standard) (hbase : r.base = []) {t : Ty} {isIndirect : Bool}
    (hdue : r.Due setting.bare s t isIndirect) (hentered : ∃ g ∈ s.stack, g.type = t) :
    StaysPublished setting root (s.reenter t isIndirect).2 := by
  simp only [Session.reenter]
  split
  · exact ⟨h.published, h.reached, h.linked, h.explained⟩
  · rename_i hdirect
    simp only [Bool.or_eq_true, List.any_eq_true, not_or, not_exists, not_and,
      Bool.not_eq_true] at hdirect
    obtain ⟨rfl, hinside⟩ := hdirect
    refine h.record (Or.inr ⟨t, _, rfl, ?_, ?_⟩)
    · obtain ⟨g, hg, rfl⟩ := hentered
      exact h.reached g hg
    · have hasks := hdue.direct (show setting.bare.registry = .standard from hregistry) hbase
      exact contains_of_way (h.linked.cycle hasks hentered hinside)

theorem StaysPublished.moves (h : StaysPublished setting root s) (hcomplete : setting.Complete)
    (hregistry : setting.registry = .standard) (hroot : setting.library.contains root = true)
    (hr : r.root.type = root) (hbase : r.base = []) {s' : Session}
    (hmove : r.Moves setting.bare s s') : StaysPublished setting root s' := by
  have hworks : ∀ {f : Frame}, r.Works s f → setting.library.contains f.type = true := by
    rintro f ⟨rest, hstack, -⟩
    refine h.published f ?_
    rw [hstack]
    exact List.mem_cons_self
  cases hmove with
  | limit hnew => exact (h.record (Or.inl ⟨_, _, rfl⟩)).enter _ _
  | reject hnew hselect =>
    obtain ⟨ht, -⟩ := h.due hcomplete hregistry hroot hr hnew.due
    obtain ⟨-, x, edges, rfl, hemitted⟩ := hcomplete.emitted ht
    obtain ⟨emitter, hok⟩ := hemitted.select_eq_ok
    cases hok.symm.trans hselect
  | @start t isIndirect _ hnew =>
    refine (h.enter t .compiling).push (h.due hcomplete hregistry hroot hr hnew.due) ?_
    refine List.isChain_cons.mpr ⟨fun f hf => ?_, h.linked⟩
    exact ((hnew.due.asked hbase f hf).of_bare.asksPart hregistry).direct
  | reenter hdue hentered => exact h.reenter hregistry hbase hdue hentered
  | report hf hraises =>
    obtain ⟨p, hselect, hmem⟩ := hraises
    exact absurd ⟨p, _, hselect, hmem⟩ (hcomplete.emitted (hworks hf)).1
  | fail hf hfails =>
    obtain ⟨-, x, edges, htype, hemitted⟩ := hcomplete.emitted (hworks hf)
    rw [← htype] at hfails
    exact absurd hfails (hemitted.not_fails hregistry _)
  | abandon => exact h.pop.enter _ _
  | finish => exact ⟨h.pop.published, h.pop.reached, h.pop.linked, h.pop.explained⟩

end Session

theorem problems_ofDiagnostics (type : Ty) {diagnostics : List Diagnostic}
    (h : diagnostics ≠ []) :
    (CompileError.ofDiagnostics type diagnostics).problems = diagnostics.map (·.problem) := by
  match diagnostics, h with
  | [_], _ => rfl
  | _ :: _ :: _, _ => rfl

/-- A session without the library for one of its types is refused for nothing but its depth and
direct cycles. -/
theorem explained_of_bare (hcomplete : setting.Complete) (hregistry : setting.registry = .standard)
    {type : Ty} (htype : setting.library.contains type = true) {e : CompileError}
    (h : outcome type (session setting.bare type) = .error e) :
    e.problems ≠ [] ∧ ∀ problem ∈ e.problems,
      problem.IsDepthLimit ∨ problem.IsDirectCycle setting.catalog type := by
  have hpublished := (runs_session (setting.bare_contains type)).invariant
    (P := Session.StaysPublished setting type)
    (fun s s' hs hmove => hs.moves hcomplete hregistry htype rfl rfl hmove)
    ⟨nofun, nofun, .nil, nofun⟩
  rw [outcome_eq (setting.bare_contains type)] at h
  split at h
  · cases h
  · rename_i hproblem
    cases h
    rw [problems_ofDiagnostics type hproblem]
    refine ⟨fun hnil => hproblem (List.map_eq_nil_iff.mp hnil), ?_⟩
    intro problem hmem
    obtain ⟨d, hd, rfl⟩ := List.mem_map.mp hmem
    exact hpublished.explained d hd

end Compile

namespace Context

variable {c : Context}

theorem outcome_of_refused {type : Ty} {policy : Policy} {e : CompileError}
    (h : (c.request type policy).1 = .error e) :
    c.library.contains type = false ∧
      Compile.outcome type (Compile.session c.setting type) = .error e := by
  have hserves := serves_request c type policy
  generalize c.request type policy = r at hserves h
  cases hserves with
  | hit => cases h
  | refused hnew houtcome =>
    cases h
    exact ⟨hnew, houtcome⟩
  | compiled => cases h

theorem outcome_of_served {type : Ty} {policy : Policy} {h : Handle}
    (hnew : c.library.contains type = false) (hserved : (c.request type policy).1 = .ok h) :
    ∃ codecs, Compile.outcome type (Compile.session c.setting type) = .ok codecs := by
  have hserves := serves_request c type policy
  generalize c.request type policy = r at hserves hserved
  cases hserves with
  | hit hfound =>
    obtain ⟨hmem, htype, -⟩ := handle?_eq_some hfound
    rw [Compile.contains_iff.mpr ⟨_, hmem, htype⟩] at hnew
    cases hnew
  | refused => cases hserved
  | compiled _ houtcome => exact ⟨_, houtcome⟩

theorem bare_of_same {catalog : Catalog} {config : Config} (hregistry : c.registry = .standard)
    (hcatalog : c.catalog = catalog) (hconfig : c.config = config) :
    c.setting.bare = (fresh catalog config).setting := by
  simp only [setting, Compile.Setting.bare, fresh, hregistry, hcatalog, hconfig]

/-- What a fresh context serves is served after any history. -/
theorem served_after {catalog : Catalog} {config : Config} {type : Ty} {policy : Policy}
    {h : Handle} (hserved : ((fresh catalog config).request type policy).1 = .ok h)
    (history : List (Ty × Policy)) :
    ∃ h', (((fresh catalog config).after history).request type policy).1 = .ok h' := by
  obtain ⟨hcomplete, hregistry, hcatalog, hconfig⟩ :=
    complete_after (setting_complete_fresh catalog config) history
  have hbare : ((fresh catalog config).after history).setting.bare =
      (fresh catalog config).setting := bare_of_same hregistry hcatalog hconfig
  obtain ⟨codecs, houtcome⟩ := outcome_of_served rfl hserved
  rw [← hbare] at houtcome
  cases hresult : (((fresh catalog config).after history).request type policy).1 with
  | ok h' => exact ⟨h', rfl⟩
  | error e =>
    obtain ⟨hnew, hrefused⟩ := outcome_of_refused hresult
    obtain ⟨codecs', hok⟩ := Compile.outcome_of_bare hcomplete.closed hnew houtcome
    cases hok.symm.trans hrefused

/-- What is served after some history is refused in a fresh context only for the depth of the
session or for a type that contains itself directly. -/
theorem refused_fresh {catalog : Catalog} {config : Config} {history : List (Ty × Policy)}
    {type : Ty} {policy : Policy} {h : Handle}
    (hserved : (((fresh catalog config).after history).request type policy).1 = .ok h)
    {e : CompileError} (hrefused : ((fresh catalog config).request type policy).1 = .error e) :
    e.problems ≠ [] ∧ ∀ problem ∈ e.problems,
      problem.IsDepthLimit ∨ problem.IsDirectCycle catalog type := by
  obtain ⟨hcomplete, hregistry, hcatalog, hconfig⟩ :=
    complete_after (setting_complete_fresh catalog config) history
  obtain ⟨hcomplete', hregistry', hcatalog', hconfig'⟩ := complete_request hcomplete type policy
  have hbare : (((fresh catalog config).after history).request type policy).2.setting.bare =
      (fresh catalog config).setting :=
    bare_of_same (hregistry'.trans hregistry) (hcatalog'.trans hcatalog) (hconfig'.trans hconfig)
  obtain ⟨hmem, htype, -, -, hlibrary⟩ := handle_of_request hserved
  have hpublished := Compile.contains_iff.mpr ⟨h.codec, hmem, htype⟩
  obtain ⟨-, houtcome⟩ := outcome_of_refused hrefused
  rw [← hbare] at houtcome
  have hexplained := Compile.explained_of_bare hcomplete' (hregistry'.trans hregistry) hpublished
    houtcome
  have hsame : (((fresh catalog config).after history).request type policy).2.setting.catalog =
      catalog := hcatalog'.trans hcatalog
  rw [hsame] at hexplained
  exact hexplained

/-- Whatever has been requested before: a type that a fresh context serves is served; and if a type
is served, a fresh context serves it as well, unless it meets its limit of depth or finds nothing
but types that contain themselves directly. -/
theorem served_after_history (catalog : Catalog) (config : Config) (history : List (Ty × Policy))
    (type : Ty) (policy : Policy) :
    ((∃ h, ((fresh catalog config).request type policy).1 = .ok h) →
        ∃ h, (((fresh catalog config).after history).request type policy).1 = .ok h) ∧
      ((∃ h, (((fresh catalog config).after history).request type policy).1 = .ok h) →
        (∃ h, ((fresh catalog config).request type policy).1 = .ok h) ∨
          ∃ e, ((fresh catalog config).request type policy).1 = .error e ∧ e.problems ≠ [] ∧
            ∀ problem ∈ e.problems,
              problem.IsDepthLimit ∨ problem.IsDirectCycle catalog type) := by
  refine ⟨?_, ?_⟩
  · rintro ⟨h, hserved⟩
    exact served_after hserved history
  · rintro ⟨h, hserved⟩
    cases hresult : ((fresh catalog config).request type policy).1 with
    | ok h' => exact Or.inl ⟨h', rfl⟩
    | error e => exact Or.inr ⟨e, rfl, refused_fresh hserved hresult⟩

/-- The cell of the grid is refused where it is the first to be requested, and served after its
owner. -/
theorem cell_served_after_owner :
    ((fresh grid {}).request (.record ⟨"Cell"⟩) .throw).1 =
        .error (.single (.unresolvableRecursion (.record ⟨"Cell"⟩)
          [.record ⟨"Cell"⟩, .record ⟨"Node"⟩, .record ⟨"Cell"⟩])) ∧
      ∃ h, (((fresh grid {}).after [(.record ⟨"Node"⟩, .throw)]).request
        (.record ⟨"Cell"⟩) .throw).1 = .ok h :=
  ⟨rfl, exists_handle (by decide)⟩

end Context

end SchemaPack
