import SchemaPack.Proofs.Session.Soundness

/-!
What compiling a type asks for. The plans of its provider name the types they need, and a wrapper
for null needs the inner type. Every request of a type that has a codec was answered by an edge, and
the work on a type depends on the answers to its requests alone.
-/
namespace SchemaPack

theorem Blueprint.Carries.exists_edge {b : Blueprint} {edges : List Edge} {r : Routine}
    (h : b.Carries edges r) {u : Ty} {isIndirect : Bool} (hu : (u, isIndirect) ∈ b.requests) :
    ∃ e ∈ edges, e.type = u := by
  have hmem : u ∈ edges.map (·.type) := by
    rw [h.types]
    exact List.mem_map.mpr ⟨(u, isIndirect), hu, rfl⟩
  exact List.mem_map.mp hmem

theorem Blueprint.mem_requests {b : Blueprint} {t : Ty} {isIndirect : Bool} :
    (t, isIndirect) ∈ b.requests ↔ Step.request t isIndirect ∈ b.steps := by
  unfold requests
  rw [List.mem_filterMap]
  constructor
  · rintro ⟨step, hstep, heq⟩
    cases step with
    | request u i =>
      cases heq
      exact hstep
    | report problem => cases heq
  · intro h
    exact ⟨_, h, rfl⟩

namespace Compile

/-- The first type asks for the second when it is compiled, through an indirect edge or a direct
one. -/
inductive Setting.Requests (setting : Setting) (t : Ty) : Ty → Bool → Prop
  | inner {u : Ty} (hselect : setting.select t = .ok (.nullWrapper u)) : Requests setting t u true
  | written {p : Provider} {u : Ty} {isIndirect : Bool}
      (hselect : setting.select t = .ok (.provider p))
      (h : (u, isIndirect) ∈ (p.writer t setting.catalog).requests) :
      Requests setting t u isIndirect
  | read {p : Provider} {u : Ty} {isIndirect : Bool}
      (hselect : setting.select t = .ok (.provider p))
      (h : (u, isIndirect) ∈ (p.reader t setting.catalog).requests) :
      Requests setting t u isIndirect

variable {setting : Setting}

theorem Emitted.exists_edge {x : CompiledCodec} {edges : List Edge} (h : Emitted setting x edges)
    {u : Ty} {isIndirect : Bool} (hu : setting.Requests x.type u isIndirect) :
    ∃ e ∈ edges, e.type = u := by
  cases h with
  | wrapper hselect hedge =>
    cases hu with
    | inner hselect' =>
      cases hselect.symm.trans hselect'
      exact ⟨_, List.mem_cons_self, hedge⟩
    | written hselect' | read hselect' => cases hselect.symm.trans hselect'
  | planned hselect hwriter hreader =>
    cases hu with
    | inner hselect' => cases hselect.symm.trans hselect'
    | written hselect' h =>
      cases hselect.symm.trans hselect'
      obtain ⟨e, he, htype⟩ := hwriter.exists_edge h
      exact ⟨e, List.mem_append_left _ he, htype⟩
    | read hselect' h =>
      cases hselect.symm.trans hselect'
      obtain ⟨e, he, htype⟩ := hreader.exists_edge h
      exact ⟨e, List.mem_append_right _ he, htype⟩

/-! ## The same answers -/

namespace Session

variable {setting' : Setting} {give give' : Ty → Bool → Session → Edge × Session}

/-- A plan that gets the same edges comes to the same, as long as the sessions between its steps
are such that the edges are the same. -/
theorem run_congr (Inv : Session → Prop) {steps : List Step}
    (hreport : ∀ s problem, Inv s → Inv (s.report problem))
    (hgive : ∀ t isIndirect s, Step.request t isIndirect ∈ steps → Inv s →
      give' t isIndirect s = give t isIndirect s ∧ Inv (give t isIndirect s).2)
    (s : Session) (hs : Inv s) :
    run give' steps s = run give steps s ∧ Inv (run give steps s).2 := by
  induction steps generalizing s with
  | nil => exact ⟨rfl, hs⟩
  | cons step rest ih =>
    have hrest := ih fun t isIndirect s hmem => hgive t isIndirect s (List.mem_cons_of_mem _ hmem)
    cases step with
    | request t isIndirect =>
      obtain ⟨hfirst, hinv⟩ := hgive t isIndirect s List.mem_cons_self hs
      obtain ⟨heq, hlast⟩ := hrest _ hinv
      exact ⟨by simp only [run, hfirst, heq], hlast⟩
    | report problem => exact hrest _ (hreport s _ hs)

/-- The two routines of a type depend on the edges it asks for and on nothing else. -/
theorem routines_congr (setting' : Setting) (Inv : Session → Prop) {t : Ty} {emitter : Emitter}
    (hselect : setting.select t = .ok emitter) (hcatalog : setting'.catalog = setting.catalog)
    (hreport : ∀ s problem, Inv s → Inv (s.report problem))
    (hgive : ∀ u isIndirect s, setting.Requests t u isIndirect → Inv s →
      give' u isIndirect s = give u isIndirect s ∧ Inv (give u isIndirect s).2)
    (s : Session) (hs : Inv s) :
    s.routines setting' give' t emitter = s.routines setting give t emitter := by
  cases emitter with
  | nullWrapper inner => simp only [routines, (hgive inner true s (.inner hselect) hs).1]
  | provider p =>
    obtain ⟨hwritten, hinv⟩ := run_congr Inv hreport (fun u isIndirect s hmem =>
      hgive u isIndirect s (.written hselect (Blueprint.mem_requests.mpr hmem))) s hs
    obtain ⟨hread, -⟩ := run_congr Inv hreport (fun u isIndirect s hmem =>
      hgive u isIndirect s (.read hselect (Blueprint.mem_requests.mpr hmem))) _ hinv
    simp only [routines, runBlueprint, hcatalog, hwritten]
    split
    · rfl
    · rename_i writer s₁ hrun
      obtain ⟨-, rfl⟩ := Prod.mk.inj hrun
      rw [hread]

theorem edge_congr {compile compile' : Ty → Bool → Session → Bool × Session} {t : Ty}
    {isIndirect : Bool} {s : Session} (hlibrary : setting'.library = setting.library)
    (h : setting.library.contains t = false → s.entry? t = none →
      compile' t isIndirect s = compile t isIndirect s) :
    edge setting' compile' t isIndirect s = edge setting compile t isIndirect s := by
  unfold edge
  rw [hlibrary]
  split
  · rfl
  · rename_i hpublished
    cases hentry : s.entry? t with
    | some e => cases e <;> rfl
    | none => simp only [h (Bool.eq_false_iff.mpr hpublished) hentry]

end Session

end Compile

end SchemaPack
