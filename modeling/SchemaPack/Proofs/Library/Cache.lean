import SchemaPack.Proofs.Library.Complete
import SchemaPack.Proofs.Session.Requests

/-!
The published codecs and the counters of a context over whole runs. Whatever has been requested, no
type has two codecs, the codecs are counted, and with a type everything it asks for is published.
Every request is either a hit, or a refusal that publishes nothing, or it adds new codecs; and a
codec keeps its place, so that every later request for its type is served by it.
-/
namespace SchemaPack

namespace Compile

/-- A complete library is closed under requests. -/
theorem Setting.Complete.contains_of_requests {setting : Setting} (h : setting.Complete) {t u : Ty}
    {isIndirect : Bool} (ht : setting.library.contains t = true)
    (hu : setting.Requests t u isIndirect) : setting.library.contains u = true := by
  obtain ⟨x, hx, rfl⟩ := contains_iff.mp ht
  obtain ⟨earlier, later, hsplit⟩ := List.append_of_mem hx
  obtain ⟨-, edges, hemitted, hedges⟩ := h.placed earlier x later hsplit
  obtain ⟨e, he, rfl⟩ := hemitted.exists_edge hu
  rw [contains_iff, hsplit]
  rcases hedges e he with ⟨-, d, hd, htype⟩ | ⟨-, d, hd, htype⟩
  · exact ⟨d, List.mem_append_left _ hd, htype⟩
  · exact ⟨d, List.mem_append_right _ hd, htype⟩

end Compile

/-- With one codec a type, a codec is the one found for its type. -/
theorem Library.find?_of_serial {codecs : List CompiledCodec}
    (hnodup : (codecs.map (·.type)).Nodup) {serial : Nat} {x : CompiledCodec}
    (hx : codecs[serial]? = some x) :
    (⟨codecs⟩ : Library).find? x.type = some x ∧
      (⟨codecs⟩ : Library).serial? x.type = some serial := by
  simp only [Library.find?, Library.serial?]
  induction codecs generalizing serial with
  | nil => cases hx
  | cons y rest ih =>
    obtain ⟨hy, hrest⟩ := List.nodup_cons.mp hnodup
    cases serial with
    | zero =>
      cases hx
      simp [List.findIdx?_cons]
    | succ serial =>
      have hmem : x.type ∈ rest.map (·.type) :=
        List.mem_map.mpr ⟨x, List.mem_of_getElem? hx, rfl⟩
      have hne : (y.type == x.type) = false := by
        rw [beq_eq_false_iff_ne]
        intro heq
        rw [← heq] at hmem
        exact hy hmem
      obtain ⟨hfind, hserial⟩ := ih hrest hx
      simp only [List.find?_cons, List.findIdx?_cons, hne, hfind, hserial, Bool.false_eq_true,
        if_false, Option.map_some, and_self]

namespace Context

variable {c : Context}

/-- The codecs and the counters of a context fit together. -/
structure Consistent (c : Context) : Prop where
  nodup : (c.library.codecs.map (·.type)).Nodup
  counted : c.counters.compilations = c.compiledCount
  closed : ∀ t u isIndirect, c.isCompiled t = true → c.setting.Requests t u isIndirect →
    c.isCompiled u = true

/-- What a request for a type does to the codecs and the counters. -/
inductive RequestEffect (c : Context) (type : Ty) : Except CompileError Handle → Context → Prop
  | hit {h : Handle} {c' : Context} (known : c.isCompiled type = true)
      (library : c'.library = c.library)
      (counters : c'.counters = { c.counters with cacheHits := c.counters.cacheHits + 1 }) :
      RequestEffect c type (.ok h) c'
  | refused {e : CompileError} {c' : Context} (deferred : Nat) (unknown : c.isCompiled type = false)
      (library : c'.library = c.library)
      (counters : c'.counters =
        { c.counters with
          deferredReferences := c.counters.deferredReferences + deferred
          failedCompilations := c.counters.failedCompilations + 1 }) :
      RequestEffect c type (.error e) c'
  | compiled {h : Handle} {c' : Context} (deferred : Nat) (codecs : List CompiledCodec)
      (unknown : c.isCompiled type = false)
      (library : c'.library.codecs = c.library.codecs ++ codecs)
      (requested : ∃ x ∈ codecs, x.type = type)
      (new : ∀ x ∈ codecs, c.isCompiled x.type = false)
      (counters : c'.counters =
        { c.counters with
          compilations := c.counters.compilations + codecs.length
          deferredReferences := c.counters.deferredReferences + deferred }) :
      RequestEffect c type (.ok h) c'

theorem requestEffect_request (c : Context) (type : Ty) (policy : Policy) :
    c.RequestEffect type (c.request type policy).1 (c.request type policy).2 := by
  have hserves := serves_request c type policy
  generalize c.request type policy = r at hserves ⊢
  cases hserves with
  | hit hfound =>
    obtain ⟨hmem, htype, -⟩ := handle?_eq_some hfound
    exact .hit (Compile.contains_iff.mpr ⟨_, hmem, htype⟩) rfl rfl
  | refused hnew houtcome n => exact .refused n hnew rfl rfl
  | compiled hnew houtcome n hfound =>
    have hpublished := Compile.published_of_outcome hnew houtcome
    exact .compiled n _ hnew rfl hpublished.root hpublished.unpublished rfl

/-- The counter of compilations goes with the codecs, whatever the request comes to. -/
theorem counted_request (h : c.counters.compilations = c.compiledCount) (type : Ty)
    (policy : Policy) :
    (c.request type policy).2.counters.compilations = (c.request type policy).2.compiledCount := by
  have heffect := requestEffect_request c type policy
  generalize c.request type policy = r at heffect ⊢
  obtain ⟨result, c'⟩ := r
  unfold compiledCount Library.size at h ⊢
  cases heffect with
  | hit known library counters => rw [counters, library, h]
  | refused n unknown library counters => rw [counters, library, h]
  | compiled n codecs unknown library requested new counters =>
    rw [counters, library, List.length_append, h]

theorem counted_after (h : c.counters.compilations = c.compiledCount)
    (history : List (Ty × Policy)) :
    (c.after history).counters.compilations = (c.after history).compiledCount := by
  induction history generalizing c with
  | nil => exact h
  | cons request rest ih => exact ih (counted_request h request.1 request.2)

theorem prefix_request (c : Context) (type : Ty) (policy : Policy) :
    c.library.codecs <+: (c.request type policy).2.library.codecs := by
  have heffect := requestEffect_request c type policy
  generalize c.request type policy = r at heffect ⊢
  obtain ⟨result, c'⟩ := r
  cases heffect with
  | hit known library counters => exact library ▸ List.prefix_rfl
  | refused n unknown library counters => exact library ▸ List.prefix_rfl
  | compiled n codecs unknown library requested new counters =>
    rw [library]
    exact List.prefix_append _ _

/-- Published codecs stay, each in its place. -/
theorem prefix_after (c : Context) (history : List (Ty × Policy)) :
    c.library.codecs <+: (c.after history).library.codecs := by
  induction history generalizing c with
  | nil => exact List.prefix_rfl
  | cons request rest ih => exact (prefix_request c request.1 request.2).trans (ih _)

/-- A request for the type of a codec is served by the codec. -/
theorem request_of_serial (hnodup : (c.library.codecs.map (·.type)).Nodup) {serial : Nat}
    {x : CompiledCodec} (hx : c.library.codecs[serial]? = some x) (policy : Policy) :
    ∃ h, (c.request x.type policy).1 = .ok h ∧ h.serial = serial ∧ h.codec = x := by
  obtain ⟨hfind, hserial⟩ := Library.find?_of_serial hnodup hx
  have hhandle : c.handle? x.type policy =
      some ⟨x, serial, policy, c.config.maxDepth, c.library⟩ := by
    simp only [handle?, hfind, hserial]
  refine ⟨⟨x, serial, policy, c.config.maxDepth, c.library⟩, ?_, rfl, rfl⟩
  simp only [request, hhandle]

/-- In a context with the built-in providers, after any requests, the codecs and the counters fit
together; the next request for any type is a hit, a refusal or new codecs, and is counted as that;
and whatever is requested after that, a type that has a codec is served by this codec. -/
theorem cache_consistent_after (catalog : Catalog) (config : Config)
    (history : List (Ty × Policy)) :
    ((fresh catalog config).after history).Consistent ∧
      (∀ type policy, ((fresh catalog config).after history).RequestEffect type
        (((fresh catalog config).after history).request type policy).1
        (((fresh catalog config).after history).request type policy).2) ∧
      ∀ serial x, ((fresh catalog config).after history).library.codecs[serial]? = some x →
        ∀ later policy, ∃ h,
          ((((fresh catalog config).after history).after later).request x.type policy).1 = .ok h ∧
            h.serial = serial ∧ h.codec = x := by
  obtain ⟨hcomplete, -⟩ := complete_after (setting_complete_fresh catalog config) history
  have hcounted := counted_after (c := fresh catalog config) rfl history
  generalize (fresh catalog config).after history = c at hcomplete hcounted ⊢
  refine ⟨⟨hcomplete.nodup, hcounted, ?_⟩, requestEffect_request c, ?_⟩
  · intro t u isIndirect ht hu
    exact hcomplete.contains_of_requests ht hu
  · intro serial x hx later policy
    obtain ⟨hcomplete', -⟩ := complete_after hcomplete later
    obtain ⟨more, hmore⟩ := prefix_after c later
    refine request_of_serial hcomplete'.nodup ?_ policy
    rw [← hmore, List.getElem?_append_left (List.getElem?_eq_some_iff.mp hx).1, hx]

def people : Catalog where
  records :=
    [⟨⟨"Person"⟩, [⟨"name", .primitive .string, none⟩,
      ⟨"children", .list (.record ⟨"Person"⟩), none⟩]⟩]

/-- A person is asked for, and once more, and then a pet, which is not declared. -/
def peopleHistory : List (Ty × Policy) :=
  [(.record ⟨"Person"⟩, .throw), (.record ⟨"Person"⟩, .ignore), (.record ⟨"Pet"⟩, .throw)]

/-- Three codecs have been published, a request has hit and one was refused. Whatever is asked for
again, the list of the children keeps its codec. -/
theorem people_cache_consistent :
    ((fresh people {}).after peopleHistory).counters = ⟨3, 1, 2, 1⟩ ∧
      ((fresh people {}).after peopleHistory).Consistent ∧
      ∃ h, ((((fresh people {}).after peopleHistory).after peopleHistory).request
        (.list (.record ⟨"Person"⟩)) .throw).1 = .ok h ∧ h.serial = 1 := by
  obtain ⟨hconsistent, -, hkept⟩ := cache_consistent_after people {} peopleHistory
  have hlist : (((fresh people {}).after peopleHistory).library.codecs[1]?).map (·.type) =
      some (.list (.record ⟨"Person"⟩)) := by decide
  obtain ⟨x, hx, htype⟩ := Option.map_eq_some_iff.mp hlist
  obtain ⟨h, hserved, hserial, -⟩ := hkept 1 x hx peopleHistory .throw
  exact ⟨by decide, hconsistent, h, htype ▸ hserved, hserial⟩

end Context

end SchemaPack
