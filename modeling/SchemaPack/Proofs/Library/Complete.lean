import SchemaPack.Context
import SchemaPack.Proofs.Library.Standard
import SchemaPack.Proofs.Session.Run

/-!
The library of a context. Whatever requests have been made, successful or not, every published
codec was made for its type by the registry, and each of its edges leads to a published codec: a
ready edge to one published before, a deferred edge to one published no earlier than its holder.
-/
namespace SchemaPack

namespace Compile

/-- The published codecs of a setting, each made from edges that lead to published codecs. -/
structure Setting.Complete (setting : Setting) : Prop where
  nodup : (setting.library.codecs.map (·.type)).Nodup
  placed : ∀ earlier x later, setting.library.codecs = earlier ++ x :: later →
    ¬ setting.Reports x.type ∧ ∃ edges, Emitted setting x edges ∧ ∀ e ∈ edges,
      (e.link = .ready ∧ ∃ d ∈ earlier, d.type = e.type) ∨
        (e.link = .deferred ∧ ∃ d ∈ x :: later, d.type = e.type)

theorem contains_iff {lib : Library} {t : Ty} :
    lib.contains t = true ↔ ∃ x ∈ lib.codecs, x.type = t := by
  simp [Library.contains]

/-- An element of two lists in a row stands in the first or in the second. -/
theorem append_eq_append_cons {α : Type} {a b earlier later : List α} {x : α}
    (h : a ++ b = earlier ++ x :: later) :
    (∃ after, a = earlier ++ x :: after ∧ later = after ++ b) ∨
      ∃ before, earlier = a ++ before ∧ b = before ++ x :: later := by
  rcases List.append_eq_append_iff.mp h with ⟨before, hearlier, hb⟩ | ⟨after, ha, hlater⟩
  · exact Or.inr ⟨before, hearlier, hb⟩
  · cases after with
    | nil => exact Or.inr ⟨[], by rw [ha, List.append_nil, List.append_nil], hlater.symm⟩
    | cons y after =>
      obtain ⟨rfl, hrest⟩ := List.cons.inj hlater
      exact Or.inl ⟨after, ha, hrest⟩

variable {setting : Setting}

/-- How a codec is made does not depend on what is published already. -/
theorem Emitted.withLibrary {x : CompiledCodec} {edges : List Edge} (h : Emitted setting x edges)
    (library : Library) : Emitted { setting with library } x edges := by
  cases h with
  | wrapper hselect hedge => exact .wrapper hselect hedge
  | planned hselect hwriter hreader => exact .planned hselect hwriter hreader

/-- What a session hands over continues a complete library. -/
theorem Setting.Complete.publish {type : Ty} {codecs : List CompiledCodec}
    (h : setting.Complete) (hcodecs : Published setting type codecs) :
    { setting with library := ⟨setting.library.codecs ++ codecs⟩ : Setting }.Complete where
  nodup := by
    show ((setting.library.codecs ++ codecs).map (·.type)).Nodup
    rw [List.map_append, List.nodup_append]
    refine ⟨h.nodup, hcodecs.nodup, ?_⟩
    rintro t ht u hu rfl
    obtain ⟨x, hx, rfl⟩ := List.mem_map.mp ht
    obtain ⟨y, hy, htype⟩ := List.mem_map.mp hu
    have hmissing := hcodecs.unpublished y hy
    rw [htype, contains_iff.mpr ⟨x, hx, rfl⟩] at hmissing
    cases hmissing
  placed earlier x later hsplit := by
    change setting.library.codecs ++ codecs = earlier ++ x :: later at hsplit
    rcases append_eq_append_cons hsplit with ⟨after, hold, rfl⟩ | ⟨before, rfl, hnew⟩
    · obtain ⟨hquiet, edges, hemitted, hedges⟩ := h.placed earlier x after hold
      refine ⟨hquiet, edges, hemitted.withLibrary _, fun e he => ?_⟩
      rcases hedges e he with hready | ⟨hdeferred, d, hd, htype⟩
      · exact Or.inl hready
      · exact Or.inr ⟨hdeferred, d, List.mem_append_left codecs hd, htype⟩
    · obtain ⟨hquiet, edges, hemitted, hedges⟩ := hcodecs.placed before x later hnew
      refine ⟨hquiet, edges, hemitted.withLibrary _, fun e he => ?_⟩
      rcases hedges e he with ⟨hready, hpublished | ⟨d, hd, htype⟩⟩ | hdeferred
      · obtain ⟨d, hd, htype⟩ := contains_iff.mp hpublished
        exact Or.inl ⟨hready, d, List.mem_append_left _ hd, htype⟩
      · exact Or.inl ⟨hready, d, List.mem_append_right _ hd, htype⟩
      · exact Or.inr hdeferred

end Compile

/-! ## Histories -/

namespace Context

def fresh (catalog : Catalog) (config : Config) : Context :=
  { registry := .standard, catalog, config }

/-- The context after requests, each for a type under a policy, whether they succeeded or not. -/
def after (c : Context) : List (Ty × Policy) → Context
  | [] => c
  | (type, policy) :: rest => ((c.request type policy).2).after rest

variable {c : Context}

theorem handle?_eq_some {type : Ty} {policy : Policy} {h : Handle}
    (hsome : c.handle? type policy = some h) :
    h.codec ∈ c.library.codecs ∧ h.codec.type = type ∧ h.policy = policy ∧
      h.maxDepth = c.config.maxDepth ∧ h.library = c.library := by
  unfold handle? at hsome
  split at hsome
  · rename_i codec serial hfind hserial
    cases hsome
    exact ⟨List.mem_of_find?_eq_some hfind, by simpa using List.find?_some hfind, rfl, rfl, rfl⟩
  · cases hsome

theorem handle?_isSome {type : Ty} (policy : Policy) (h : c.library.contains type = true) :
    ∃ handle, c.handle? type policy = some handle := by
  obtain ⟨x, hx, htype⟩ := Compile.contains_iff.mp h
  have hfind : ∃ codec, c.library.find? type = some codec := by
    rw [← Option.isSome_iff_exists]
    exact List.find?_isSome.mpr ⟨x, hx, beq_iff_eq.mpr htype⟩
  have hserial : ∃ serial, c.library.serial? type = some serial := by
    rw [← Option.isSome_iff_exists]
    exact List.findIdx?_isSome.trans (List.any_eq_true.mpr ⟨x, hx, beq_iff_eq.mpr htype⟩)
  obtain ⟨codec, hcodec⟩ := hfind
  obtain ⟨serial, hserial⟩ := hserial
  exact ⟨⟨codec, serial, policy, c.config.maxDepth, c.library⟩,
    by simp only [handle?, hcodec, hserial]⟩

/-- A result that can be evaluated to a handle is one. -/
theorem exists_handle {r : Except CompileError Handle} (h : r.toOption.isSome = true) :
    ∃ handle, r = .ok handle := by
  cases r with
  | ok handle => exact ⟨handle, rfl⟩
  | error e => cases h

/-- What a request comes to: a hit that changes only a counter, a failure that changes only
counters, or new codecs, the requested one among them. -/
inductive Serves (c : Context) (type : Ty) (policy : Policy) :
    Except CompileError Handle × Context → Prop
  | hit {h : Handle} (hfound : c.handle? type policy = some h) :
      Serves c type policy (.ok h, c.countHit)
  | refused {e : CompileError} (hnew : c.library.contains type = false)
      (houtcome : Compile.outcome type (Compile.session c.setting type) = .error e) (n : Nat) :
      Serves c type policy (.error e, c.countFailure n)
  | compiled {h : Handle} {codecs : List CompiledCodec} (hnew : c.library.contains type = false)
      (houtcome : Compile.outcome type (Compile.session c.setting type) = .ok codecs) (n : Nat)
      (hfound : (c.publish codecs n).handle? type policy = some h) :
      Serves c type policy (.ok h, c.publish codecs n)

theorem serves_request (c : Context) (type : Ty) (policy : Policy) :
    Serves c type policy (c.request type policy) := by
  unfold request
  split
  · rename_i h hfound
    exact .hit hfound
  · rename_i hnone
    have hnew : c.library.contains type = false := by
      rw [Bool.eq_false_iff]
      intro hcontains
      obtain ⟨h, hsome⟩ := handle?_isSome policy hcontains
      rw [hsome] at hnone
      cases hnone
    simp only
    split
    · rename_i e houtcome
      exact .refused hnew houtcome _
    · rename_i codecs houtcome
      have hpublished := Compile.published_of_outcome hnew houtcome
      split
      · rename_i h hfound
        exact .compiled hnew houtcome _ hfound
      · rename_i hmissing
        obtain ⟨x, hx, htype⟩ := hpublished.root
        obtain ⟨h, hsome⟩ := handle?_isSome (c := c.publish codecs _) policy
          (Compile.contains_iff.mpr ⟨x, List.mem_append_right _ hx, htype⟩)
        rw [hsome] at hmissing
        cases hmissing

/-- A request goes by its session and by the handles to what is published. So a change to a context
that leaves the sessions as they are, and takes handles to handles, is a change to the answer. -/
theorem request_congr {f : Handle → Handle} {g : Context → Context} (type : Ty) (policy : Policy)
    (hsession : Compile.session (g c).setting type = Compile.session c.setting type)
    (hhandle : ∀ c, (g c).handle? type policy = (c.handle? type policy).map f)
    (hhit : (g c).countHit = g c.countHit)
    (hfailure : ∀ n, (g c).countFailure n = g (c.countFailure n))
    (hpublish : ∀ codecs n, (g c).publish codecs n = g (c.publish codecs n)) :
    (g c).request type policy =
      ((c.request type policy).1.map f, g (c.request type policy).2) := by
  simp only [request, hhandle, hsession, hhit, hfailure, hpublish]
  cases c.handle? type policy with
  | some h => rfl
  | none =>
    simp only [Option.map_none]
    cases Compile.outcome type (Compile.session c.setting type) with
    | error e => rfl
    | ok codecs =>
      simp only
      cases (c.publish codecs (Compile.session c.setting type).2.deferred).handle? type policy with
      | none => rfl
      | some h => rfl

/-- A request keeps the library complete, and what stays the same stays the same. -/
theorem complete_request (h : c.setting.Complete) (type : Ty) (policy : Policy) :
    (c.request type policy).2.setting.Complete ∧
      (c.request type policy).2.registry = c.registry ∧
      (c.request type policy).2.catalog = c.catalog ∧
      (c.request type policy).2.config = c.config := by
  have hserves := serves_request c type policy
  generalize c.request type policy = r at hserves ⊢
  cases hserves with
  | hit hfound => exact ⟨h, rfl, rfl, rfl⟩
  | refused hnew houtcome n => exact ⟨h, rfl, rfl, rfl⟩
  | compiled hnew houtcome n hfound =>
    exact ⟨h.publish (Compile.published_of_outcome hnew houtcome), rfl, rfl, rfl⟩

theorem complete_after (h : c.setting.Complete) (history : List (Ty × Policy)) :
    (c.after history).setting.Complete ∧ (c.after history).registry = c.registry ∧
      (c.after history).catalog = c.catalog ∧ (c.after history).config = c.config := by
  induction history generalizing c with
  | nil => exact ⟨h, rfl, rfl, rfl⟩
  | cons request rest ih =>
    obtain ⟨hcomplete, hregistry, hcatalog, hconfig⟩ := complete_request h request.1 request.2
    obtain ⟨hafter, hregistry', hcatalog', hconfig'⟩ := ih hcomplete
    exact ⟨hafter, hregistry'.trans hregistry, hcatalog'.trans hcatalog, hconfig'.trans hconfig⟩

theorem setting_complete_fresh (catalog : Catalog) (config : Config) :
    (fresh catalog config).setting.Complete where
  nodup := List.nodup_nil
  placed earlier x later hsplit := by
    change [] = earlier ++ x :: later at hsplit
    simp at hsplit

/-- A handle that is served comes from the library as it stands after the request. -/
theorem handle_of_request {type : Ty} {policy : Policy} {h : Handle}
    (hserved : (c.request type policy).1 = .ok h) :
    h.codec ∈ (c.request type policy).2.library.codecs ∧ h.codec.type = type ∧
      h.policy = policy ∧ h.maxDepth = c.config.maxDepth ∧
      h.library = (c.request type policy).2.library := by
  have hserves := serves_request c type policy
  generalize c.request type policy = r at hserves hserved ⊢
  cases hserves with
  | hit hfound =>
    cases hserved
    exact handle?_eq_some hfound
  | refused hnew houtcome n => cases hserved
  | compiled hnew houtcome n hfound =>
    cases hserved
    exact handle?_eq_some hfound

end Context

end SchemaPack
