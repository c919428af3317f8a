import SchemaPack.Proofs.Library.Asking
import SchemaPack.Proofs.Plain.Agreement
import SchemaPack.Provider.Sample

/-!
Providers in front of the built-in ones. A session looks at the registry only to choose emitters,
and only for the types that compiling its root involves. So a provider that takes none of these, and
none that is made nullable there, has no part in what a request comes to.
-/
namespace SchemaPack

namespace Compile

variable {setting : Setting}

/-- Compiling the first type asks for the second, at some depth. -/
def Setting.Involves (setting : Setting) : Ty → Ty → Prop :=
  Relation.ReflTransGen fun t u => ∃ isIndirect, setting.Requests t u isIndirect

theorem Setting.Involves.asked {root t u : Ty} {isIndirect : Bool} (h : setting.Involves root t)
    (hu : setting.Requests t u isIndirect) : setting.Involves root u :=
  Relation.ReflTransGen.tail h ⟨isIndirect, hu⟩

/-- What compiling involves does not depend on what is published already. -/
theorem Setting.Involves.withLibrary {root t : Ty} (h : setting.Involves root t)
    (library : Library) : { setting with library }.Involves root t := by
  refine Relation.ReflTransGen.mono ?_ _ _ h
  rintro a b ⟨isIndirect, hrequests⟩
  refine ⟨isIndirect, ?_⟩
  cases hrequests with
  | inner hselect => exact .inner hselect
  | written hselect hmem => exact .written hselect hmem
  | read hselect hmem => exact .read hselect hmem

/-- With the built-in providers, compiling a type involves only types that are reached from it. -/
theorem Setting.Involves.reaches (hregistry : setting.registry = .standard) {root t : Ty}
    (h : setting.Involves root t) : Ty.Reaches setting.catalog root t := by
  induction h with
  | refl => exact .refl _
  | tail _ hstep ih =>
    obtain ⟨isIndirect, hrequests⟩ := hstep
    exact ih.trans (hrequests.asksPart hregistry).reaches

/-- With another registry, every type that compiling the root involves has the emitter it had. -/
def Setting.ChoosesAlike (setting : Setting) (registry : Registry) (root : Ty) : Prop :=
  ∀ t, setting.Involves root t → { setting with registry : Setting }.select t = setting.select t

namespace Session

variable {registry : Registry}

/-- Registries that choose alike compile alike, whatever the session has come to. -/
theorem compile_congr {root : Ty} (h : setting.ChoosesAlike registry root) (room : Nat) {t : Ty}
    (ht : setting.Involves root t) (isIndirect : Bool) :
    compile { setting with registry } room t isIndirect = compile setting room t isIndirect := by
  induction room generalizing t isIndirect with
  | zero => rfl
  | succ room ih =>
    funext s
    rw [compile, compile, h t ht]
    cases hselect : setting.select t with
    | error problem => rfl
    | ok emitter =>
      have hroutines : ∀ s : Session, s.routines { setting with registry }
          (edge { setting with registry } (compile { setting with registry } room)) t emitter =
            s.routines setting (edge setting (compile setting room)) t emitter := by
        refine fun s => routines_congr { setting with registry } (fun _ => True) hselect rfl
          (fun _ _ _ => trivial)
          (fun u i s hu _ => ⟨edge_congr rfl fun _ _ => ?_, trivial⟩) s trivial
        exact congrFun (ih (ht.asked hu) i) s
      simp only [hroutines]

end Session

theorem session_congr {registry : Registry} {root : Ty}
    (h : setting.ChoosesAlike registry root) :
    session { setting with registry } root = session setting root :=
  congrFun (Session.compile_congr h setting.maxDepth .refl false) {}

end Compile

/-! ## Providers that take nothing -/

/-- The provider takes neither the type nor the type that it makes nullable. -/
def Provider.Ignores (p : Provider) (c : Catalog) (t : Ty) : Prop :=
  p.accepts t c = false ∧ ∀ inner, t = .nullable inner → p.accepts inner c = false

theorem Registry.resolve_withProviders {providers : List Provider} {c : Catalog} {t : Ty}
    (h : ∀ p ∈ providers, p.accepts t c = false) :
    (withProviders providers true).resolve t c = standard.resolve t c := by
  have hnone : providers.find? (·.accepts t c) = none :=
    List.find?_eq_none.mpr fun p hp => by simp [h p hp]
  simp only [resolve, withProviders, standard, if_true, List.find?_append, hnone, Option.none_or]

namespace Compile

variable {setting : Setting} {providers : List Provider}

theorem select_withProviders (hregistry : setting.registry = .standard) {t : Ty}
    (h : ∀ p ∈ providers, p.Ignores setting.catalog t) :
    { setting with registry := .withProviders providers true : Setting }.select t =
      setting.select t := by
  have hresolve := Registry.resolve_withProviders fun p hp => (h p hp).1
  cases t with
  | nullable inner =>
    have hinner := Registry.resolve_withProviders fun p hp => (h p hp).2 inner rfl
    simp only [Setting.select, hregistry, hresolve, hinner]
  | _ => simp only [Setting.select, hregistry, hresolve]

end Compile

namespace Context

def withProviders (c : Context) (providers : List Provider) : Context :=
  { c with registry := .withProviders providers true }

variable {c : Context} {providers : List Provider}

theorem request_withProviders (hregistry : c.registry = .standard) {type : Ty}
    (h : ∀ t, c.setting.Involves type t → ∀ p ∈ providers, p.Ignores c.catalog t)
    (policy : Policy) :
    (c.withProviders providers).request type policy =
      ((c.request type policy).1, (c.request type policy).2.withProviders providers) := by
  have halike : c.setting.ChoosesAlike (.withProviders providers true) type := fun t ht =>
    Compile.select_withProviders hregistry (h t ht)
  have hsession : Compile.session (c.withProviders providers).setting type =
      Compile.session c.setting type := Compile.session_congr halike
  have hrequest := request_congr (f := id) (g := (·.withProviders providers)) type policy hsession
    (fun c => Option.map_id_apply.symm) rfl (fun _ => rfl) fun _ _ => rfl
  rwa [Except.map_id] at hrequest

/-- A request changes nothing that sessions compile against, apart from the library. -/
theorem setting_request (c : Context) (type : Ty) (policy : Policy) :
    (c.request type policy).2.setting =
      { c.setting with library := (c.request type policy).2.library } := by
  have hserves := serves_request c type policy
  generalize c.request type policy = r at hserves ⊢
  cases hserves with
  | hit | refused | compiled => rfl

theorem setting_after (c : Context) (history : List (Ty × Policy)) :
    (c.after history).setting = { c.setting with library := (c.after history).library } := by
  induction history generalizing c with
  | nil => rfl
  | cons asked rest ih => rw [after, ih, setting_request]

theorem after_withProviders (hregistry : c.registry = .standard) {history : List (Ty × Policy)}
    (h : ∀ asked ∈ history, ∀ t, c.setting.Involves asked.1 t →
      ∀ p ∈ providers, p.Ignores c.catalog t) :
    (c.withProviders providers).after history = (c.after history).withProviders providers := by
  induction history generalizing c with
  | nil => rfl
  | cons asked rest ih =>
    obtain ⟨type, policy⟩ := asked
    have hsetting := setting_request c type policy
    have hkeeps : (c.request type policy).2.registry = .standard :=
      (congrArg Compile.Setting.registry hsetting).trans hregistry
    have hcatalog : (c.request type policy).2.catalog = c.catalog :=
      congrArg Compile.Setting.catalog hsetting
    rw [after, after, request_withProviders hregistry (h _ List.mem_cons_self)]
    refine ih hkeeps fun asked hasked t ht => ?_
    rw [hcatalog]
    refine h asked (List.mem_cons_of_mem _ hasked) t ?_
    rw [hsetting] at ht
    exact ht.withLibrary c.library

/-- It is enough that the provider takes none of the types that are reached from a type. -/
theorem ignores_of_throughout {p : Provider} {catalog : Catalog} (config : Config) {type : Ty}
    (h : Ty.Throughout catalog (fun t => p.accepts t catalog = false) type) {t : Ty}
    (ht : (fresh catalog config).setting.Involves type t) : p.Ignores catalog t := by
  have hreaches := ht.reaches rfl
  refine ⟨h t hreaches, ?_⟩
  rintro inner rfl
  exact h inner (hreaches.trans (Ty.Indirect.inner inner).part.reaches)

/-- A provider in front of the built-in ones touches only the types that it takes. Where it takes
nothing that compiling a type involves, and nothing that is made nullable there, the context with it
and the context with the built-in providers alone come to the same: to the same error, or to the
same codec and the same codecs behind its edges. So it is after requests for other such types. -/
theorem custom_provider_touches_own_types (p : Provider) (catalog : Catalog) (config : Config)
    {history : List (Ty × Policy)} {type : Ty}
    (hbefore : ∀ asked ∈ history, ∀ t, (fresh catalog config).setting.Involves asked.1 t →
      p.Ignores catalog t)
    (hignores : ∀ t, (fresh catalog config).setting.Involves type t → p.Ignores catalog t)
    (policy : Policy) :
    ((((fresh catalog config).withProviders [p]).after history).request type policy).1 =
      (((fresh catalog config).after history).request type policy).1 := by
  have hafter : ((fresh catalog config).withProviders [p]).after history =
      ((fresh catalog config).after history).withProviders [p] := by
    refine after_withProviders rfl fun asked hasked t ht => ?_
    exact List.forall_mem_singleton.mpr (hbefore asked hasked t ht)
  have hsetting := setting_after (fresh catalog config) history
  generalize (fresh catalog config).after history = c at hafter hsetting ⊢
  have hregistry : c.registry = .standard := congrArg Compile.Setting.registry hsetting
  have hcatalog : c.catalog = catalog := congrArg Compile.Setting.catalog hsetting
  rw [hafter, request_withProviders hregistry]
  intro t ht
  rw [hsetting] at ht
  rw [hcatalog, List.forall_mem_singleton]
  exact hignores t (ht.withLibrary {})

def folderTypes : List Ty :=
  [.record ⟨"Folder"⟩, .primitive .string, .list (.record ⟨"File"⟩), .record ⟨"File"⟩,
    .primitive (.int .u32), .nullable (.record ⟨"Folder"⟩), .record ⟨"Disk"⟩]

theorem textInt_ignores_folders {type : Ty} (htype : type ∈ folderTypes) {t : Ty}
    (ht : (fresh folders {}).setting.Involves type t) : Provider.textInt.Ignores folders t :=
  ignores_of_throughout {}
    (Ty.throughout_of_closed folderTypes (by decide) (by decide) htype) ht

/-- The provider of numbers as texts takes no part in folders. -/
theorem textInt_leaves_folders : ∃ h,
    (((fresh folders {}).after folderHistory).request (.record ⟨"Folder"⟩) .throw).1 = .ok h ∧
      ((((fresh folders {}).withProviders [.textInt]).after folderHistory).request
        (.record ⟨"Folder"⟩) .throw).1 = .ok h := by
  obtain ⟨h, hserved⟩ := folder_is_served
  have hasked : ∀ asked ∈ folderHistory, asked.1 ∈ folderTypes := by decide
  have hfolder : Ty.record ⟨"Folder"⟩ ∈ folderTypes := List.mem_cons_self
  have hsame := custom_provider_touches_own_types .textInt folders {}
    (fun asked h _ => textInt_ignores_folders (hasked asked h))
    (fun _ => textInt_ignores_folders hfolder) .throw
  exact ⟨h, hserved, hsame.trans hserved⟩

end Context

end SchemaPack
