import SchemaPack.Proofs.Library.Cache
import SchemaPack.Proofs.Library.DirectCycles
import SchemaPack.Proofs.Plain.Agreement

/-!
Who holds whom among the published codecs. A ready edge holds the codec that it leads to, a deferred
one holds nothing. The codecs of a session are handed over in one list, each behind all that it
holds, and the lists of the sessions follow one another; so holding leads to ever earlier places.
-/
namespace SchemaPack

open Relation (TransGen)

namespace Compile

variable {setting : Setting} {type : Ty} {codecs : List CompiledCodec}

theorem Session.finished_of_close {s s' : Session} {name : String}
    {outcome : Except Problem (Routine × Routine)} {before : Nat}
    (h : s.close type name outcome before = (true, s')) :
    ∃ x, s'.finished = s.finished ++ [x] ∧ x.type = type := by
  have hended := ended_close s type name outcome before
  rw [h] at hended
  cases hended with
  | finished => exact ⟨_, rfl, rfl⟩

/-- A type that has been compiled is the last one finished. -/
theorem Session.finished_of_compile {room : Nat} {isIndirect : Bool} {s s' : Session}
    (h : compile setting room type isIndirect s = (true, s')) :
    ∃ needed x, s'.finished = needed ++ [x] ∧ x.type = type := by
  cases room with
  | zero => cases h
  | succ room =>
    rw [compile] at h
    split at h
    · cases h
    · -- the codec is put behind all others when the work on the type is closed without a problem
      exact ⟨_, finished_of_close h⟩

theorem last_of_outcome (h : outcome type (session setting type) = .ok codecs) :
    ∃ needed x, codecs = needed ++ [x] ∧ x.type = type := by
  unfold outcome at h
  split at h
  · rename_i hsuccess
    cases h
    have hdone : (session setting type).1 = true := (Bool.and_eq_true_iff.mp hsuccess).1
    exact Session.finished_of_compile (Prod.ext hdone rfl)
  · cases h

end Compile

/-- What a session hands over for a type, behind the codecs that were published before it: one codec
a type, the requested one at the end. A ready edge leads to a codec that was there before or stands
further in front, a deferred edge to one that stands no further in front than the codec that has the
edge. -/
structure Handover (before : List CompiledCodec) (type : Ty) (codecs : List CompiledCodec) :
    Prop where
  nodup : ((before ++ codecs).map (·.type)).Nodup
  last : ∃ needed x, codecs = needed ++ [x] ∧ x.type = type
  placed : ∀ earlier x later, codecs = earlier ++ x :: later →
    ∀ e ∈ x.writer.edges ++ x.reader.edges,
      (e.link = .ready ∧ ∃ d ∈ before ++ earlier, d.type = e.type) ∨
        (e.link = .deferred ∧ ∃ d ∈ x :: later, d.type = e.type)

theorem Compile.Setting.Complete.handover {setting : Setting} (h : setting.Complete)
    (hregistry : setting.registry = .standard) {type : Ty} {codecs : List CompiledCodec}
    (hnew : setting.library.contains type = false)
    (houtcome : outcome type (session setting type) = .ok codecs) :
    Handover setting.library.codecs type codecs := by
  have hcomplete := h.publish (published_of_outcome hnew houtcome)
  refine ⟨hcomplete.nodup, last_of_outcome houtcome, fun earlier x later hsplit => ?_⟩
  refine (hcomplete.faithful hregistry).layered (setting.library.codecs ++ earlier) x later ?_
  rw [hsplit, List.append_assoc]

/-- A deferred edge finds the codec of its type that the same session has handed over, which is its
own holder or was finished later. It finds no other after any further sessions. -/
theorem Handover.resolve_deferred {before codecs : List CompiledCodec} {type : Ty}
    (h : Handover before type codecs) {earlier later : List CompiledCodec} {x : CompiledCodec}
    (hsplit : codecs = earlier ++ x :: later) {e : Edge}
    (he : e ∈ x.writer.edges ++ x.reader.edges) (hdeferred : e.link = .deferred)
    (more : List CompiledCodec) :
    ∃ y ∈ x :: later, y.type = e.type ∧
      (⟨before ++ codecs ++ more⟩ : Library).resolve e.type e.link = .ok y := by
  rcases h.placed earlier x later hsplit e he with ⟨hready, -⟩ | ⟨-, y, hy, htype⟩
  · cases hready.symm.trans hdeferred
  · have hmem : y ∈ before ++ codecs := by
      rw [hsplit]
      exact List.mem_append_right _ (List.mem_append_right _ hy)
    obtain ⟨serial, hserial⟩ := List.getElem?_of_mem hmem
    obtain ⟨hfind, -⟩ := Library.find?_of_serial h.nodup hserial
    rw [Library.find?, htype] at hfind
    refine ⟨y, hy, htype, ?_⟩
    rw [hdeferred, Library.resolve, Library.find?, List.find?_append, hfind]
    rfl

namespace Library

variable {c : Catalog} {lib : Library}

/-- A published codec holds another, through a ready edge of one of its routines. -/
def Owns (lib : Library) (x y : CompiledCodec) : Prop :=
  x ∈ lib.codecs ∧ ∃ e ∈ x.writer.edges ++ x.reader.edges,
    e.link = .ready ∧ lib.resolve e.type e.link = .ok y

theorem type_of_resolve {t : Ty} {x : CompiledCodec} (h : lib.resolve t .ready = .ok x) :
    x.type = t := by
  simp only [resolve] at h
  split at h
  · rename_i y hfind
    cases h
    simpa using List.find?_some hfind
  · cases h

/-- What is held stands further in front. -/
theorem Faithful.rank_lt_of_owns (h : lib.Faithful c) (hnodup : (lib.codecs.map (·.type)).Nodup)
    {x y : CompiledCodec} (howns : lib.Owns x y) : lib.rank y.type < lib.rank x.type := by
  obtain ⟨hx, e, he, hready, hresolve⟩ := howns
  rw [hready] at hresolve
  obtain ⟨earlier, later, hsplit⟩ := List.append_of_mem hx
  have hfirst : ∀ d ∈ earlier, d.type ≠ x.type := by
    intro d hd heq
    rw [hsplit, List.map_append, List.nodup_append] at hnodup
    exact hnodup.2.2 _ (List.mem_map_of_mem hd) _ (List.mem_map_of_mem List.mem_cons_self) heq
  have hwhole := length_le_rank hsplit hfirst
  rcases h.layered earlier x later hsplit e he with ⟨-, d, hd, htype⟩ | ⟨hdeferred, -⟩
  · have hpart := rank_lt_length hsplit hd
    rw [htype, ← type_of_resolve hresolve] at hpart
    omega
  · cases hready.symm.trans hdeferred

theorem Faithful.not_owns_itself (h : lib.Faithful c) (hnodup : (lib.codecs.map (·.type)).Nodup)
    (x : CompiledCodec) : ¬ TransGen lib.Owns x x := by
  have hlt : ∀ {x y}, TransGen lib.Owns x y → lib.rank y.type < lib.rank x.type := by
    intro x y hchain
    induction hchain with
    | single howns => exact h.rank_lt_of_owns hnodup howns
    | tail _ howns ih => exact Nat.lt_trans (h.rank_lt_of_owns hnodup howns) ih
  exact fun hcycle => Nat.lt_irrefl _ (hlt hcycle)

end Library

/-! ## The sessions of a run -/

namespace Context

variable {c : Context}

/-- The codecs that a request for a type adds, if it runs a session and the session succeeds. -/
def handedOver (c : Context) (type : Ty) : Option (List CompiledCodec) :=
  if c.isCompiled type then none
  else (Compile.outcome type (Compile.session c.setting type)).toOption

/-- The sessions of a run that succeed, each with the type that was requested and its codecs. -/
def sessions (c : Context) : List (Ty × Policy) → List (Ty × List CompiledCodec)
  | [] => []
  | (type, policy) :: rest =>
    match c.handedOver type with
    | some codecs => (type, codecs) :: (c.request type policy).2.sessions rest
    | none => (c.request type policy).2.sessions rest

/-- A request publishes what its session hands over, and nothing else. -/
theorem codecs_request (c : Context) (type : Ty) (policy : Policy) :
    (c.request type policy).2.library.codecs =
      c.library.codecs ++ (c.handedOver type).getD [] := by
  have hserves := serves_request c type policy
  generalize c.request type policy = r at hserves ⊢
  cases hserves with
  | hit hfound =>
    obtain ⟨hmem, htype, -⟩ := handle?_eq_some hfound
    have hknown : c.isCompiled type = true := Compile.contains_iff.mpr ⟨_, hmem, htype⟩
    rw [handedOver, if_pos hknown]
    exact (List.append_nil _).symm
  | refused hnew houtcome n =>
    have hunknown : ¬ c.isCompiled type = true := Bool.eq_false_iff.mp hnew
    rw [handedOver, if_neg hunknown, houtcome]
    exact (List.append_nil _).symm
  | compiled hnew houtcome n hfound =>
    have hunknown : ¬ c.isCompiled type = true := Bool.eq_false_iff.mp hnew
    rw [handedOver, if_neg hunknown, houtcome]
    rfl

theorem handover_of_handedOver (h : c.setting.Complete) (hregistry : c.registry = .standard)
    {type : Ty} {codecs : List CompiledCodec} (hcodecs : c.handedOver type = some codecs) :
    Handover c.library.codecs type codecs := by
  unfold handedOver at hcodecs
  split at hcodecs
  · cases hcodecs
  · rename_i hnew
    refine h.handover hregistry (Bool.eq_false_iff.mpr hnew) ?_
    generalize Compile.outcome type (Compile.session c.setting type) = r at hcodecs ⊢
    cases r with
    | error e => cases hcodecs
    | ok delivered =>
      cases hcodecs
      rfl

/-- The codecs of a run are those of its sessions one after the other, and each session hands its
codecs over to those before it. -/
theorem sessions_after (h : c.setting.Complete) (hregistry : c.registry = .standard)
    (history : List (Ty × Policy)) :
    (c.after history).library.codecs = c.library.codecs ++ (c.sessions history).flatMap (·.2) ∧
      ∀ before type codecs behind, c.sessions history = before ++ (type, codecs) :: behind →
        Handover (c.library.codecs ++ before.flatMap (·.2)) type codecs := by
  induction history generalizing c with
  | nil =>
    refine ⟨(List.append_nil _).symm, fun before type codecs behind hsplit => ?_⟩
    simp [sessions] at hsplit
  | cons asked rest ih =>
    obtain ⟨type, policy⟩ := asked
    obtain ⟨hcomplete, hkeeps, -⟩ := complete_request h type policy
    obtain ⟨hlibrary, hsessions⟩ := ih hcomplete (hkeeps.trans hregistry)
    have hcodecs := codecs_request c type policy
    rw [after, hlibrary]
    cases hdelivered : c.handedOver type with
    | none =>
      have hsame : c.sessions ((type, policy) :: rest) =
          (c.request type policy).2.sessions rest := by
        simp only [sessions, hdelivered]
      rw [hdelivered, Option.getD_none, List.append_nil] at hcodecs
      rw [hcodecs] at hsessions ⊢
      rw [hsame]
      exact ⟨rfl, hsessions⟩
    | some codecs =>
      have hmore : c.sessions ((type, policy) :: rest) =
          (type, codecs) :: (c.request type policy).2.sessions rest := by
        simp only [sessions, hdelivered]
      rw [hdelivered, Option.getD_some] at hcodecs
      rw [hcodecs] at hsessions ⊢
      rw [hmore, List.flatMap_cons, List.append_assoc]
      refine ⟨rfl, fun before type' codecs' behind hsplit => ?_⟩
      cases before with
      | nil =>
        cases hsplit
        rw [List.flatMap_nil, List.append_nil]
        exact handover_of_handedOver h hregistry hdelivered
      | cons first before =>
        obtain ⟨rfl, hrest⟩ := List.cons.inj hsplit
        rw [List.flatMap_cons, ← List.append_assoc]
        exact hsessions before type' codecs' behind hrest

/-- With the built-in providers and whatever is requested, the published codecs are those of the
successful sessions; every session hands its codecs over behind those of the sessions before it, the
requested one at the end, each behind all that it holds and not behind what it refers to through a
deferred edge. So no codec holds itself, however long the way round. -/
theorem ownership_is_acyclic (catalog : Catalog) (config : Config) (history : List (Ty × Policy)) :
    ((fresh catalog config).after history).library.codecs =
        ((fresh catalog config).sessions history).flatMap (·.2) ∧
      (∀ before type codecs behind,
        (fresh catalog config).sessions history = before ++ (type, codecs) :: behind →
          Handover (before.flatMap (·.2)) type codecs) ∧
      ∀ x, ¬ TransGen ((fresh catalog config).after history).library.Owns x x := by
  have hfresh := setting_complete_fresh catalog config
  obtain ⟨hcodecs, hsessions⟩ := sessions_after hfresh rfl history
  obtain ⟨hcomplete, hregistry, -⟩ := complete_after hfresh history
  exact ⟨hcodecs, hsessions, (hcomplete.faithful hregistry).not_owns_itself hcomplete.nodup⟩

/-- The file refers back to itself through the list of its folder, where it stands at the end; the
folder is a hit after that. -/
theorem file_handed_over : ∃ codecs,
    (fresh folders {}).sessions (folderHistory ++ [(.record ⟨"Folder"⟩, .throw)]) =
        [(.record ⟨"File"⟩, codecs)] ∧
      codecs.map (·.type) =
        [.primitive (.int .u32), .primitive .string, .list (.record ⟨"File"⟩),
          .record ⟨"Folder"⟩, .nullable (.record ⟨"Folder"⟩), .record ⟨"File"⟩] ∧
      Handover [] (.record ⟨"File"⟩) codecs := by
  have hruns : ((fresh folders {}).sessions (folderHistory ++ [(.record ⟨"Folder"⟩, .throw)])).map
      (fun s => (s.1, s.2.map (·.type))) =
        [(.record ⟨"File"⟩, [.primitive (.int .u32), .primitive .string,
          .list (.record ⟨"File"⟩), .record ⟨"Folder"⟩, .nullable (.record ⟨"Folder"⟩),
          .record ⟨"File"⟩])] := by
    decide
  obtain ⟨-, hsessions, -⟩ := ownership_is_acyclic folders {}
    (folderHistory ++ [(.record ⟨"Folder"⟩, .throw)])
  generalize (fresh folders {}).sessions _ = sessions at hruns hsessions ⊢
  obtain ⟨⟨type, codecs⟩, rest, rfl, hfirst, hrest⟩ := List.map_eq_cons_iff.mp hruns
  obtain rfl := List.map_eq_nil_iff.mp hrest
  obtain ⟨rfl, htypes⟩ := Prod.mk.inj hfirst
  exact ⟨codecs, rfl, htypes, hsessions [] _ _ [] rfl⟩

end Context

end SchemaPack
