import SchemaPack.Proofs.Library.Faithful
import SchemaPack.Proofs.TypeGraph

/-!
Where a value lands that enters a faithful library. An edge that is not poisoned leads through the
wrappers for null to the codec of the type without its wrappers, and null stops at the first one.
-/
namespace SchemaPack

theorem Ty.unwrapped_nullable {t : Ty} (h : ∀ alternatives, t ≠ .union alternatives) :
    (Ty.nullable t).unwrapped = t.unwrapped := by
  cases t with
  | union alternatives => exact absurd rfl (h alternatives)
  | _ => rfl

/-- Without its wrappers, a nullable type is a nullable union. -/
theorem Ty.unwrapped_eq_nullable {t inner : Ty} (h : t.unwrapped = .nullable inner) :
    ∃ alternatives, inner = .union alternatives := by
  induction t with
  | nullable t ih =>
    by_cases hunion : ∃ alternatives, t = .union alternatives
    · obtain ⟨alternatives, rfl⟩ := hunion
      cases h
      exact ⟨alternatives, rfl⟩
    · rw [unwrapped_nullable fun alternatives heq => hunion ⟨alternatives, heq⟩] at h
      exact ih h
  | _ => cases h

/-- The outermost wrapper of a type that has any. -/
theorem Ty.eq_nullable_of_unwrapped_ne {t : Ty} (h : t.unwrapped ≠ t) :
    ∃ inner, t = .nullable inner ∧ ∀ alternatives, inner ≠ .union alternatives := by
  cases t with
  | nullable inner =>
    refine ⟨inner, rfl, ?_⟩
    rintro alternatives rfl
    exact h rfl
  | _ => exact absurd rfl h

@[simp]
theorem Ty.unwrapped_unwrapped (t : Ty) : t.unwrapped.unwrapped = t.unwrapped := by
  by_contra h
  obtain ⟨inner, heq, hunion⟩ := eq_nullable_of_unwrapped_ne h
  obtain ⟨alternatives, rfl⟩ := unwrapped_eq_nullable heq
  exact hunion alternatives rfl

theorem Ty.reaches_unwrapped {c : Catalog} (t : Ty) : Reaches c t t.unwrapped := by
  induction t with
  | nullable inner ih =>
    by_cases hwrapped : (Ty.nullable inner).unwrapped = .nullable inner
    · rw [hwrapped]
      exact .refl _
    · obtain ⟨_, hinner, hunion⟩ := eq_nullable_of_unwrapped_ne hwrapped
      cases hinner
      rw [unwrapped_nullable hunion]
      exact (Indirect.inner inner).part.reaches.trans ih
  | _ => exact .refl _

theorem Ty.Throughout.unwrapped {c : Catalog} {P : Ty → Prop} {t : Ty} (h : Throughout c P t) :
    Throughout c P t.unwrapped := h.reaches t.reaches_unwrapped

namespace Library

variable {c : Catalog} {lib : Library} {routine : CompiledCodec → Routine}

/-- The routines of one direction, writing or reading, of all published codecs. -/
structure Follows (c : Catalog) (lib : Library) (routine : CompiledCodec → Routine) : Prop where
  described : ∀ x ∈ lib.codecs, Routine.Describes c x.type (routine x)
  leads : ∀ x ∈ lib.codecs, ∀ e ∈ (routine x).edges, lib.Leads e

theorem Faithful.follows_writer (h : lib.Faithful c) : lib.Follows c CompiledCodec.writer :=
  ⟨h.writer, fun _ hx _ he => h.leads hx (List.mem_append_left _ he)⟩

theorem Faithful.follows_reader (h : lib.Faithful c) : lib.Follows c CompiledCodec.reader :=
  ⟨h.reader, fun _ hx _ he => h.leads hx (List.mem_append_right _ he)⟩

/-- An edge to a published type finds its codec unless it is poisoned. -/
theorem resolve_eq_ok {t : Ty} {link : Link} (ht : lib.contains t = true)
    (hlink : link ≠ .poisoned) : ∃ x ∈ lib.codecs, x.type = t ∧ lib.resolve t link = .ok x := by
  obtain ⟨y, hy, hty⟩ := Compile.contains_iff.mp ht
  have hsome : (lib.find? t).isSome = true :=
    List.find?_isSome.mpr ⟨y, hy, beq_iff_eq.mpr hty⟩
  obtain ⟨x, hfind⟩ := Option.isSome_iff_exists.mp hsome
  refine ⟨x, List.mem_of_find?_eq_some hfind, by simpa using List.find?_some hfind, ?_⟩
  cases link with
  | ready => simp only [resolve, hfind]
  | deferred => simp only [resolve, hfind]
  | poisoned => exact absurd rfl hlink

/-- A type that is not nullable is served by its own codec. -/
theorem land_of_not_nullable {t : Ty} {link : Link} {x : CompiledCodec} {isAbsent : Bool}
    (ht : t.isNullable = false) (hresolve : lib.resolve t link = .ok x) :
    lib.land routine isAbsent t link = .codec x := by
  cases t with
  | nullable inner => cases ht
  | _ => simp only [land, hresolve]

/-- A present value lands at the codec of the type without its wrappers. -/
theorem Follows.land_present (h : lib.Follows c routine) {t : Ty} {link : Link}
    (ht : lib.contains t = true) (hlink : link ≠ .poisoned) :
    ∃ x ∈ lib.codecs, x.type = t.unwrapped ∧ lib.land routine false t link = .codec x := by
  induction t generalizing link with
  | nullable inner ih =>
    obtain ⟨x, hx, htype, hresolve⟩ := resolve_eq_ok ht hlink
    have hdescribed := h.described x hx
    rw [htype] at hdescribed
    generalize hroutine : routine x = r at hdescribed
    cases hdescribed with
    | nullableUnion edges _ =>
      exact ⟨x, hx, htype, by simp only [land, hresolve, hroutine]⟩
    | nullable e hunion =>
      obtain ⟨hne, hcontains⟩ := h.leads x hx e (by rw [hroutine]; exact List.mem_cons_self)
      obtain ⟨y, hy, hytype, hland⟩ := ih hcontains hne
      rw [Ty.unwrapped_nullable hunion]
      refine ⟨y, hy, hytype, ?_⟩
      simpa only [land, hresolve, hroutine, Bool.false_eq_true, if_false] using hland
  | _ =>
    obtain ⟨x, hx, htype, hresolve⟩ := resolve_eq_ok ht hlink
    exact ⟨x, hx, htype, land_of_not_nullable rfl hresolve⟩

/-- Null stops at a wrapper. -/
theorem Follows.land_absent (h : lib.Follows c routine) {inner : Ty} {link : Link}
    (ht : lib.contains (.nullable inner) = true) (hlink : link ≠ .poisoned)
    (hunion : ∀ alternatives, inner ≠ .union alternatives) :
    lib.land routine true (.nullable inner) link = .absent := by
  obtain ⟨x, hx, htype, hresolve⟩ := resolve_eq_ok ht hlink
  have hdescribed := h.described x hx
  rw [htype] at hdescribed
  generalize hroutine : routine x = r at hdescribed
  cases hdescribed with
  | nullableUnion edges _ => exact absurd rfl (hunion _)
  | nullable e _ => simp only [land, hresolve, hroutine, if_pos]

/-- Null passes on to the codec of a type that takes care of null itself. -/
theorem Follows.land_null (h : lib.Follows c routine) {t : Ty} {link : Link}
    (ht : lib.contains t = true) (hlink : link ≠ .poisoned)
    (hwrapped : t.unwrapped = t) :
    ∃ x ∈ lib.codecs, x.type = t ∧ ∀ isAbsent, lib.land routine isAbsent t link = .codec x := by
  obtain ⟨x, hx, htype, hresolve⟩ := resolve_eq_ok ht hlink
  refine ⟨x, hx, htype, fun isAbsent => ?_⟩
  cases t with
  | nullable inner =>
    obtain ⟨alternatives, hinner⟩ := Ty.unwrapped_eq_nullable hwrapped
    have hdescribed := h.described x hx
    rw [htype] at hdescribed
    generalize hroutine : routine x = r at hdescribed
    cases hdescribed with
    | nullableUnion edges _ => simp only [land, hresolve, hroutine]
    | nullable e hunion => exact absurd hinner (hunion alternatives)
  | _ => exact land_of_not_nullable rfl hresolve

end Library

end SchemaPack
