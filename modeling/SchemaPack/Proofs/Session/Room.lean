import Mathlib.Data.Finset.Card
import SchemaPack.Proofs.Session.Requests
import SchemaPack.Proofs.Session.Run

/-!
How much room a session can use. Beginning a type leaves one less that has not been met, so a
session that finds its types among finitely many is the same whatever its limit of depth, once the
limit is no smaller than their number. This holds for any registry.
-/
namespace SchemaPack.Compile.Session

/-- How many of the types the session has not met. -/
def unmet (types : Finset Ty) (s : Session) : Nat := (types.filter (s.entry? · = none)).card

variable {setting : Setting} {types : Finset Ty} {s s' : Session} {t : Ty}

theorem unmet_le_of_grows (h : Grows s s') : unmet types s' ≤ unmet types s := by
  refine Finset.card_le_card fun u hu => ?_
  obtain ⟨hmem, hnew⟩ := Finset.mem_filter.mp hu
  refine Finset.mem_filter.mpr ⟨hmem, ?_⟩
  cases hentry : s.entry? u with
  | none => rfl
  | some e => cases (h.entry hentry).symm.trans hnew

theorem unmet_start_lt (ht : t ∈ types) (hnew : s.entry? t = none) (frame : Frame) :
    unmet types ((s.enter t .compiling).push frame) < unmet types s := by
  have hbegun : entry? ((s.enter t .compiling).push frame) t = some .compiling :=
    entry?_enter_self s t .compiling
  have hsubset :
      types.filter (fun u => entry? ((s.enter t .compiling).push frame) u = none) ⊆
        types.filter (s.entry? · = none) := by
    intro u hu
    obtain ⟨hmem, hstill⟩ := Finset.mem_filter.mp hu
    have hne : u ≠ t := by
      rintro rfl
      cases hbegun.symm.trans hstill
    exact Finset.mem_filter.mpr ⟨hmem, (entry?_enter_of_ne hne).symm.trans hstill⟩
  refine Finset.card_lt_card ((Finset.ssubset_iff_of_subset hsubset).mpr ⟨t, ?_, fun hmem => ?_⟩)
  · exact Finset.mem_filter.mpr ⟨ht, hnew⟩
  · cases hbegun.symm.trans (Finset.mem_filter.mp hmem).2

/-- Compilations with room for all types that are still to be met are the same. -/
theorem compile_of_unmet_le
    (hclosed : ∀ t ∈ types, ∀ u isIndirect, setting.Requests t u isIndirect → u ∈ types)
    (maxDepth room room' : Nat) (t : Ty) (isIndirect : Bool) (s : Session) (h : Sound setting s)
    (ht : t ∈ types) (hnew : s.entry? t = none) (hlibrary : setting.library.contains t = false)
    (hroom : unmet types s ≤ room) (hroom' : unmet types s ≤ room') :
    compile { setting with maxDepth } room' t isIndirect s =
      compile setting room t isIndirect s := by
  induction room generalizing t isIndirect s room' with
  | zero => exact absurd (unmet_start_lt ht hnew ⟨t, isIndirect⟩) (by omega)
  | succ room ih =>
    cases room' with
    | zero => exact absurd (unmet_start_lt ht hnew ⟨t, isIndirect⟩) (by omega)
    | succ room' =>
      have hselect' : { setting with maxDepth : Setting }.select t = setting.select t := rfl
      rw [compile, compile, hselect']
      cases hselect : setting.select t with
      | error problem => rfl
      | ok emitter =>
        let begun := (s.enter t .compiling).push ⟨t, isIndirect⟩
        have hless : unmet types begun < unmet types s := unmet_start_lt ht hnew _
        have hgive : ∀ t isIndirect s, Sound setting s →
            Gives setting s t (edge setting (compile setting room) t isIndirect s) :=
          fun t isIndirect s hs => gives_edge (compiles_compile room) t isIndirect hs
        have hroutines : begun.routines { setting with maxDepth }
            (edge { setting with maxDepth } (compile { setting with maxDepth } room')) t emitter =
              begun.routines setting (edge setting (compile setting room)) t emitter := by
          -- all through the work on the type there are at most as many left to meet as at its start
          refine routines_congr { setting with maxDepth } (Proceeds setting begun) hselect rfl ?_ ?_
            begun
            (.refl (sound_start h hnew hlibrary))
          · intro s₁ problem hs₁
            exact hs₁.trans (proceeds_report hs₁.sound problem)
          · intro u i s₁ hu hs₁
            have hleft : unmet types s₁ ≤ unmet types begun := unmet_le_of_grows hs₁.grows
            refine ⟨edge_congr rfl fun hunpublished hfirst => ?_,
              hs₁.trans (hgive u i s₁ hs₁.sound).proceeds⟩
            exact ih room' u i s₁ hs₁.sound (hclosed t ht u i hu) hfirst hunpublished (by omega)
              (by omega)
        simp only [begun] at hroutines
        simp only [hroutines]

end SchemaPack.Compile.Session

namespace SchemaPack.Compile

/-- With a limit no smaller than the number of types it can meet, a session is the same as with any
other such limit. -/
theorem session_of_card_le {setting : Setting} {types : Finset Ty} {type : Ty}
    (hclosed : ∀ t ∈ types, ∀ u isIndirect, setting.Requests t u isIndirect → u ∈ types)
    (htype : type ∈ types) (hlibrary : setting.library.contains type = false)
    (hlimit : types.card ≤ setting.maxDepth) {maxDepth : Nat} (hlimit' : types.card ≤ maxDepth) :
    session { setting with maxDepth } type = session setting type := by
  have hunmet : Session.unmet types {} ≤ types.card := Finset.card_filter_le _ _
  exact Session.compile_of_unmet_le hclosed maxDepth setting.maxDepth maxDepth type false {}
    (Session.sound_empty setting) htype rfl hlibrary (hunmet.trans hlimit) (hunmet.trans hlimit')

end SchemaPack.Compile
