import SchemaPack.Proofs.Admission
import SchemaPack.Proofs.Catalog.Declarations

/-!
The deep check asks more than the shallow one, and what it takes it takes for good: it only reads
definitions that the catalog has, and no declaration replaces one.
-/
namespace SchemaPack

namespace Value

/-- A check asks no more than one with a catalog, if it has no catalog itself or one that has all
those definitions. -/
theorem fits_of_growsTo {c : Catalog} {catalog : Option Catalog}
    (hgrown : ∀ next, catalog = some next → c.GrowsTo next) (v : Value) {t : Ty}
    (h : v.fits (some c) t = true) : v.fits catalog t = true := by
  -- the induction is on the value: a definition may lead back to the type, but not to the value
  induction v generalizing t with
  | null => exact h
  | bool => exact h
  | int => exact h
  | f32 => exact h
  | f64 => exact h
  | string => exact h
  | bytes => exact h
  | decimal => exact h
  | version => exact h
  | tuple items ih =>
    rw [fits] at h ⊢
    split at h
    · rw [fitsEach_iff, List.forall₂_iff_zip] at h ⊢
      exact ⟨h.1, fun hmem => ih _ (List.of_mem_zip hmem).1 (h.2 hmem)⟩
    · cases h
  | union alternative held ih =>
    rw [fits] at h ⊢
    split at h
    · rw [Bool.and_eq_true] at h ⊢
      exact ⟨h.1, ih h.2⟩
    · cases h
  | list items ih =>
    rw [fits] at h ⊢
    split at h
    · rw [fitsAll_iff] at h ⊢
      exact fun v hv => ih v hv (h v hv)
    · cases h
  | map entries ih =>
    rw [fits] at h ⊢
    split at h
    · rw [fitsEntries_iff] at h ⊢
      exact fun e he => ⟨(ih e he).1 (h e he).1, (ih e he).2 (h e he).2⟩
    · cases h
  | record fields ih =>
    rw [fits] at h ⊢
    split at h
    · rename_i name _
      rw [fitsRecord] at h
      split at h
      · rename_i r hfind
        cases catalog with
        | none => rfl
        | some next =>
          rw [fitsRecord, hgrown next rfl name r hfind]
          obtain ⟨hdeclared, hfields⟩ := RecordDef.admitsFields_iff.mp h
          refine RecordDef.admitsFields_iff.mpr ⟨hdeclared, fun f hf => ?_⟩
          obtain ⟨v, hget, hadmits⟩ := hfields f hf
          exact ⟨v, hget, ih _ (Fields.mem_of_get? hget) hadmits⟩
      · cases h
    · cases h

end Value

namespace Ty

/-- What the deep check takes the shallow one takes too, and the deep one goes on taking it whatever
else is declared or refused. -/
theorem deep_check_refines {t : Ty} {v : Value} {c : Catalog} (h : t.admitsIn c v = true) :
    t.admits v = true ∧ ∀ calls, t.admitsIn (c.declareAll calls) v = true := by
  constructor
  · refine v.fits_of_growsTo (fun next hnext => ?_) h
    cases hnext
  · intro calls
    refine v.fits_of_growsTo (fun next hnext => ?_) h
    cases hnext
    exact c.growsTo_declareAll calls

def shelf : RecordDef where
  name := ⟨"Shelf"⟩
  fields := [⟨"books", .list .bytes, none⟩, ⟨"next", .nullable (.record ⟨"Shelf"⟩), none⟩]

def twoShelves : Value :=
  .record [("books", .list []), ("next", .record [("books", .list []), ("next", .null)])]

/-- Two shelves are still taken after another record was refused their name. -/
theorem two_shelves_still_admitted :
    shelf.type.admits twoShelves = true ∧ ∀ calls,
      shelf.type.admitsIn ((({} : Catalog).declareAll [shelf, ⟨shelf.name, []⟩]).declareAll calls)
        twoShelves = true :=
  deep_check_refines (by decide)

end Ty

end SchemaPack
