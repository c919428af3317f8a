import SchemaPack.Proofs.Library.Asking
import SchemaPack.Proofs.Library.DirectCycles
import SchemaPack.Proofs.Session.Room
import SchemaPack.Proofs.Session.Visits

/-!
Every session comes to an end. With the built-in providers it visits only types that are reached
from its root, each once, and these are finitely many however the records of the catalog lead to
each other. So what ends a session is that nothing new is left, and not its limit of depth.
-/
namespace SchemaPack

namespace Compile

/-- How the session for a type ends, given the types that are reached from it. -/
structure Ends (setting : Setting) (type : Ty) (reached : Finset Ty) : Prop where
  mem_iff : ∀ t, t ∈ reached ↔ Ty.Reaches setting.catalog type t
  visits_once : Session.VisitsOnce (· ∈ reached) setting.maxDepth {} (session setting type).2
    (sessionVisits setting type)
  visits_le : (sessionVisits setting type).length ≤ reached.card
  limit_irrelevant : reached.card ≤ setting.maxDepth → ∀ maxDepth, reached.card ≤ maxDepth →
    session { setting with maxDepth } type = session setting type

theorem exists_ends {setting : Setting} {type : Ty} (hregistry : setting.registry = .standard)
    (hlibrary : setting.library.contains type = false) : ∃ reached, Ends setting type reached := by
  have hfinite := Ty.finite_reaches setting.catalog type
  have hmem : ∀ t, t ∈ hfinite.toFinset ↔ Ty.Reaches setting.catalog type t :=
    fun t => hfinite.mem_toFinset
  have hroot : type ∈ hfinite.toFinset := (hmem type).mpr (.refl type)
  have hclosed : ∀ t ∈ hfinite.toFinset, ∀ u isIndirect, setting.Requests t u isIndirect →
      u ∈ hfinite.toFinset := fun t ht u isIndirect hu =>
    (hmem u).mpr (((hmem t).mp ht).trans (hu.asksPart hregistry).reaches)
  have hvisits := visitsOnce_session hclosed hroot hlibrary
  refine ⟨hfinite.toFinset, hmem, hvisits, ?_, fun hlimit maxDepth hlimit' => ?_⟩
  · calc (sessionVisits setting type).length
        = ((sessionVisits setting type).map (·.type)).toFinset.card := by
          rw [List.toFinset_card_of_nodup hvisits.once, List.length_map]
      _ ≤ hfinite.toFinset.card := Finset.card_le_card fun t ht => by
          obtain ⟨v, hv, rfl⟩ := List.mem_map.mp (List.mem_toFinset.mp ht)
          exact (hvisits.orderly v hv).reached
  · exact session_of_card_le hclosed hroot hlibrary hlimit hlimit'

end Compile

namespace Context

/-- Whatever the catalog, the limits and the requests before, the session for a type that is not
published ends: it visits types that are reached from its root, each once and with its frames within
the limit and apart, and no limit that allows for all of them makes a difference. -/
theorem sessions_end {catalog : Catalog} {config : Config} {history : List (Ty × Policy)}
    {type : Ty} (hnew : ((fresh catalog config).after history).isCompiled type = false) :
    ∃ reached, Compile.Ends ((fresh catalog config).after history).setting type reached := by
  obtain ⟨-, hregistry, -, -⟩ := complete_after (setting_complete_fresh catalog config) history
  exact Compile.exists_ends hregistry hnew

/-- A node and its cells lead to each other, and a session still visits each type once. -/
theorem grid_session_ends :
    (∃ reached, Compile.Ends ((fresh grid {}).after [(.record ⟨"Disk"⟩, .throw)]).setting
        (.record ⟨"Node"⟩) reached) ∧
      (Compile.sessionVisits ((fresh grid {}).after [(.record ⟨"Disk"⟩, .throw)]).setting
        (.record ⟨"Node"⟩)).map (·.type) =
          [.record ⟨"Node"⟩, .list (.record ⟨"Cell"⟩), .record ⟨"Cell"⟩] :=
  ⟨sessions_end (by decide), by decide⟩

end Context

end SchemaPack
