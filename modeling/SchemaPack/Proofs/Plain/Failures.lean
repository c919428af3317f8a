import SchemaPack.Proofs.Library.Closure
import SchemaPack.Proofs.Plain.Agreement
import SchemaPack.Proofs.Plain.Traversal

/-!
What a step can fail with, by the steps it is made of. A codec that is served reaches only records
that are declared, so none of its failures comes from a record that is missing.
-/
namespace SchemaPack

def FailsOnly {ε σ α : Type} (P : ε → Prop) (m : EStateM ε σ α) : Prop :=
  ∀ s e s', m s = .error e s' → P e

namespace FailsOnly

variable {ε σ α β : Type} {P Q : ε → Prop}

theorem mono {m : EStateM ε σ α} (h : FailsOnly P m) (hPQ : ∀ e, P e → Q e) : FailsOnly Q m :=
  fun s e s' hfailed => hPQ e (h s e s' hfailed)

theorem pure (a : α) : FailsOnly P (Pure.pure a : EStateM ε σ α) := by
  intro s e s' h
  cases h

theorem throw {e : ε} (he : P e) : FailsOnly P (MonadExcept.throw e : EStateM ε σ α) := by
  intro s e' s' h
  cases h
  exact he

/-- The second step need only be looked at where the first one has succeeded. -/
theorem bind_of_ok {m : EStateM ε σ α} {f : α → EStateM ε σ β} (hm : FailsOnly P m)
    (hf : ∀ s a s', m s = .ok a s' → FailsOnly P (f a)) : FailsOnly P (m >>= f) := by
  intro s e s' h
  rcases Outcome.bind_eq_error.mp h with hfailed | ⟨a, middle, hok, hfailed⟩
  · exact hm _ _ _ hfailed
  · exact hf _ _ _ hok _ _ _ hfailed

theorem bind {m : EStateM ε σ α} {f : α → EStateM ε σ β} (hm : FailsOnly P m)
    (hf : ∀ a, FailsOnly P (f a)) : FailsOnly P (m >>= f) :=
  hm.bind_of_ok fun _ a _ _ => hf a

theorem adaptExcept {m : EStateM ε σ α} {f : ε → ε} (hm : FailsOnly P m)
    (hQ : ∀ e, P e → Q (f e)) : FailsOnly Q (EStateM.adaptExcept f m) := by
  intro s e s' h
  obtain ⟨d, hfailed, rfl⟩ := Outcome.adaptExcept_eq_error.mp h
  exact hQ d (hm _ _ _ hfailed)

theorem sequential : Sequential fun (m : EStateM ε σ _) _ => FailsOnly P m := ⟨pure, bind⟩

theorem mapM {ι β : Type} {xs : List ι} {f : ι → EStateM ε σ β} (hf : ∀ x ∈ xs, FailsOnly P (f x)) :
    FailsOnly P (xs.mapM f) := sequential.mapM f f hf

theorem foldlM {ι β : Type} {xs : List ι} {f : β → ι → EStateM ε σ β}
    (hf : ∀ b, ∀ x ∈ xs, FailsOnly P (f b x)) (b : β) : FailsOnly P (xs.foldlM f b) :=
  sequential.foldlM f f hf b

end FailsOnly

theorem Write.failsOnly_append {P : CodecError → Prop} (bytes : List UInt8) :
    FailsOnly P (append bytes) := by
  intro output e after h
  cases h

def Catalog.Declares (c : Catalog) (t : Ty) : Prop :=
  ∀ name, t = .record name → ∃ r, c.find? name = some r

/-- Every record that a value of the type may hold is declared. -/
abbrev Catalog.Covers (c : Catalog) : Ty → Prop := Ty.Throughout c c.Declares

namespace Context

variable {catalog : Catalog} {config : Config} {history : List (Ty × Policy)} {type : Ty}
  {policy : Policy} {h : Handle}

/-- A type that is served reaches only records that are declared. -/
theorem covers_of_served
    (hserved : (((fresh catalog config).after history).request type policy).1 = .ok h) :
    catalog.Covers type := by
  obtain ⟨hfaithful, hcodec, htype, -, -⟩ := faithful_of_request hserved
  rintro _ hreaches name rfl
  exact hfaithful.find?_of_reaches (Compile.contains_iff.mpr ⟨h.codec, hcodec, htype⟩) hreaches

end Context

end SchemaPack
