import SchemaPack.Proofs.Plain.Attribution

/-!
Which failures a served codec can have. The plain interpreter fails on account of the data alone as
long as every record it may meet is declared, and the types that a served codec reaches are such. A
failed read is known to be located, so it is one of the input; the failures of writing are gone
through here.
-/
namespace SchemaPack

/-- A failure that the value to be written is the cause of. -/
def CodecError.OfValue (e : CodecError) : Prop :=
  (∃ w, e = .write w) ∨ ∃ u alternative, e = .internal (.unionAlternativeNotDeclared u alternative)

/-- A failure that the input is the cause of. -/
def CodecError.OfInput (e : CodecError) : Prop := ∃ r, e = .read r

variable {c : Catalog}

/-! ## Writing -/

namespace Write

theorem failsOnly_fail {α : Type} (fault : WriteFault) :
    FailsOnly CodecError.OfValue (fail fault : Write α) := .throw (Or.inl ⟨_, rfl⟩)

theorem failsOnly_within {α : Type} {step : Write α} (s : Segment)
    (h : FailsOnly CodecError.OfValue step) : FailsOnly CodecError.OfValue (within s step) := by
  refine h.adaptExcept ?_
  rintro e (⟨w, rfl⟩ | ⟨u, alternative, rfl⟩)
  · exact Or.inl ⟨_, rfl⟩
  · exact Or.inr ⟨u, alternative, rfl⟩

theorem keptByWriting_failsOnly :
    KeptByWriting fun (m : Write _) => FailsOnly CodecError.OfValue m where
  pure := .pure
  bind := .bind
  append := failsOnly_append
  fail := failsOnly_fail
  undeclared _ _ := .throw (Or.inr ⟨_, _, rfl⟩)
  within := failsOnly_within

end Write

/-- Writing fails only on account of the value. -/
theorem Plain.failsOnly_write (v : Value) {t : Ty} (h : c.Covers t) :
    FailsOnly CodecError.OfValue (write c v t) := by
  refine Write.keptByWriting_failsOnly.write v fun u hu name hname hnone => ?_
  obtain ⟨r, hfind⟩ := h u hu name hname
  rw [hnone] at hfind
  cases hfind

/-! ## Served codecs -/

namespace Context

variable {catalog : Catalog} {config : Config} {history : List (Ty × Policy)} {type : Ty}
  {policy : Policy} {h : Handle}

theorem failsOnly_write
    (hserved : (((fresh catalog config).after history).request type policy).1 = .ok h) (v : Value) :
    FailsOnly CodecError.OfValue (h.write v) := by
  rw [write_eq_plain hserved]
  exact Plain.failsOnly_write v (covers_of_served hserved)

theorem failsOnly_readWith
    (hserved : (((fresh catalog config).after history).request type policy).1 = .ok h)
    (behaviour : Policy) : FailsOnly CodecError.OfInput (h.readWith behaviour) :=
  (located_readWith hserved behaviour).mono fun _ he => he.imp fun _ h => h.1

/-- No served codec is broken. It fails to write only because of the value, or because a union holds
an alternative that is not declared, and it fails to read only because of the input; so no failure
tells of a poisoned routine or of a codec that is not there. -/
theorem served_codec_never_broken
    (hserved : (((fresh catalog config).after history).request type policy).1 = .ok h) :
    (∀ v output e after, h.write v output = .error e after → e.OfValue) ∧
      (∀ v e, h.encode v = .error e → e.OfValue) ∧
      (∀ behaviour cursor e after, h.readWith behaviour cursor = .error e after → e.OfInput) ∧
      ∀ behaviour bytes e, (h.withPolicy behaviour).decode bytes = .error e → e.OfInput := by
  refine ⟨fun v => failsOnly_write hserved v, ?_,
    fun behaviour => failsOnly_readWith hserved behaviour, ?_⟩
  · intro v e hfailed
    obtain ⟨output, hwrite⟩ := Handle.encode_eq_error.mp hfailed
    exact failsOnly_write hserved v _ _ _ hwrite
  · intro behaviour bytes e hfailed
    rcases Handle.decode_eq_error.mp hfailed with ⟨after, hread⟩ | ⟨v, after, -, -, rfl⟩
    · exact failsOnly_readWith hserved behaviour _ _ _ hread
    · exact ⟨_, rfl⟩

theorem served_folder_never_broken :
    ∃ h, (((fresh folders {}).after folderHistory).request (.record ⟨"Folder"⟩) .throw).1 = .ok h ∧
      (∀ v output e after, h.write v output = .error e after → e.OfValue) ∧
      (∀ v e, h.encode v = .error e → e.OfValue) ∧
      (∀ behaviour cursor e after, h.readWith behaviour cursor = .error e after → e.OfInput) ∧
      ∀ behaviour bytes e, (h.withPolicy behaviour).decode bytes = .error e → e.OfInput := by
  obtain ⟨h, hserved⟩ := folder_is_served
  exact ⟨h, hserved, served_codec_never_broken hserved⟩

end Context

end SchemaPack
