import SchemaPack.Proofs.Plain.Recovery
import SchemaPack.Proofs.Plain.Traversal

/-!
Writing appends and does nothing else. The bytes that a value adds to the output, and the way in
which writing it ends, are the same whatever the output holds.
-/
namespace SchemaPack

namespace Wire.Output

theorem append_nil (output : Output) : output.append [] = output := by
  simp [append]

theorem append_append (output : Output) (front back : List UInt8) :
    (output.append front).append back = output.append (front ++ back) := by
  simp only [append, mk.injEq]
  exact Array.ext' (by simp)

end Wire.Output

namespace Write

variable {α β : Type}

/-- To every output the step appends the bytes, and it ends in the outcome. -/
def Appends (step : Write α) (bytes : List UInt8) : Except CodecError α → Prop
  | .ok a => ∀ output, step output = .ok a (output.append bytes)
  | .error e => ∀ output, step output = .error e (output.append bytes)

/-- What the step appends and how it ends does not depend on the output. -/
def OnlyAppends (step : Write α) : Prop := ∃ bytes outcome, step.Appends bytes outcome

theorem onlyAppends_append (bytes : List UInt8) : (append bytes).OnlyAppends :=
  ⟨bytes, .ok (), fun _ => rfl⟩

theorem onlyAppends_pure (a : α) : OnlyAppends (pure a) :=
  ⟨[], .ok a, fun output => congrArg (EStateM.Result.ok a) output.append_nil.symm⟩

theorem onlyAppends_throw (e : CodecError) : OnlyAppends (throw e : Write α) :=
  ⟨[], .error e, fun output => congrArg (EStateM.Result.error e) output.append_nil.symm⟩

theorem onlyAppends_fail (fault : WriteFault) : OnlyAppends (fail fault : Write α) :=
  onlyAppends_throw _

theorem OnlyAppends.bind {first : Write α} {second : α → Write β} (hfirst : first.OnlyAppends)
    (hsecond : ∀ a, (second a).OnlyAppends) : OnlyAppends (first >>= second) := by
  obtain ⟨front, outcome, hfront⟩ := hfirst
  cases outcome with
  | error e =>
    exact ⟨front, .error e, fun output => Outcome.bind_of_error (hfront output)⟩
  | ok a =>
    obtain ⟨back, outcome, hback⟩ := hsecond a
    cases outcome with
    | ok b =>
      refine ⟨front ++ back, .ok b, fun output => ?_⟩
      rw [Outcome.bind_of_ok (hfront output), hback (output.append front), output.append_append]
    | error e =>
      refine ⟨front ++ back, .error e, fun output => ?_⟩
      rw [Outcome.bind_of_ok (hfront output), hback (output.append front), output.append_append]

theorem OnlyAppends.within {step : Write α} (h : step.OnlyAppends) (s : Segment) :
    (Write.within s step).OnlyAppends := by
  obtain ⟨bytes, outcome, hbytes⟩ := h
  cases outcome with
  | ok a =>
    exact ⟨bytes, .ok a, fun output => Outcome.adaptExcept_eq_ok.mpr (hbytes output)⟩
  | error e =>
    exact ⟨bytes, .error (e.within s), fun output =>
      Outcome.adaptExcept_eq_error.mpr ⟨e, hbytes output, rfl⟩⟩

/-- What a step that succeeds leaves behind is what it appends to every output. -/
theorem OnlyAppends.leaves {step : Write α} (h : step.OnlyAppends) :
    step.Leaves fun bytes => ∃ a, step.Appends bytes (.ok a) := by
  obtain ⟨bytes, outcome, hbytes⟩ := h
  intro output a after hok
  cases outcome with
  | ok b =>
    cases (hbytes output).symm.trans hok
    exact ⟨bytes, Wire.Output.bytes_append output bytes, a, hbytes⟩
  | error e => cases (hbytes output).symm.trans hok

theorem keptByWriting_onlyAppends : KeptByWriting OnlyAppends where
  pure := onlyAppends_pure
  bind := .bind
  append := onlyAppends_append
  fail := onlyAppends_fail
  undeclared _ _ := onlyAppends_throw _
  within s h := h.within s

end Write

/-- Writing a value only appends, whether or not the type admits it. -/
theorem Plain.onlyAppends_write {c : Catalog} (v : Value) (t : Ty) : (write c v t).OnlyAppends :=
  Write.keptByWriting_onlyAppends.write v fun _ _ _ _ _ => Write.onlyAppends_throw _

end SchemaPack
