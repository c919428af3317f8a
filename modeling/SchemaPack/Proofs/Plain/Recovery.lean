import SchemaPack.Proofs.Outcomes
import SchemaPack.Proofs.Wire.RoundTrip

/-!
Writing and then reading, step by step. What a step of writing leaves in the output is described by
a property of the bytes, and what a step of reading makes of such bytes by its outcome: the value
and the place behind the bytes, or, where the value lies too deep, the failure that says so.
-/
namespace SchemaPack

open Wire (Cursor Encoding.arrayHeader Encoding.mapHeader Yields)

/-! ## What is left in the output -/

namespace Write

/-- A step that succeeds has appended bytes with a property. -/
def Leaves {α : Type} (step : Write α) (P : List UInt8 → Prop) : Prop :=
  ∀ output a after, step output = .ok a after →
    ∃ bytes, after.bytes = output.bytes ++ bytes ∧ P bytes

variable {P Q : List UInt8 → Prop}

theorem Leaves.mono {α : Type} {step : Write α} (h : step.Leaves P)
    (hPQ : ∀ bytes, P bytes → Q bytes) : step.Leaves Q := by
  intro output a after hok
  obtain ⟨bytes, hbytes, hP⟩ := h output a after hok
  exact ⟨bytes, hbytes, hPQ bytes hP⟩

theorem leaves_pure {α : Type} {a : α} (h : P []) : Leaves (pure a) P := by
  intro output b after hok
  cases hok
  exact ⟨[], (List.append_nil _).symm, h⟩

theorem leaves_append {bytes : List UInt8} (h : P bytes) : (append bytes).Leaves P := by
  intro output a after hok
  cases hok
  exact ⟨bytes, Wire.Output.bytes_append output bytes, h⟩

theorem leaves_throw {α : Type} (e : CodecError) : Leaves (throw e : Write α) P := by
  intro output a after hok
  cases hok

theorem leaves_fail {α : Type} (fault : WriteFault) : Leaves (fail fault : Write α) P :=
  leaves_throw _

theorem leaves_encoded {encoding : Except Wire.LengthOverflow (List UInt8)}
    (h : ∀ bytes, encoding = .ok bytes → P bytes) : (encoded encoding).Leaves P := by
  cases encoding with
  | ok bytes => exact leaves_append (h bytes rfl)
  | error e => exact leaves_fail _

theorem Leaves.bind {α β : Type} {first : Write α} {second : α → Write β} (hfirst : first.Leaves P)
    (hsecond : ∀ a front, P front → (second a).Leaves fun back => Q (front ++ back)) :
    Leaves (first >>= second) Q := by
  intro output b after hok
  obtain ⟨a, middle, hmiddle, hafter⟩ := Outcome.bind_eq_ok.mp hok
  obtain ⟨front, hfront, hP⟩ := hfirst _ _ _ hmiddle
  obtain ⟨back, hback, hQ⟩ := hsecond a front hP _ _ _ hafter
  exact ⟨front ++ back, by rw [hback, hfront, List.append_assoc], hQ⟩

theorem Leaves.within {α : Type} {step : Write α} (h : step.Leaves P) (s : Segment) :
    (Write.within s step).Leaves P :=
  fun output a after hok => h output a after (Outcome.adaptExcept_eq_ok.mp hok)

/-- What the passes of a loop leave stands in a row. -/
theorem leaves_forM {ι : Type} {xs : List ι} {step : ι → Write Unit} {R : ι → List UInt8 → Prop}
    (h : ∀ x ∈ xs, (step x).Leaves (R x)) :
    (forM xs step).Leaves fun bytes =>
      ∃ parts, List.Forall₂ R xs parts ∧ bytes = parts.flatten := by
  induction xs with
  | nil => exact leaves_pure ⟨[], .nil, rfl⟩
  | cons x xs ih =>
    have hrest := ih fun y hy => h y (List.mem_cons_of_mem _ hy)
    rw [List.forM_cons]
    refine (h x List.mem_cons_self).bind fun _ front hfront => hrest.mono fun back hback => ?_
    obtain ⟨parts, hparts, rfl⟩ := hback
    exact ⟨front :: parts, .cons hfront hparts, rfl⟩

/-- Something of a length is written only if the length can be. -/
theorem lt_of_sized {length : Nat} {bytes written : List UInt8}
    (h : Wire.Encoding.sized length bytes = .ok written) :
    length < Wire.lengthBound ∧ written = bytes := by
  unfold Wire.Encoding.sized at h
  split at h
  · rename_i hlt
    cases h
    exact ⟨hlt, rfl⟩
  · cases h

theorem leaves_arrayHeader (n : Nat) : (arrayHeader n).Leaves (Yields Cursor.arrayHeader? · n) := by
  refine leaves_encoded fun bytes h => ?_
  obtain ⟨hlt, rfl⟩ := lt_of_sized h
  exact Wire.yields_arrayHeader hlt

theorem leaves_mapHeader (n : Nat) : (mapHeader n).Leaves (Yields Cursor.mapHeader? · n) := by
  refine leaves_encoded fun bytes h => ?_
  obtain ⟨hlt, rfl⟩ := lt_of_sized h
  exact Wire.yields_mapHeader hlt

theorem leaves_string (s : String) : (string s).Leaves (Yields Cursor.string? · s) := by
  refine leaves_encoded fun bytes h => ?_
  obtain ⟨hlt, rfl⟩ := lt_of_sized h
  exact Wire.yields_string hlt

theorem leaves_binary (data : List UInt8) :
    (binary data).Leaves (Yields Cursor.binary? · data) := by
  refine leaves_encoded fun bytes h => ?_
  obtain ⟨hlt, rfl⟩ := lt_of_sized h
  exact Wire.yields_binary hlt

end Write

/-! ## What is made of the input -/

namespace Read

/-- Off an input that begins with the bytes, the step reads a value and moves behind them, unless it
lies too deep; then the step fails and says that the limit is exceeded. -/
def Recovers {α : Type} (step : Read α) (deep : Prop) (limit : Nat) (bytes : List UInt8) (a : α) :
    Prop :=
  ∀ position rest,
    (¬ deep → step ⟨position, bytes ++ rest⟩ = .ok a ⟨position + bytes.length, rest⟩) ∧
      (deep → ∃ e cursor, step ⟨position, bytes ++ rest⟩ = .error (.read e) cursor ∧
        e.fault = .depthLimitExceeded limit)

variable {α β : Type} {deep deeper : Prop} {limit : Nat} {front back bytes : List UInt8}

theorem Recovers.congr {step : Read α} {a : α} (h : step.Recovers deep limit bytes a)
    (hiff : deep ↔ deeper) : step.Recovers deeper limit bytes a := by
  rw [propext hiff] at h
  exact h

theorem recovers_pure (a : α) : Recovers (pure a) False limit [] a := by
  intro position rest
  exact ⟨fun _ => rfl, False.elim⟩

theorem recovers_demand {take : Cursor → Option (α × Cursor)} {a : α} (h : Yields take bytes a)
    (scope : Scope) (target : Ty) (fault : Wire.Format → ReadFault) :
    (demand take scope target fault).Recovers False limit bytes a := by
  intro position rest
  exact ⟨fun _ => demand_eq_ok.mpr (h position rest), False.elim⟩

theorem recovers_run {step : Cursor → Except ReadFault Value × Cursor} {v : Value}
    (h : ∀ position rest,
      step ⟨position, bytes ++ rest⟩ = (.ok v, ⟨position + bytes.length, rest⟩))
    (scope : Scope) (target : Ty) : (scope.run target step).Recovers False limit bytes v := by
  intro position rest
  exact ⟨fun _ => Scope.run_eq_ok.mpr (h position rest), False.elim⟩

theorem recovers_tooDeep (scope : Scope) (target : Ty) (a : α) :
    Recovers (throw (scope.fail target (.depthLimitExceeded scope.maxDepth))) True scope.maxDepth
      bytes a := by
  intro position rest
  exact ⟨fun h => absurd trivial h, fun _ => ⟨_, _, rfl, rfl⟩⟩

/-- Two steps in a row: what lies too deep for either fails. -/
theorem Recovers.bind {first : Read α} {second : α → Read β} {a : α} {b : β}
    (hfirst : first.Recovers deep limit front a)
    (hsecond : (second a).Recovers deeper limit back b) :
    Recovers (first >>= second) (deep ∨ deeper) limit (front ++ back) b := by
  intro position rest
  obtain ⟨hok, herror⟩ := hfirst position (back ++ rest)
  obtain ⟨hok', herror'⟩ := hsecond (position + front.length) rest
  rw [List.append_assoc, List.length_append, ← Nat.add_assoc]
  by_cases hdeep : deep
  · obtain ⟨e, cursor, hfailed, hfault⟩ := herror hdeep
    exact ⟨fun h => absurd (Or.inl hdeep) h,
      fun _ => ⟨e, cursor, Outcome.bind_of_error hfailed, hfault⟩⟩
  · rw [Outcome.bind_of_ok (hok hdeep)]
    refine ⟨fun h => hok' fun hdeeper => h (Or.inr hdeeper), fun h => ?_⟩
    exact herror' (h.resolve_left hdeep)

/-- A step that is followed by a result. -/
theorem Recovers.map {first : Read α} {second : α → Read β} {a : α} {b : β}
    (hfirst : first.Recovers deep limit bytes a) (hsecond : second a = pure b) :
    Recovers (first >>= second) deep limit bytes b := by
  have hpure : (second a).Recovers False limit [] b := by
    rw [hsecond]
    exact recovers_pure b
  have hboth := hfirst.bind hpure
  rw [List.append_nil] at hboth
  exact hboth.congr (or_iff_left not_false)

/-- A step in front that takes no value. -/
theorem Recovers.after {first : Read α} {second : α → Read β} {a : α} {b : β}
    (hsecond : (second a).Recovers deep limit back b)
    (hfirst : first.Recovers False limit front a) :
    Recovers (first >>= second) deep limit (front ++ back) b :=
  (hfirst.bind hsecond).congr (or_iff_right not_false)

theorem Recovers.within {step : Read α} {a : α} (h : step.Recovers deep limit bytes a)
    (s : Segment) : (Read.within s step).Recovers deep limit bytes a := by
  intro position rest
  obtain ⟨hok, herror⟩ := h position rest
  constructor
  · intro hdeep
    exact Outcome.adaptExcept_eq_ok.mpr (hok hdeep)
  · intro hdeep
    obtain ⟨e, cursor, hfailed, hfault⟩ := herror hdeep
    exact ⟨{ e with path := e.path.within s }, cursor,
      Outcome.adaptExcept_eq_error.mpr ⟨_, hfailed, rfl⟩, hfault⟩

/-- A loop over what stands in a row: it fails if any of it lies too deep. -/
theorem recovers_mapM {ι : Type} {xs : List ι} {step : ι → Read β} {tooDeep : ι → Prop}
    {image : ι → β} {parts : List (List UInt8)}
    (h : List.Forall₂ (fun x part => (step x).Recovers (tooDeep x) limit part (image x)) xs parts) :
    (xs.mapM step).Recovers (∃ x ∈ xs, tooDeep x) limit parts.flatten (xs.map image) := by
  induction h with
  | nil => exact (recovers_pure []).congr (by simp)
  | @cons x part xs parts hx _ ih =>
    rw [List.mapM_cons, List.flatten_cons, List.map_cons]
    refine Recovers.congr (hx.bind (ih.map rfl)) ?_
    simp

end Read

end SchemaPack
