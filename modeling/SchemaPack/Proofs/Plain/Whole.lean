import SchemaPack.Proofs.Plain.Recovery
import SchemaPack.Proofs.Plain.Traversal
import SchemaPack.Proofs.Wire.Delimiting

/-!
What is written is whole. A value that is written, as whatever type and however deep it nests,
leaves the bytes of one value: a walk that skips values moves over them and ends behind them.
-/
namespace SchemaPack

open Wire (Cursor Fronted Heads Whole Yields)

namespace Write

theorem whole_string (s : String) : (string s).Leaves (Whole 1) :=
  (leaves_string s).mono fun _ hyields => (Wire.fronted_string.heads hyields).whole_of_none

theorem whole_binary (data : List UInt8) : (binary data).Leaves (Whole 1) :=
  (leaves_binary data).mono fun _ hyields => (Wire.fronted_binary.heads hyields).whole_of_none

/-- A header, and behind it as many values as it tells. -/
theorem whole_array {step : Write Unit} {n : Nat} (h : step.Leaves (Whole n)) :
    (arrayHeader n >>= fun _ => step).Leaves (Whole 1) := by
  refine (leaves_arrayHeader n).bind fun _ front hyields => h.mono fun back hback => ?_
  exact (Wire.fronted_arrayHeader.heads hyields).whole hback

theorem whole_map {step : Write Unit} {n : Nat} (h : step.Leaves (Whole (2 * n))) :
    (mapHeader n >>= fun _ => step).Leaves (Whole 1) := by
  refine (leaves_mapHeader n).bind fun _ front hyields => h.mono fun back hback => ?_
  exact (Wire.fronted_mapHeader.heads hyields).whole hback

/-- What every pass of a loop leaves, the loop leaves once for each pass. -/
theorem whole_forM {ι : Type} {xs : List ι} {step : ι → Write Unit} {n : Nat}
    (h : ∀ x ∈ xs, (step x).Leaves (Whole n)) :
    (forM xs step).Leaves (Whole (n * xs.length)) := by
  induction xs with
  | nil => exact leaves_pure Wire.whole_nil
  | cons x xs ih =>
    have hrest := ih fun y hy => h y (List.mem_cons_of_mem _ hy)
    rw [List.forM_cons]
    refine (h x List.mem_cons_self).bind fun _ front hfront => hrest.mono fun back hback => ?_
    rw [List.length_cons, Nat.mul_succ, Nat.add_comm]
    exact hfront.append hback

end Write

namespace Plain

variable {c : Catalog}

theorem yields_int {t : IntType} (n : t.Range) :
    Yields Cursor.int? (Wire.Encoding.int n.val) n.val := by
  have hlow : -2 ^ 63 ≤ t.min := by cases t <;> decide
  have hhigh : t.max < 2 ^ 64 := by cases t <;> decide
  exact Wire.yields_int (hlow.trans n.property.1) (n.property.2.trans_lt hhigh)

theorem whole_primitive {p : Primitive} {v : Value} {step : Write Unit} (h : p.Put v step) :
    step.Leaves (Whole 1) := by
  have happend : ∀ {α : Type} {take : Cursor → Option (α × Cursor)} {bytes : List UInt8} {a : α},
      Fronted take (fun _ => 0) → Yields take bytes a → (Write.append bytes).Leaves (Whole 1) :=
    fun hfronted hyields => Write.leaves_append (hfronted.heads hyields).whole_of_none
  cases h with
  | bool b => exact happend Wire.fronted_bool (Wire.yields_bool b)
  | int n => exact happend Wire.fronted_int (yields_int n)
  | f32 bits => exact happend Wire.fronted_f32 (Wire.yields_f32 bits)
  | f64 bits => exact happend Wire.fronted_f64 (Wire.yields_f64 bits)
  | string s => exact Write.whole_string s

theorem whole_writeAtom (t : Ty) (v : Value) : (writeAtom t v).Leaves (Whole 1) := by
  have h := writesAtom t v
  generalize writeAtom t v = step at h ⊢
  cases h with
  | primitive hput => exact whole_primitive hput
  | bytes data => exact Write.whole_binary data
  | decimal | version => exact Write.whole_string _
  | outOfRange | refused => exact Write.leaves_fail _

theorem whole_writeAll {values : List Value} {t : Ty}
    (hvalues : ∀ v ∈ values, (write c v t).Leaves (Whole 1)) :
    (writeAll c values t 0).Leaves (Whole values.length) := by
  have hstep : ∀ p ∈ values.zipIdx,
      (Write.within (.index p.2) (write c p.1 t)).Leaves (Whole 1) :=
    fun p hp => (hvalues p.1 (List.fst_mem_of_mem_zipIdx hp)).within _
  have hall := Write.whole_forM hstep
  rwa [← writeAll_eq_forM, Nat.one_mul, List.length_zipIdx] at hall

theorem whole_writeItems {values : List Value} {types : List Ty}
    (hvalues : ∀ v ∈ values, ∀ t, (write c v t).Leaves (Whole 1))
    (hlength : values.length = types.length) :
    (writeItems c values 0 types).Leaves (Whole types.length) := by
  have hstep : ∀ p ∈ (values.zip types).zipIdx,
      (Write.within (.item p.2) (write c p.1.1 p.1.2)).Leaves (Whole 1) :=
    fun p hp => (hvalues _ (List.of_mem_zip (List.fst_mem_of_mem_zipIdx hp)).1 _).within _
  have hall := Write.whole_forM hstep
  rwa [← writeItems_eq_forM, Nat.one_mul, List.length_zipIdx, List.length_zip, hlength,
    Nat.min_self] at hall

theorem whole_writeEntries {entries : List (Value × Value)} {key value : Ty}
    (hentries : ∀ e ∈ entries,
      (write c e.1 key).Leaves (Whole 1) ∧ (write c e.2 value).Leaves (Whole 1)) :
    (writeEntries c entries key value 0).Leaves (Whole (2 * entries.length)) := by
  have hstep : ∀ p ∈ entries.zipIdx, (writeEntry c key value p).Leaves (Whole 2) := by
    intro p hp
    obtain ⟨hkey, hvalue⟩ := hentries p.1 (List.fst_mem_of_mem_zipIdx hp)
    exact (hkey.within _).bind fun _ front hfront => (hvalue.within _).mono fun _ => hfront.append
  have hall := Write.whole_forM hstep
  rwa [← writeEntries_eq_forM, List.length_zipIdx] at hall

theorem whole_writeField {record : TypeName} {values : List (String × Value)}
    (hvalues : ∀ f ∈ values, ∀ t, (write c f.2 t).Leaves (Whole 1)) (f : Field) :
    (writeField c record values f).Leaves (Whole 2) := by
  unfold writeField
  split
  · exact Write.leaves_fail _
  · rename_i v hget
    have hv := hvalues _ (Fields.mem_of_get? hget) f.type
    exact (Write.whole_string f.name).bind fun _ front hfront =>
      (hv.within _).mono fun _ => hfront.append

theorem whole_writeRecord {name : TypeName} {values : List (String × Value)}
    (hvalues : ∀ f ∈ values, ∀ t, (write c f.2 t).Leaves (Whole 1)) :
    (writeRecord c name (fieldWriters c values)).Leaves (Whole 1) := by
  unfold writeRecord
  split
  · exact Write.leaves_throw _
  · split
    · exact Write.leaves_fail _
    · rw [writeFields_eq_forM]
      exact Write.whole_map (Write.whole_forM fun f _ => whole_writeField hvalues f)

/-- Whatever is written is one value. -/
theorem whole_write (v : Value) (t : Ty) : (write c v t).Leaves (Whole 1) := by
  induction v generalizing t with
  | null =>
    rw [write]
    split
    · have hnil : Heads 0 Wire.Encoding.nil := fun _ _ => rfl
      exact Write.leaves_append hnil.whole_of_none
    · exact Write.leaves_fail _
  | tuple values ih =>
    rw [write]
    split
    · split
      · rename_i hlength
        exact Write.whole_array (whole_writeItems ih hlength)
      · exact Write.leaves_fail _
    · exact Write.leaves_fail _
  | union alternative held ih =>
    rw [write]
    split
    · split
      · refine Write.whole_array ((Write.whole_string _).bind fun _ front hfront => ?_)
        exact ((ih alternative).within _).mono fun back hback => hfront.append hback
      · exact Write.leaves_throw _
    · exact Write.leaves_fail _
  | list values ih =>
    rw [write]
    split
    · exact Write.whole_array (whole_writeAll fun v hv => ih v hv _)
    · exact Write.leaves_fail _
  | map entries ih =>
    rw [write]
    split
    · exact Write.whole_map (whole_writeEntries fun e he => ⟨(ih e he).1 _, (ih e he).2 _⟩)
    · exact Write.leaves_fail _
  | record fields ih =>
    rw [write]
    split
    · exact whole_writeRecord ih
    · exact Write.leaves_fail _
  | _ =>
    rw [write]
    exact whole_writeAtom _ _

end Plain

end SchemaPack
