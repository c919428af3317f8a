import SchemaPack.Proofs.Admission
import SchemaPack.Proofs.Outcomes
import SchemaPack.Proofs.Plain.Writing

/-!
The loops of the plain interpreter, each as a traversal of a list. What holds of a loop then follows
from what holds of one pass through it: by one of three rules if steps in sequence hand the property
on, whatever their results are. All steps of writing are gone through here for such properties.
-/
namespace SchemaPack

/-! ## Traversals -/

/-- A relation of steps that passes from the parts of a sequence to the whole. -/
structure Sequential {ε σ : Type} (R : {α : Type} → EStateM ε σ α → EStateM ε σ α → Prop) :
    Prop where
  pure {α : Type} (a : α) : R (pure a) (pure a)
  bind {α β : Type} {m m' : EStateM ε σ α} {f f' : α → EStateM ε σ β} :
    R m m' → (∀ a, R (f a) (f' a)) → R (m >>= f) (m' >>= f')

namespace Sequential

variable {ε σ ι β : Type} {R : {α : Type} → EStateM ε σ α → EStateM ε σ α → Prop} {xs : List ι}

theorem forM (h : Sequential R) (f f' : ι → EStateM ε σ Unit) (hf : ∀ x ∈ xs, R (f x) (f' x)) :
    R (ForM.forM xs f) (ForM.forM xs f') := by
  induction xs with
  | nil => exact h.pure ()
  | cons x xs ih =>
    have hrest := ih fun y hy => hf y (List.mem_cons_of_mem _ hy)
    exact h.bind (hf x List.mem_cons_self) fun _ => hrest

theorem mapM (h : Sequential R) (f f' : ι → EStateM ε σ β) (hf : ∀ x ∈ xs, R (f x) (f' x)) :
    R (xs.mapM f) (xs.mapM f') := by
  induction xs with
  | nil => exact h.pure []
  | cons x xs ih =>
    have hrest := ih fun y hy => hf y (List.mem_cons_of_mem _ hy)
    rw [List.mapM_cons, List.mapM_cons]
    exact h.bind (hf x List.mem_cons_self) fun a => h.bind hrest fun as => h.pure (a :: as)

theorem foldlM (h : Sequential R) (f f' : β → ι → EStateM ε σ β)
    (hf : ∀ b, ∀ x ∈ xs, R (f b x) (f' b x)) (b : β) : R (xs.foldlM f b) (xs.foldlM f' b) := by
  induction xs generalizing b with
  | nil => exact h.pure b
  | cons x xs ih =>
    exact h.bind (hf b x List.mem_cons_self) fun a =>
      ih (fun b y hy => hf b y (List.mem_cons_of_mem _ hy)) a

end Sequential

/-! ## The loops of reading -/

section Reading

def Read.entry (key value : Read Value) (i : Nat) : Read (Value × Value) := do
  let k ← Read.within (.mapKey i) key
  let v ← Read.within (.mapValue i) value
  return (k, v)

theorem Read.readAll_append (item : Read Value) (count i : Nat) (items : List Value) :
    readAll item count i items = do
      let rest ← (List.range' i count).mapM fun j => within (.index j) item
      return items.reverse ++ rest := by
  induction count generalizing i items with
  | zero => simp [readAll]
  | succ count ih =>
    simp only [readAll, ih, List.range'_succ, List.mapM_cons, bind_assoc, pure_bind,
      List.reverse_cons, List.append_assoc, List.singleton_append]

/-- The items of a list, one after the other. -/
theorem Read.readAll_eq_mapM (item : Read Value) (count : Nat) :
    readAll item count 0 [] = (List.range count).mapM fun i => within (.index i) item := by
  simp [readAll_append, List.range_eq_range']

theorem Read.readEntries_append (key value : Read Value) (count i : Nat)
    (entries : List (Value × Value)) :
    readEntries key value count i entries = do
      let rest ← (List.range' i count).mapM (entry key value)
      return entries.reverse ++ rest := by
  induction count generalizing i entries with
  | zero => simp [readEntries]
  | succ count ih =>
    simp only [readEntries, ih, entry, List.range'_succ, List.mapM_cons, bind_assoc, pure_bind,
      List.reverse_cons, List.append_assoc, List.singleton_append]

theorem Read.readEntries_eq_mapM (key value : Read Value) (count : Nat) :
    readEntries key value count 0 [] = (List.range count).mapM (entry key value) := by
  simp [readEntries_append, List.range_eq_range']

namespace Plain

variable (inside : Ty → Scope → Read Value) (scope : Scope)

def readItem (p : Ty × Nat) : Read Value :=
  Read.within (.item p.2) (inside p.1 (scope.child s!"Item{p.2 + 1}"))

theorem readItems_eq_mapM (i : Nat) (types : List Ty) :
    readItems inside scope i types = (types.zipIdx i).mapM (readItem inside scope) := by
  induction types generalizing i with
  | nil => rfl
  | cons t types ih => simp only [readItems, ih, List.zipIdx_cons, List.mapM_cons, readItem]

def readField (target : Ty) (fields : List Field) (filled : List (String × Value)) :
    Read (List (String × Value)) := do
  let name ← Read.demand Wire.Cursor.string? scope target (.unexpectedFormat "field name" ·)
  match fields.find? (·.name == name) with
  | none =>
    if scope.policy = .throw then
      throw (scope.fail target (.unexpectedField name))
    else
      Read.skip scope target
      return filled
  | some f =>
    if Fields.contains name filled then
      throw (scope.fail target (.duplicateField name))
    else
      let v ← Read.within (.field name) (inside f.type (scope.child name))
      return (name, v) :: filled

theorem readFields_succ (target : Ty) (fields : List Field) (count : Nat)
    (filled : List (String × Value)) :
    readFields inside scope target fields (count + 1) filled =
      readField inside scope target fields filled >>=
        readFields inside scope target fields count := by
  simp only [readFields, readField, bind_assoc]
  congr 1
  funext name
  cases fields.find? (·.name == name) with
  | none =>
    simp only
    split
    · rfl
    · simp only [bind_assoc, pure_bind]
  | some f =>
    simp only
    split
    · rfl
    · simp only [bind_assoc, pure_bind]

theorem readFields_eq_foldlM (target : Ty) (fields : List Field) (count : Nat)
    (filled : List (String × Value)) :
    readFields inside scope target fields count filled =
      (List.replicate count ()).foldlM (fun filled _ => readField inside scope target fields filled)
        filled := by
  induction count generalizing filled with
  | zero => rfl
  | succ count ih =>
    rw [readFields_succ, List.replicate_succ, List.foldlM_cons]
    exact congrArg _ (funext ih)

end Plain

end Reading

/-! ## The loops of writing -/

namespace Plain

variable {c : Catalog}

theorem writeAll_eq_forM (values : List Value) (t : Ty) (i : Nat) :
    writeAll c values t i =
      forM (values.zipIdx i) fun p => Write.within (.index p.2) (write c p.1 t) := by
  induction values generalizing i with
  | nil => rfl
  | cons v values ih => simp only [writeAll, ih, List.zipIdx_cons, List.forM_cons]

theorem writeItems_eq_forM (values : List Value) (types : List Ty) (i : Nat) :
    writeItems c values i types =
      forM ((values.zip types).zipIdx i) fun p =>
        Write.within (.item p.2) (write c p.1.1 p.1.2) := by
  induction values generalizing types i with
  | nil => rfl
  | cons v values ih =>
    cases types with
    | nil => rfl
    | cons t types =>
      simp only [writeItems, ih, List.zip_cons_cons, List.zipIdx_cons, List.forM_cons]

def writeEntry (c : Catalog) (key value : Ty) (p : (Value × Value) × Nat) : Write Unit := do
  Write.within (.mapKey p.2) (write c p.1.1 key)
  Write.within (.mapValue p.2) (write c p.1.2 value)

theorem writeEntries_eq_forM (entries : List (Value × Value)) (key value : Ty) (i : Nat) :
    writeEntries c entries key value i = forM (entries.zipIdx i) (writeEntry c key value) := by
  induction entries generalizing i with
  | nil => rfl
  | cons e entries ih =>
    simp only [writeEntries, ih, writeEntry, List.zipIdx_cons, List.forM_cons, bind_assoc]

def writeField (c : Catalog) (record : TypeName) (values : List (String × Value)) (f : Field) :
    Write Unit :=
  match Fields.get? f.name values with
  | none => Write.fail (.missingField record f.name)
  | some v => do
    Write.string f.name
    Write.within (.field f.name) (write c v f.type)

theorem writeFields_eq_forM (record : TypeName) (values : List (String × Value))
    (fields : List Field) :
    writeFields record (fieldWriters c values) fields =
      forM fields (writeField c record values) := by
  induction fields with
  | nil => rfl
  | cons f fields ih =>
    rw [fieldWriters_eq_map] at ih ⊢
    simp only [writeFields, Fields.get?_map, ih, List.forM_cons, writeField]
    cases Fields.get? f.name values with
    | none => rfl
    | some v => simp only [Option.map_some, bind_assoc]

end Plain

/-! ## Every step of writing -/

namespace Plain

/-- What writing a value with no values inside comes to. -/
inductive WritesAtom : Ty → Value → Write Unit → Prop
  | primitive {p : Primitive} {v : Value} {step : Write Unit} (h : p.Put v step) :
      WritesAtom (.primitive p) v step
  | bytes (data : List UInt8) : WritesAtom .bytes (.bytes data) (Write.binary data)
  | decimal (d : Decimal) : WritesAtom .decimal (.decimal d) (Write.string d.text)
  | version {number : Version} (h : number.checkRange = .ok ()) :
      WritesAtom .version (.version number) (Write.string number.text)
  | outOfRange {number : Version} {e : VersionError} (h : number.checkRange = .error e) :
      WritesAtom .version (.version number) (Write.fail (.invalidValue .version e))
  | refused {t : Ty} {v : Value} (h : ¬ t.admitsAtom v = true) :
      WritesAtom t v (Write.fail (.mismatch t v))

theorem not_admits_of_write {p : Primitive} {v : Value} (h : p.write v = none) :
    ¬ p.admits v = true := by
  intro hadmits
  unfold Primitive.admits at hadmits
  split at hadmits
  · cases h
  · rename_i t u n
    simp only [Primitive.write, if_pos (beq_iff_eq.mp hadmits)] at h
    cases h
  · cases h
  · cases h
  · cases h
  · cases hadmits

theorem writesAtom (t : Ty) (v : Value) : WritesAtom t v (writeAtom t v) := by
  unfold writeAtom
  split
  · split
    · rename_i hstep
      exact .primitive (Primitive.put_of_write hstep)
    · rename_i hnone
      exact .refused (not_admits_of_write hnone)
  · exact .bytes _
  · exact .decimal _
  · split
    · rename_i hrange
      exact .version hrange
    · rename_i hrange
      exact .outOfRange hrange
  · rename_i hprimitive hbytes hdecimal hversion
    refine .refused fun hadmits => ?_
    unfold Ty.admitsAtom at hadmits
    split at hadmits
    · exact hprimitive _ rfl
    · exact hbytes _ rfl rfl
    · exact hdecimal _ rfl rfl
    · exact hversion _ rfl rfl
    · cases hadmits

end Plain

/-- A property that all steps have of which the plain interpreter puts writing together, apart from
the refusal of a record that the catalog lacks. -/
structure KeptByWriting (K : {α : Type} → Write α → Prop) : Prop where
  pure {α : Type} (a : α) : K (pure a)
  bind {α β : Type} {first : Write α} {second : α → Write β} :
    K first → (∀ a, K (second a)) → K (first >>= second)
  append (bytes : List UInt8) : K (Write.append bytes)
  fail (fault : WriteFault) : K (Write.fail fault : Write Unit)
  undeclared (t alternative : Ty) :
    K (throw (.internal (.unionAlternativeNotDeclared t alternative)) : Write Unit)
  within {step : Write Unit} (s : Segment) : K step → K (Write.within s step)

namespace KeptByWriting

open Plain (writeAtom writeEntry writeField writeRecord)

variable {K : {α : Type} → Write α → Prop} {c : Catalog}

theorem sequential (hK : KeptByWriting K) : Sequential fun m _ => K m := ⟨hK.pure, hK.bind⟩

theorem forM (hK : KeptByWriting K) {ι : Type} {xs : List ι} {step : ι → Write Unit}
    (h : ∀ x ∈ xs, K (step x)) : K (ForM.forM xs step) :=
  hK.sequential.forM step step h

theorem encoded (hK : KeptByWriting K) (encoding : Except Wire.LengthOverflow (List UInt8)) :
    K (Write.encoded encoding) := by
  cases encoding with
  | ok bytes => exact hK.append bytes
  | error e => exact hK.fail _

theorem primitive (hK : KeptByWriting K) {p : Primitive} {v : Value} {step : Write Unit}
    (h : p.Put v step) : K step := by
  cases h with
  | bool | int | f32 | f64 => exact hK.append _
  | string => exact hK.encoded _

theorem writeAtom (hK : KeptByWriting K) (t : Ty) (v : Value) : K (Plain.writeAtom t v) := by
  have h := Plain.writesAtom t v
  generalize Plain.writeAtom t v = step at h ⊢
  cases h with
  | primitive hput => exact hK.primitive hput
  | bytes | decimal | version => exact hK.encoded _
  | outOfRange | refused => exact hK.fail _

/-- A record that the catalog lacks is refused with the property, if the type is one. -/
def Refuses (K : {α : Type} → Write α → Prop) (c : Catalog) (t : Ty) : Prop :=
  ∀ name, t = .record name → c.find? name = none →
    K (throw (.ofUnknownRecord name) : Write Unit)

theorem writeRecord (hK : KeptByWriting K) {name : TypeName}
    (h : Ty.Throughout c (Refuses K c) (.record name)) {values : List (String × Value)}
    (hvalues : ∀ f ∈ values, ∀ t, Ty.Throughout c (Refuses K c) t → K (Plain.write c f.2 t)) :
    K (Plain.writeRecord c name (Plain.fieldWriters c values)) := by
  unfold Plain.writeRecord
  split
  · rename_i hnone
    exact h.here name rfl hnone
  · rename_i r hfind
    split
    · exact hK.fail _
    · rw [Plain.writeFields_eq_forM]
      refine hK.bind (hK.encoded _) fun _ => hK.forM fun f hf => ?_
      unfold Plain.writeField
      split
      · exact hK.fail _
      · rename_i v hget
        have hv := hvalues _ (Fields.mem_of_get? hget) f.type
          (h.part (Ty.Direct.field hfind hf).part)
        exact hK.bind (hK.encoded _) fun _ => hK.within _ hv

/-- Writing a value as a type has the property. -/
theorem write (hK : KeptByWriting K) (v : Value) {t : Ty}
    (h : Ty.Throughout c (Refuses K c) t) : K (Plain.write c v t) := by
  induction v generalizing t with
  | null =>
    rw [Plain.write]
    split
    · exact hK.append _
    · exact hK.fail _
  | tuple values ih =>
    rw [Plain.write]
    split
    · rename_i items heq
      split
      · rw [Plain.writeItems_eq_forM]
        refine hK.bind (hK.encoded _) fun _ => hK.forM fun p hp => hK.within _ ?_
        obtain ⟨hv, ht⟩ := List.of_mem_zip (List.fst_mem_of_mem_zipIdx hp)
        exact ih _ hv ((heq ▸ h.unwrapped).part (Ty.Direct.item ht).part)
      · exact hK.fail _
    · exact hK.fail _
  | union alternative held ih =>
    rw [Plain.write]
    split
    · rename_i isNullable alternatives hshape
      split
      · rename_i hmem
        have hheld := ih (h.unwrapped.reaches (Ty.reaches_alternative hshape hmem))
        refine hK.bind (hK.encoded _) fun _ => hK.bind (hK.encoded _) fun _ => ?_
        exact hK.within _ hheld
      · exact hK.undeclared _ _
    · exact hK.fail _
  | list values ih =>
    rw [Plain.write]
    split
    · rename_i element heq
      have helement := (heq ▸ h.unwrapped).part (Ty.Indirect.element element).part
      rw [Plain.writeAll_eq_forM]
      refine hK.bind (hK.encoded _) fun _ => hK.forM fun p hp => hK.within _ ?_
      exact ih _ (List.fst_mem_of_mem_zipIdx hp) helement
    · exact hK.fail _
  | map entries ih =>
    rw [Plain.write]
    split
    · rename_i key value heq
      have hkey := (heq ▸ h.unwrapped).part (Ty.Indirect.key key value).part
      have hvalue := (heq ▸ h.unwrapped).part (Ty.Indirect.value key value).part
      rw [Plain.writeEntries_eq_forM]
      refine hK.bind (hK.encoded _) fun _ => hK.forM fun p hp => ?_
      obtain ⟨hk, hv⟩ := ih _ (List.fst_mem_of_mem_zipIdx hp)
      exact hK.bind (hK.within _ (hk hkey)) fun _ => hK.within _ (hv hvalue)
    · exact hK.fail _
  | record fields ih =>
    rw [Plain.write]
    split
    · rename_i name heq
      exact hK.writeRecord (heq ▸ h.unwrapped) fun f hf t ht => ih f hf ht
    · exact hK.fail _
  | _ =>
    rw [Plain.write]
    exact hK.writeAtom _ _

end KeptByWriting

end SchemaPack
