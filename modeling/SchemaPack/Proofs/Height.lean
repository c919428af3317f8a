import SchemaPack.Value

/-!
How deep values nest. The height of a value is the number of containers around its deepest part, the
value itself included: a scalar has none, and so has a container with nothing inside.
-/
namespace SchemaPack.Value

mutual

def height : Value → Nat
  | .null | .bool _ | .int _ _ | .f32 _ | .f64 _ | .string _ | .bytes _ | .decimal _
  | .version _ => 0
  | .tuple items => heightAll items
  | .union _ held => height held + 1
  | .list items => heightAll items
  | .map entries => heightEntries entries
  | .record fields => heightFields fields
termination_by structural v => v

def heightAll : List Value → Nat
  | [] => 0
  | v :: rest => max (height v + 1) (heightAll rest)
termination_by structural v => v

def heightEntries : List (Value × Value) → Nat
  | [] => 0
  | (k, v) :: rest => max (max (height k) (height v) + 1) (heightEntries rest)
termination_by structural v => v

def heightFields : List (String × Value) → Nat
  | [] => 0
  | (_, v) :: rest => max (height v + 1) (heightFields rest)
termination_by structural v => v

end

theorem lt_heightAll {n : Nat} {items : List Value} :
    n < heightAll items ↔ ∃ v ∈ items, n ≤ v.height := by
  induction items with
  | nil => simp [heightAll]
  | cons v rest ih =>
    simp only [heightAll, List.mem_cons, exists_eq_or_imp, ← ih]
    omega

theorem lt_heightEntries {n : Nat} {entries : List (Value × Value)} :
    n < heightEntries entries ↔ ∃ e ∈ entries, n ≤ e.1.height ∨ n ≤ e.2.height := by
  induction entries with
  | nil => simp [heightEntries]
  | cons e rest ih =>
    simp only [heightEntries, List.mem_cons, exists_eq_or_imp, ← ih]
    omega

theorem lt_heightFields {n : Nat} {fields : List (String × Value)} :
    n < heightFields fields ↔ ∃ f ∈ fields, n ≤ f.2.height := by
  induction fields with
  | nil => simp [heightFields]
  | cons f rest ih =>
    simp only [heightFields, List.mem_cons, exists_eq_or_imp, ← ih]
    omega

/-- A value, and one that lies directly inside. -/
inductive Holds : Value → Value → Prop
  | item {items : List Value} {v : Value} (h : v ∈ items) : Holds (.tuple items) v
  | held {alternative : Ty} {v : Value} : Holds (.union alternative v) v
  | element {items : List Value} {v : Value} (h : v ∈ items) : Holds (.list items) v
  | key {entries : List (Value × Value)} {e : Value × Value} (h : e ∈ entries) :
      Holds (.map entries) e.1
  | value {entries : List (Value × Value)} {e : Value × Value} (h : e ∈ entries) :
      Holds (.map entries) e.2
  | field {fields : List (String × Value)} {f : String × Value} (h : f ∈ fields) :
      Holds (.record fields) f.2

/-- The second value lies so many levels below the first. -/
inductive Below : Nat → Value → Value → Prop
  | here {v : Value} : Below 0 v v
  | inside {n : Nat} {v u w : Value} (hu : Holds v u) (h : Below n u w) : Below (n + 1) v w

theorem lt_height {n : Nat} {v : Value} : n < v.height ↔ ∃ u, Holds v u ∧ n ≤ u.height := by
  constructor
  · intro h
    cases v with
    | tuple items =>
      obtain ⟨u, hu, hn⟩ := lt_heightAll.mp h
      exact ⟨u, .item hu, hn⟩
    | union alternative held => exact ⟨held, .held, Nat.lt_succ_iff.mp h⟩
    | list items =>
      obtain ⟨u, hu, hn⟩ := lt_heightAll.mp h
      exact ⟨u, .element hu, hn⟩
    | map entries =>
      obtain ⟨e, he, hn | hn⟩ := lt_heightEntries.mp h
      · exact ⟨e.1, .key he, hn⟩
      · exact ⟨e.2, .value he, hn⟩
    | record fields =>
      obtain ⟨f, hf, hn⟩ := lt_heightFields.mp h
      exact ⟨f.2, .field hf, hn⟩
    | _ => cases h
  · rintro ⟨u, hu, hn⟩
    cases hu with
    | item h => exact lt_heightAll.mpr ⟨u, h, hn⟩
    | held => exact Nat.lt_succ_iff.mpr hn
    | element h => exact lt_heightAll.mpr ⟨u, h, hn⟩
    | key h => exact lt_heightEntries.mpr ⟨_, h, Or.inl hn⟩
    | value h => exact lt_heightEntries.mpr ⟨_, h, Or.inr hn⟩
    | field h => exact lt_heightFields.mpr ⟨_, h, hn⟩

/-- The height of a value is the depth of the deepest of all values nested in it. -/
theorem le_height_iff {n : Nat} {v : Value} : n ≤ v.height ↔ ∃ w, Below n v w := by
  induction n generalizing v with
  | zero => exact ⟨fun _ => ⟨v, .here⟩, fun _ => Nat.zero_le _⟩
  | succ n ih =>
    rw [Nat.succ_le_iff, lt_height]
    constructor
    · rintro ⟨u, hu, hn⟩
      obtain ⟨w, hw⟩ := ih.mp hn
      exact ⟨w, .inside hu hw⟩
    · rintro ⟨w, hw⟩
      cases hw with
      | inside hu h => exact ⟨_, hu, ih.mpr ⟨w, h⟩⟩

/-! ## Canonical parts -/

theorem AllCanonical.of_mem {items : List Value} (h : AllCanonical items) {v : Value}
    (hv : v ∈ items) : v.Canonical := by
  induction items with
  | nil => cases hv
  | cons w rest ih =>
    rcases List.mem_cons.mp hv with rfl | hv
    · exact h.1
    · exact ih h.2 hv

theorem EntriesCanonical.of_mem {entries : List (Value × Value)} (h : EntriesCanonical entries)
    {e : Value × Value} (he : e ∈ entries) : e.1.Canonical ∧ e.2.Canonical := by
  induction entries with
  | nil => cases he
  | cons w rest ih =>
    rcases List.mem_cons.mp he with rfl | he
    · exact ⟨h.1, h.2.1⟩
    · exact ih h.2.2 he

theorem FieldsCanonical.of_mem {fields : List (String × Value)} (h : FieldsCanonical fields)
    {f : String × Value} (hf : f ∈ fields) : f.2.Canonical := by
  induction fields with
  | nil => cases hf
  | cons w rest ih =>
    rcases List.mem_cons.mp hf with rfl | hf
    · exact h.1
    · exact ih h.2 hf

theorem allCanonical_of_forall {items : List Value} (h : ∀ v ∈ items, v.Canonical) :
    AllCanonical items := by
  induction items with
  | nil => exact trivial
  | cons v rest ih =>
    exact ⟨h v List.mem_cons_self, ih fun w hw => h w (List.mem_cons_of_mem _ hw)⟩

theorem entriesCanonical_of_forall {entries : List (Value × Value)}
    (h : ∀ e ∈ entries, e.1.Canonical ∧ e.2.Canonical) : EntriesCanonical entries := by
  induction entries with
  | nil => exact trivial
  | cons e rest ih =>
    obtain ⟨hk, hv⟩ := h e List.mem_cons_self
    exact ⟨hk, hv, ih fun w hw => h w (List.mem_cons_of_mem _ hw)⟩

theorem fieldsCanonical_of_forall {fields : List (String × Value)}
    (h : ∀ f ∈ fields, f.2.Canonical) : FieldsCanonical fields := by
  induction fields with
  | nil => exact trivial
  | cons f rest ih =>
    exact ⟨h f List.mem_cons_self, ih fun w hw => h w (List.mem_cons_of_mem _ hw)⟩

theorem Canonical.of_holds {v u : Value} (h : v.Canonical) (hu : Holds v u) : u.Canonical := by
  cases hu with
  | item hmem => exact AllCanonical.of_mem h hmem
  | held => exact h
  | element hmem => exact AllCanonical.of_mem h hmem
  | key hmem => exact (EntriesCanonical.of_mem h hmem).1
  | value hmem => exact (EntriesCanonical.of_mem h hmem).2
  | field hmem => exact FieldsCanonical.of_mem h.2 hmem

end SchemaPack.Value
