import SchemaPack.Proofs.Plain.Writing

/-!
Record values as finite maps. Fields in order are determined by what is found under every name, so a
record that is put together field by field is the record whose fields they are.
-/
namespace SchemaPack.Fields

variable {α : Type}

theorem get?_cons (n m : String) (v : α) (rest : List (String × α)) :
    get? n ((m, v) :: rest) = if m = n then some v else get? n rest := by
  by_cases h : m = n
  · simp [get?, h]
  · simp [get?, beq_eq_false_iff_ne.mpr h, h]

theorem get?_insert (name n : String) (value : α) (fields : List (String × α)) :
    get? n (insert name value fields) = if name = n then some value else get? n fields := by
  induction fields with
  | nil => simp only [insert, get?_cons]
  | cons f rest ih =>
    obtain ⟨m, v⟩ := f
    simp only [insert]
    split
    · simp only [get?_cons]
    · split
      · rename_i heq
        subst heq
        simp only [get?_cons]
        split
        · rfl
        · rfl
      · rename_i hne
        simp only [get?_cons, ih]
        split
        · rename_i hm
          subst hm
          rw [if_neg hne]
        · rfl

theorem get?_eq_none_iff {n : String} {fields : List (String × α)} :
    get? n fields = none ↔ ∀ f ∈ fields, f.1 ≠ n := by
  simp [get?]

/-- Under its name a field of an ordered list is found. -/
theorem Sorted.get?_of_mem {fields : List (String × α)} (h : Sorted fields) {n : String} {v : α}
    (hmem : (n, v) ∈ fields) : get? n fields = some v := by
  induction fields with
  | nil => cases hmem
  | cons f rest ih =>
    obtain ⟨m, w⟩ := f
    obtain ⟨hless, hrest⟩ := sorted_cons.mp h
    rw [get?_cons]
    rcases List.mem_cons.mp hmem with heq | hmem
    · cases heq
      rw [if_pos rfl]
    · have hlt := hless (n, v) hmem
      rw [if_neg (String.ne_of_lt hlt), ih hrest hmem]

/-- Nothing is found under a name before the first. -/
theorem Sorted.get?_of_lt {n m : String} {v : α} {rest : List (String × α)}
    (h : Sorted ((m, v) :: rest)) (hlt : n < m) : get? n ((m, v) :: rest) = none := by
  obtain ⟨hless, -⟩ := sorted_cons.mp h
  rw [get?_eq_none_iff]
  intro f hf
  rcases List.mem_cons.mp hf with rfl | hf
  · exact (String.ne_of_lt hlt).symm
  · exact (String.ne_of_lt (String.lt_trans hlt (hless f hf))).symm

/-- Under the first name nothing more is found. -/
theorem Sorted.get?_tail {m : String} {v : α} {rest : List (String × α)}
    (h : Sorted ((m, v) :: rest)) : get? m rest = none := by
  obtain ⟨hless, -⟩ := sorted_cons.mp h
  rw [get?_eq_none_iff]
  exact fun f hf => (String.ne_of_lt (hless f hf)).symm

/-- Ordered lists in which the same is found under every name are equal. -/
theorem Sorted.ext {a b : List (String × α)} (ha : Sorted a) (hb : Sorted b)
    (h : ∀ n, get? n a = get? n b) : a = b := by
  induction a generalizing b with
  | nil =>
    cases b with
    | nil => rfl
    | cons g tail =>
      have hfirst := h g.1
      rw [get?_cons, if_pos rfl] at hfirst
      cases hfirst
  | cons f rest ih =>
    cases b with
    | nil =>
      have hfirst := h f.1
      rw [get?_cons, if_pos rfl] at hfirst
      cases hfirst
    | cons g tail =>
      obtain ⟨m, w⟩ := f
      obtain ⟨n, u⟩ := g
      have hm := h m
      have hn := h n
      rw [get?_cons, if_pos rfl] at hm
      rw [get?_cons n n, if_pos rfl] at hn
      -- the first names agree, since neither comes before the other
      have hname : m = n := by
        apply String.le_antisymm
        · apply String.not_lt.mp
          intro hlt
          rw [ha.get?_of_lt hlt] at hn
          cases hn
        · apply String.not_lt.mp
          intro hlt
          rw [hb.get?_of_lt hlt] at hm
          cases hm
      subst hname
      rw [get?_cons, if_pos rfl] at hm
      cases hm
      have hrest : ∀ k, get? k rest = get? k tail := by
        intro k
        have hk := h k
        rw [get?_cons, get?_cons] at hk
        by_cases hkm : m = k
        · rw [← hkm, ha.get?_tail, hb.get?_tail]
        · rwa [if_neg hkm, if_neg hkm] at hk
      rw [ih (sorted_cons.mp ha).2 (sorted_cons.mp hb).2 hrest]

/-- In ordered fields the same is found under a name as in others that have the same under it. -/
theorem Sorted.get?_eq_of_mem_iff {a b : List (String × α)} (hb : Sorted b) {n : String}
    (h : ∀ v, (n, v) ∈ a ↔ (n, v) ∈ b) : get? n a = get? n b := by
  cases ha : get? n a with
  | some v => exact (hb.get?_of_mem ((h v).mp (mem_of_get? ha))).symm
  | none =>
    symm
    rw [get?_eq_none_iff] at ha ⊢
    rintro f hf rfl
    exact ha f ((h f.2).mpr hf) rfl

theorem contains_iff {n : String} {fields : List (String × α)} :
    contains n fields = true ↔ n ∈ names fields := by
  simp [contains, names]

/-- Where every name is there once, the order does not matter to what is found. -/
theorem get?_perm {a b : List (String × α)} (h : a.Perm b)
    (hnodup : (names a).Nodup) (n : String) : get? n a = get? n b := by
  induction h with
  | nil => rfl
  | cons f h ih => rw [get?_cons, get?_cons, ih (List.nodup_cons.mp hnodup).2]
  | swap f g rest =>
    obtain ⟨hg, -⟩ := List.nodup_cons.mp hnodup
    have hne : g.1 ≠ f.1 := List.ne_of_not_mem_cons hg
    rw [get?_cons, get?_cons, get?_cons, get?_cons]
    by_cases hname : g.1 = n
    · rw [if_pos hname, if_neg fun hf => hne (hname.trans hf.symm), if_pos hname]
    · rw [if_neg hname, if_neg hname]
  | @trans a b c h _ ih ih' =>
    have hnames : (names a).Perm (names b) := h.map Prod.fst
    rw [ih hnodup, ih' (hnames.nodup_iff.mp hnodup)]

/-- Fields in order that are there exactly if they are declared are as many as are declared. -/
theorem Sorted.length_eq {values : List (String × α)} (hsorted : Sorted values)
    {fields : List Field} (hnodup : (fields.map (·.name)).Nodup)
    (hdeclared : ∀ p ∈ values, fields.any (·.name == p.1) = true)
    (hpresent : ∀ f ∈ fields, ∃ v, get? f.name values = some v) :
    values.length = fields.length := by
  have hnames : (names values).Nodup := List.Pairwise.imp String.ne_of_lt hsorted
  have hperm : (names values).Perm (fields.map (·.name)) := by
    apply (List.perm_ext_iff_of_nodup hnames hnodup).mpr
    intro n
    constructor
    · intro hn
      obtain ⟨p, hp, rfl⟩ := List.mem_map.mp hn
      obtain ⟨f, hf, hname⟩ := List.any_eq_true.mp (hdeclared p hp)
      rw [← beq_iff_eq.mp hname]
      exact List.mem_map_of_mem hf
    · intro hn
      obtain ⟨f, hf, rfl⟩ := List.mem_map.mp hn
      obtain ⟨v, hget⟩ := hpresent f hf
      exact List.mem_map_of_mem (f := (·.1)) (mem_of_get? hget)
  have hlength := hperm.length_eq
  rwa [names, List.length_map, List.length_map] at hlength

end SchemaPack.Fields

namespace SchemaPack.Plain

/-- A record to which every field can be given is put together from what is found for its fields. -/
theorem completeRecord_eq_ok {filled : List (String × Value)} {fields : List Field}
    (hfilled : ∀ f ∈ fields, ∃ v, Fields.get? f.name filled = some v)
    {record : List (String × Value)} (hsorted : Fields.Sorted record) :
    ∃ complete, completeRecord filled fields record = .ok complete ∧ Fields.Sorted complete ∧
      ∀ n, Fields.get? n complete =
        if fields.any (·.name == n) then Fields.get? n filled else Fields.get? n record := by
  induction fields generalizing record with
  | nil => exact ⟨record, rfl, hsorted, fun n => rfl⟩
  | cons f rest ih =>
    obtain ⟨v, hv⟩ := hfilled f List.mem_cons_self
    have hnext : Fields.Sorted (Fields.insert f.name v record) := Fields.sorted_insert hsorted
    obtain ⟨complete, hok, hcomplete, hget⟩ :=
      ih (fun g hg => hfilled g (List.mem_cons_of_mem _ hg)) hnext
    refine ⟨complete, ?_, hcomplete, fun n => ?_⟩
    · simp only [completeRecord, hv, Option.some_or, hok]
    · rw [hget, Fields.get?_insert, List.any_cons]
      by_cases hname : f.name = n
      · subst hname
        simp [hv]
      · simp [hname]

/-- A record is put together again from its own fields. -/
theorem completeRecord_of_values {values filled : List (String × Value)} {fields : List Field}
    (hsorted : Fields.Sorted values)
    (hdeclared : ∀ f ∈ values, fields.any (·.name == f.1) = true)
    (hfilled : ∀ f ∈ fields, ∃ v, Fields.get? f.name filled = some v ∧
      Fields.get? f.name values = some v) :
    completeRecord filled fields [] = .ok values := by
  obtain ⟨complete, hok, hcomplete, hget⟩ := completeRecord_eq_ok
    (fun f hf => (hfilled f hf).imp fun v hv => hv.1) (Fields.sorted_nil (α := Value))
  rw [hok]
  congr 1
  apply hcomplete.ext hsorted
  intro n
  rw [hget]
  split
  · rename_i hn
    obtain ⟨f, hf, hname⟩ := List.any_eq_true.mp hn
    obtain rfl : f.name = n := beq_iff_eq.mp hname
    obtain ⟨v, hv, hvalue⟩ := hfilled f hf
    rw [hv, hvalue]
  · rename_i hn
    symm
    refine Fields.get?_eq_none_iff.mpr ?_
    rintro f hf rfl
    exact hn (hdeclared f hf)

/-- A record is put together if every field is read or falls back to something. -/
theorem exists_completeRecord {filled : List (String × Value)} {fields : List Field}
    (h : ∀ f ∈ fields, ∃ v, (Fields.get? f.name filled).or f.fallback = some v)
    (record : List (String × Value)) :
    ∃ complete, completeRecord filled fields record = .ok complete := by
  induction fields generalizing record with
  | nil => exact ⟨record, rfl⟩
  | cons f fields ih =>
    obtain ⟨v, hv⟩ := h f List.mem_cons_self
    rw [completeRecord, hv]
    exact ih (fun g hg => h g (List.mem_cons_of_mem _ hg)) _

/-- For a record, it matters only what was read for its own fields. -/
theorem completeRecord_congr {a b : List (String × Value)} {fields : List Field}
    (h : ∀ f ∈ fields, Fields.get? f.name a = Fields.get? f.name b)
    (record : List (String × Value)) :
    completeRecord a fields record = completeRecord b fields record := by
  induction fields generalizing record with
  | nil => rfl
  | cons f fields ih =>
    rw [completeRecord, completeRecord, h f List.mem_cons_self]
    split
    · exact ih (fun g hg => h g (List.mem_cons_of_mem _ hg)) _
    · rfl

/-- What a record that was put together holds: nothing under other names than before, and for every
field the value that was filled in or what the field falls back to. -/
theorem get?_of_completeRecord {filled : List (String × Value)} {fields : List Field}
    {record complete : List (String × Value)}
    (h : completeRecord filled fields record = .ok complete) (hsorted : Fields.Sorted record)
    (hnodup : (fields.map (·.name)).Nodup) :
    Fields.Sorted complete ∧
      (∀ n, n ∉ fields.map (·.name) → Fields.get? n complete = Fields.get? n record) ∧
        ∀ f ∈ fields, ∃ v, Fields.get? f.name complete = some v ∧
          (Fields.get? f.name filled).or f.fallback = some v := by
  induction fields generalizing record with
  | nil =>
    cases h
    exact ⟨hsorted, fun _ _ => rfl, nofun⟩
  | cons f rest ih =>
    rw [completeRecord] at h
    split at h
    · rename_i v hv
      rw [List.map_cons, List.nodup_cons] at hnodup
      obtain ⟨hcomplete, hothers, hfields⟩ := ih h (Fields.sorted_insert hsorted) hnodup.2
      refine ⟨hcomplete, fun n hn => ?_, fun g hg => ?_⟩
      · rw [List.map_cons, List.mem_cons, not_or] at hn
        rw [hothers n hn.2, Fields.get?_insert, if_neg fun heq => hn.1 heq.symm]
      · rcases List.mem_cons.mp hg with rfl | hg
        · exact ⟨v, by rw [hothers _ hnodup.1, Fields.get?_insert, if_pos rfl], hv⟩
        · exact hfields g hg
    · cases h

/-- A record that was put together holds its fields and no others, each once. -/
theorem declared_of_completeRecord {filled complete : List (String × Value)} {fields : List Field}
    (h : completeRecord filled fields [] = .ok complete) (hnodup : (fields.map (·.name)).Nodup) :
    (∀ p ∈ complete, fields.any (·.name == p.1) = true) ∧ complete.length = fields.length := by
  obtain ⟨hsorted, hothers, hfields⟩ := get?_of_completeRecord h Fields.sorted_nil hnodup
  have hdeclared : ∀ p ∈ complete, fields.any (·.name == p.1) = true := by
    intro p hp
    by_contra hundeclared
    have hnone := hothers p.1 fun hmem => by
      obtain ⟨f, hf, hname⟩ := List.mem_map.mp hmem
      exact hundeclared (List.any_eq_true.mpr ⟨f, hf, beq_iff_eq.mpr hname⟩)
    rw [hsorted.get?_of_mem hp] at hnone
    cases hnone
  refine ⟨hdeclared, hsorted.length_eq hnodup hdeclared fun f hf => ?_⟩
  exact (hfields f hf).imp fun _ hv => hv.1

/-- Where something is found for every field, there is at least as much. -/
theorem length_le_of_get? {α : Type} {filled : List (String × α)} {fields : List Field}
    (hnodup : (fields.map (·.name)).Nodup)
    (hfilled : ∀ f ∈ fields, ∃ v, Fields.get? f.name filled = some v) :
    fields.length ≤ filled.length := by
  have hsubset : fields.map (·.name) ⊆ filled.map (·.1) := by
    intro name hname
    obtain ⟨f, hf, rfl⟩ := List.mem_map.mp hname
    obtain ⟨v, hv⟩ := hfilled f hf
    exact List.mem_map_of_mem (f := (·.1)) (Fields.mem_of_get? hv)
  have hle := hnodup.length_le_of_subset hsubset
  rwa [List.length_map, List.length_map] at hle

end SchemaPack.Plain
