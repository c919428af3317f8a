import SchemaPack.Catalog.Declare

/-!
What declarations keep. A call goes through if the name is new and the fields agree with each other,
and otherwise it tells the first thing that is wrong and changes nothing. So after any sequence of
calls every record is filed under its own name, by the first call of that name that went through,
and its fields have names of their own and defaults that fit.
-/
namespace SchemaPack

/-! ## Fields -/

namespace Field

def DefaultFits (f : Field) : Prop := ∀ v, f.default = some v → f.type.admits v = true

structure Agree (fields : List Field) : Prop where
  distinct : (fields.map (·.name)).Nodup
  defaults : ∀ f ∈ fields, f.DefaultFits

/-- What is told about a field behind others: that its name is repeated before that its default does
not fit. -/
inductive Problem (record : TypeName) (front : List Field) (f : Field) : CatalogError → Prop
  | repeated (h : f.name ∈ front.map (·.name)) :
      Problem record front f (.duplicateField record f.name)
  | misfit {v : Value} (hnew : f.name ∉ front.map (·.name)) (hdefault : f.default = some v)
      (h : f.type.admits v = false) :
      Problem record front f (.defaultMismatch record f.name f.type v.kind)

theorem agree_nil : Agree [] := ⟨List.nodup_nil, nofun⟩

theorem agree_concat {front : List Field} {f : Field} :
    Agree (front ++ [f]) ↔ Agree front ∧ f.name ∉ front.map (·.name) ∧ f.DefaultFits := by
  have hnames : ((front ++ [f]).map (·.name)).Nodup ↔
      (front.map (·.name)).Nodup ∧ f.name ∉ front.map (·.name) := by
    rw [List.map_append, List.nodup_append]
    simp only [List.map_cons, List.map_nil, List.nodup_cons, List.not_mem_nil, not_false_eq_true,
      List.nodup_nil, and_self, true_and, List.mem_singleton, forall_eq]
    exact and_congr_right fun _ => ⟨fun h hmem => h _ hmem rfl, fun h _ ha heq => h (heq ▸ ha)⟩
  constructor
  · rintro ⟨hdistinct, hdefaults⟩
    obtain ⟨hfront, hnew⟩ := hnames.mp hdistinct
    obtain ⟨hfits, hlast⟩ := List.forall_mem_append.mp hdefaults
    exact ⟨⟨hfront, hfits⟩, hnew, hlast f (List.mem_singleton_self f)⟩
  · rintro ⟨⟨hfront, hfits⟩, hnew, hlast⟩
    refine ⟨hnames.mpr ⟨hfront, hnew⟩, List.forall_mem_append.mpr ⟨hfits, ?_⟩⟩
    intro g hg
    rw [List.mem_singleton.mp hg]
    exact hlast

theorem Agree.front {front back : List Field} (h : Agree (front ++ back)) : Agree front where
  distinct := by
    have hdistinct := h.distinct
    rw [List.map_append, List.nodup_append] at hdistinct
    exact hdistinct.1
  defaults f hf := h.defaults f (List.mem_append_left _ hf)

variable {record : TypeName} {front : List Field} {f : Field}

theorem fieldProblem?_eq_some {e : CatalogError} :
    RecordDef.fieldProblem? record (front.map (·.name)).reverse f = some e ↔
      f.Problem record front e := by
  unfold RecordDef.fieldProblem?
  split
  · rename_i hrepeated
    have hmem : f.name ∈ front.map (·.name) := by simpa using hrepeated
    constructor
    · intro h
      cases h
      exact .repeated hmem
    · intro h
      cases h with
      | repeated _ => rfl
      | misfit hnew _ _ => exact absurd hmem hnew
  · rename_i hrepeated
    have hnew : f.name ∉ front.map (·.name) := by simpa using hrepeated
    have hmisfit : f.Problem record front e ↔ ∃ v, f.default = some v ∧
        f.type.admits v = false ∧ e = .defaultMismatch record f.name f.type v.kind := by
      constructor
      · intro h
        cases h with
        | repeated hmem => exact absurd hmem hnew
        | misfit _ hdefault h => exact ⟨_, hdefault, h, rfl⟩
      · rintro ⟨v, hdefault, h, rfl⟩
        exact .misfit hnew hdefault h
    rw [hmisfit]
    cases f.default with
    | none => simp
    | some v =>
      simp only [Option.some.injEq, exists_eq_left']
      cases f.type.admits v with
      | true => simp
      | false => simp [eq_comm]

/-- Fields that agree still do so with one more if and only if it has no problem. -/
theorem fieldProblem?_eq_none (hfront : Agree front) :
    RecordDef.fieldProblem? record (front.map (·.name)).reverse f = none ↔
      Agree (front ++ [f]) := by
  rw [agree_concat, and_iff_right hfront, Option.eq_none_iff_forall_ne_some]
  simp only [ne_eq, fieldProblem?_eq_some]
  constructor
  · intro h
    have hnew : f.name ∉ front.map (·.name) := fun hmem => h _ (.repeated hmem)
    refine ⟨hnew, fun v hv => ?_⟩
    cases hadmits : f.type.admits v with
    | true => rfl
    | false => exact absurd (.misfit hnew hv hadmits) (h _)
  · rintro ⟨hnew, hfits⟩ e h
    cases h with
    | repeated hmem => exact hnew hmem
    | misfit _ hdefault hrefused => cases (hfits _ hdefault).symm.trans hrefused

theorem names_concat (front : List Field) (f : Field) :
    f.name :: (front.map (·.name)).reverse = ((front ++ [f]).map (·.name)).reverse := by
  simp

/-- The fields that were passed agree, so no field has a problem if and only if all agree. -/
theorem firstProblem?_eq_none {fields : List Field} (hfront : Agree front) :
    RecordDef.firstProblem? record (front.map (·.name)).reverse fields = none ↔
      Agree (front ++ fields) := by
  induction fields generalizing front with
  | nil => simpa [RecordDef.firstProblem?] using hfront
  | cons f rest ih =>
    rw [RecordDef.firstProblem?, names_concat, List.append_cons front f rest]
    cases hfirst : RecordDef.fieldProblem? record (front.map (·.name)).reverse f with
    | none => exact ih ((fieldProblem?_eq_none hfront).mp hfirst)
    | some e =>
      refine ⟨nofun, fun hagree => ?_⟩
      cases hfirst.symm.trans ((fieldProblem?_eq_none hfront).mpr hagree.front)

theorem firstProblem?_eq_some {fields : List Field} {e : CatalogError} (hfront : Agree front) :
    RecordDef.firstProblem? record (front.map (·.name)).reverse fields = some e ↔
      ∃ good f back, fields = good ++ f :: back ∧ Agree (front ++ good) ∧
        f.Problem record (front ++ good) e := by
  induction fields generalizing front with
  | nil => simp [RecordDef.firstProblem?]
  | cons f rest ih =>
    rw [RecordDef.firstProblem?, names_concat]
    cases hfirst : RecordDef.fieldProblem? record (front.map (·.name)).reverse f with
    | some e' =>
      constructor
      · intro h
        cases h
        refine ⟨[], f, rest, rfl, ?_, ?_⟩
        · rwa [List.append_nil]
        · rw [List.append_nil]
          exact fieldProblem?_eq_some.mp hfirst
      · rintro ⟨good, g, back, hsplit, hgood, hproblem⟩
        cases good with
        | nil =>
          cases hsplit
          rw [List.append_nil] at hproblem
          exact hfirst.symm.trans (fieldProblem?_eq_some.mpr hproblem)
        | cons _ good =>
          cases hsplit
          rw [List.append_cons front f good] at hgood
          cases hfirst.symm.trans ((fieldProblem?_eq_none hfront).mpr hgood.front)
    | none =>
      refine (ih ((fieldProblem?_eq_none hfront).mp hfirst)).trans ?_
      constructor
      · rintro ⟨good, g, back, rfl, hgood, hproblem⟩
        refine ⟨f :: good, g, back, rfl, ?_⟩
        rw [List.append_cons front f good]
        exact ⟨hgood, hproblem⟩
      · rintro ⟨good, g, back, hsplit, hgood, hproblem⟩
        cases good with
        | nil =>
          cases hsplit
          rw [List.append_nil] at hproblem
          cases hfirst.symm.trans (fieldProblem?_eq_some.mpr hproblem)
        | cons _ good =>
          cases hsplit
          rw [List.append_cons front f good] at hgood hproblem
          exact ⟨good, g, back, rfl, hgood, hproblem⟩

end Field

namespace RecordDef

/-- The first field that has a problem, behind fields that agree, and what is told about it. -/
inductive Offence (r : RecordDef) (e : CatalogError) : Prop
  | at (front : List Field) (f : Field) (back : List Field) (hsplit : r.fields = front ++ f :: back)
      (hfront : Field.Agree front) (h : f.Problem r.name front e)

variable {r : RecordDef}

theorem firstProblem?_eq_none :
    firstProblem? r.name [] r.fields = none ↔ Field.Agree r.fields :=
  Field.firstProblem?_eq_none Field.agree_nil

theorem firstProblem?_eq_some {e : CatalogError} :
    firstProblem? r.name [] r.fields = some e ↔ r.Offence e := by
  refine (Field.firstProblem?_eq_some Field.agree_nil).trans ?_
  constructor
  · rintro ⟨front, f, back, hsplit, hfront, h⟩
    exact ⟨front, f, back, hsplit, hfront, h⟩
  · rintro ⟨front, f, back, hsplit, hfront, h⟩
    exact ⟨front, f, back, hsplit, hfront, h⟩

/-- Among fields that agree, the one of a name is found with its place. -/
theorem findField?_eq_some (h : Field.Agree r.fields) {name : String} {i : Nat} {f : Field} :
    r.findField? name = some (i, f) ↔ r.fields[i]? = some f ∧ f.name = name := by
  have hfirst : ∀ j g, r.fields[j]? = some g → g.name = name →
      r.fields.findIdx? (·.name == name) = some j := by
    intro j g hget hname
    obtain ⟨hj, rfl⟩ := List.getElem?_eq_some_iff.mp hget
    rw [List.findIdx?_eq_some_iff_getElem]
    refine ⟨hj, by simp [hname], fun k hk => ?_⟩
    have hne := List.pairwise_iff_getElem.mp h.distinct k j (by simp; omega) (by simpa) hk
    simp only [List.getElem_map, hname] at hne
    simp [hne]
  unfold findField?
  constructor
  · intro hfound
    split at hfound
    · rename_i j hj
      obtain ⟨hlt, hname, -⟩ := List.findIdx?_eq_some_iff_getElem.mp hj
      rw [List.getElem?_eq_getElem hlt] at hfound
      cases hfound
      exact ⟨List.getElem?_eq_getElem hlt, beq_iff_eq.mp hname⟩
    · cases hfound
  · rintro ⟨hget, hname⟩
    simp only [hfirst i f hget hname, hget, Option.map_some]

end RecordDef

/-! ## Calls -/

namespace Catalog

variable {c next : Catalog} {r : RecordDef} {name : TypeName}

/-- A call goes through if and only if the name is new and the fields agree, and then the record
stands behind the others. -/
theorem declare_eq_ok :
    c.declare r = .ok next ↔
      (c.find? r.name = none ∧ Field.Agree r.fields) ∧ next = ⟨c.records ++ [r]⟩ := by
  unfold declare
  rw [contains_eq_isSome, ← RecordDef.firstProblem?_eq_none]
  cases c.find? r.name with
  | some _ => simp
  | none =>
    cases RecordDef.firstProblem? r.name [] r.fields with
    | some _ => simp
    | none => simp [eq_comm]

/-- Why a call is refused: that the name is taken comes before what is wrong with a field. -/
inductive Refusal (c : Catalog) (r : RecordDef) : CatalogError → Prop
  | taken (h : c.find? r.name ≠ none) : Refusal c r (.duplicateRecord r.name)
  | offence {e : CatalogError} (hnew : c.find? r.name = none) (h : r.Offence e) : Refusal c r e

theorem declare_eq_error {e : CatalogError} : c.declare r = .error e ↔ c.Refusal r e := by
  unfold declare
  rw [contains_eq_isSome]
  cases htaken : c.find? r.name with
  | some d =>
    have hfound : c.find? r.name ≠ none := htaken ▸ Option.some_ne_none d
    constructor
    · intro h
      cases h
      exact .taken hfound
    · intro h
      cases h with
      | taken _ => rfl
      | offence hnew _ => exact absurd hnew hfound
  | none =>
    have hrefused : c.Refusal r e ↔ r.Offence e := by
      refine ⟨fun h => ?_, .offence htaken⟩
      cases h with
      | taken hfound => exact absurd htaken hfound
      | offence _ h => exact h
    rw [hrefused, ← RecordDef.firstProblem?_eq_some]
    cases RecordDef.firstProblem? r.name [] r.fields with
    | some _ => simp
    | none => simp

theorem find?_concat (c : Catalog) (r : RecordDef) (name : TypeName) :
    find? ⟨c.records ++ [r]⟩ name = (c.find? name).or (if r.name = name then some r else none) := by
  simp only [find?, List.find?_append, List.find?_cons, List.find?_nil]
  by_cases hname : r.name = name
  · simp [hname]
  · simp [hname, beq_eq_false_iff_ne.mpr hname]

/-- The record is found from now on. -/
theorem find?_of_declare (h : c.declare r = .ok next) : next.find? r.name = some r := by
  obtain ⟨⟨hnew, -⟩, rfl⟩ := declare_eq_ok.mp h
  rw [find?_concat, hnew, if_pos rfl, Option.none_or]

/-! ## Growth -/

/-- What one catalog has on record the other has too. -/
def GrowsTo (c next : Catalog) : Prop :=
  ∀ name r, c.find? name = some r → next.find? name = some r

theorem GrowsTo.refl (c : Catalog) : c.GrowsTo c := fun _ _ h => h

theorem GrowsTo.trans {last : Catalog} (h : c.GrowsTo next) (h' : next.GrowsTo last) :
    c.GrowsTo last := fun name r hfind => h' name r (h name r hfind)

theorem growsTo_declare (h : c.declare r = .ok next) : c.GrowsTo next := by
  obtain ⟨-, rfl⟩ := declare_eq_ok.mp h
  intro name d hfind
  rw [find?_concat, hfind, Option.some_or]

theorem declareAll_cons_of_ok {calls : List RecordDef} (h : c.declare r = .ok next) :
    c.declareAll (r :: calls) = next.declareAll calls := by
  rw [declareAll, h]

theorem declareAll_cons_of_error {calls : List RecordDef} {e : CatalogError}
    (h : c.declare r = .error e) : c.declareAll (r :: calls) = c.declareAll calls := by
  rw [declareAll, h]

/-- A call replaces no definition, whether it goes through or not. -/
theorem growsTo_declareAll (c : Catalog) (calls : List RecordDef) :
    c.GrowsTo (c.declareAll calls) := by
  induction calls generalizing c with
  | nil => exact .refl c
  | cons r calls ih =>
    cases hcall : c.declare r with
    | ok next =>
      rw [declareAll_cons_of_ok hcall]
      exact (growsTo_declare hcall).trans (ih next)
    | error e =>
      rw [declareAll_cons_of_error hcall]
      exact ih c

theorem declareAll_append (c : Catalog) (calls more : List RecordDef) :
    c.declareAll (calls ++ more) = (c.declareAll calls).declareAll more := by
  induction calls generalizing c with
  | nil => rfl
  | cons r calls ih =>
    rw [List.cons_append]
    cases hcall : c.declare r with
    | ok next => rw [declareAll_cons_of_ok hcall, declareAll_cons_of_ok hcall, ih]
    | error e => rw [declareAll_cons_of_error hcall, declareAll_cons_of_error hcall, ih]

theorem declareAll_concat_of_ok {calls : List RecordDef}
    (h : (c.declareAll calls).declare r = .ok next) : c.declareAll (calls ++ [r]) = next := by
  rw [declareAll_append, declareAll_cons_of_ok h]
  rfl

theorem declareAll_concat_of_error {calls : List RecordDef} {e : CatalogError}
    (h : (c.declareAll calls).declare r = .error e) :
    c.declareAll (calls ++ [r]) = c.declareAll calls := by
  rw [declareAll_append, declareAll_cons_of_error h]
  rfl

/-! ## Sequences of calls -/

/-- Of the calls of one name, the first that goes through. -/
structure FirstDeclared (calls : List RecordDef) (name : TypeName) (r : RecordDef) : Prop where
  named : r.name = name
  called : ∃ earlier later, calls = earlier ++ r :: later ∧
    (∃ next, (({} : Catalog).declareAll earlier).declare r = .ok next) ∧
    ∀ front d back, earlier = front ++ d :: back → d.name = name →
      ∃ e, (({} : Catalog).declareAll front).declare d = .error e

/-- A name that is still new was in no call that went through. -/
theorem refused_of_find?_eq_none {calls : List RecordDef}
    (hnew : (c.declareAll calls).find? name = none) {front back : List RecordDef} {d : RecordDef}
    (hsplit : calls = front ++ d :: back) (hname : d.name = name) :
    ∃ e, (c.declareAll front).declare d = .error e := by
  cases hcall : (c.declareAll front).declare d with
  | error e => exact ⟨e, rfl⟩
  | ok next =>
    have hfound := growsTo_declareAll next back d.name d (find?_of_declare hcall)
    rw [hsplit, declareAll_append, declareAll_cons_of_ok hcall, ← hname, hfound] at hnew
    cases hnew

/-- A name that was new and is found now has been declared by a call in between. -/
theorem exists_call {calls : List RecordDef} (hnew : c.find? name = none)
    (hfind : (c.declareAll calls).find? name = some r) :
    ∃ earlier later, calls = earlier ++ r :: later ∧ (c.declareAll earlier).find? name = none ∧
      ∃ next, (c.declareAll earlier).declare r = .ok next := by
  induction calls generalizing c with
  | nil => cases hnew.symm.trans hfind
  | cons d calls ih =>
    cases hcall : c.declare d with
    | error e =>
      rw [declareAll_cons_of_error hcall] at hfind
      obtain ⟨earlier, later, rfl, hbefore⟩ := ih hnew hfind
      refine ⟨d :: earlier, later, rfl, ?_⟩
      rwa [declareAll_cons_of_error hcall]
    | ok next =>
      rw [declareAll_cons_of_ok hcall] at hfind
      by_cases hname : d.name = name
      · -- the name is found from now on, so it is this call
        have hfound := growsTo_declareAll next calls d.name d (find?_of_declare hcall)
        rw [hname] at hfound
        cases hfound.symm.trans hfind
        exact ⟨[], calls, rfl, hnew, next, hcall⟩
      · obtain ⟨-, rfl⟩ := declare_eq_ok.mp hcall
        have hstill : find? ⟨c.records ++ [d]⟩ name = none := by
          rw [find?_concat, hnew, if_neg hname, Option.none_or]
        obtain ⟨earlier, later, rfl, hbefore⟩ := ih hstill hfind
        refine ⟨d :: earlier, later, rfl, ?_⟩
        rwa [declareAll_cons_of_ok hcall]

/-- What is found under a name is what the first call that went through declared. -/
theorem find?_declareAll {calls : List RecordDef} :
    (({} : Catalog).declareAll calls).find? name = some r ↔ FirstDeclared calls name r := by
  constructor
  · intro hfind
    obtain ⟨earlier, later, hsplit, hbefore, hcall⟩ := exists_call rfl hfind
    exact ⟨name_of_find? hfind, earlier, later, hsplit, hcall,
      fun _ _ _ hsplit hname => refused_of_find?_eq_none hbefore hsplit hname⟩
  · rintro ⟨rfl, earlier, later, rfl, ⟨next, hcall⟩, -⟩
    rw [declareAll_append, declareAll_cons_of_ok hcall]
    exact growsTo_declareAll next later r.name r (find?_of_declare hcall)

/-! ## What a sequence of calls leaves -/

/-- Every record is filed under its own name, and its fields agree. -/
structure WellFormed (c : Catalog) : Prop where
  filed : ∀ r ∈ c.records, c.find? r.name = some r
  agree : ∀ r ∈ c.records, Field.Agree r.fields

theorem wellFormed_empty : WellFormed {} := ⟨nofun, nofun⟩

theorem WellFormed.declare (hc : c.WellFormed) (h : c.declare r = .ok next) : next.WellFormed := by
  have hfound := find?_of_declare h
  have hgrown := growsTo_declare h
  obtain ⟨⟨-, hagree⟩, rfl⟩ := declare_eq_ok.mp h
  constructor
  · intro d hd
    rcases List.mem_append.mp hd with hd | hd
    · exact hgrown d.name d (hc.filed d hd)
    · rwa [List.mem_singleton.mp hd]
  · intro d hd
    rcases List.mem_append.mp hd with hd | hd
    · exact hc.agree d hd
    · rwa [List.mem_singleton.mp hd]

theorem Declared.wellFormed (h : Declared c) : c.WellFormed := by
  induction h with
  | empty => exact wellFormed_empty
  | declare _ hcall ih => exact ih.declare hcall

theorem Declared.declareAll (h : Declared c) (calls : List RecordDef) :
    Declared (c.declareAll calls) := by
  induction calls generalizing c with
  | nil => exact h
  | cons r calls ih =>
    cases hcall : c.declare r with
    | ok next =>
      rw [declareAll_cons_of_ok hcall]
      exact ih (h.declare hcall)
    | error e =>
      rw [declareAll_cons_of_error hcall]
      exact ih h

/-- What a catalog keeps of the calls that built it, and what one more call does. -/
structure Keeps (c : Catalog) (calls : List RecordDef) : Prop where
  first : ∀ name r, c.find? name = some r ↔ FirstDeclared calls name r
  wellFormed : c.WellFormed
  field : ∀ r ∈ c.records, ∀ name i f,
    r.findField? name = some (i, f) ↔ r.fields[i]? = some f ∧ f.name = name
  accepts : ∀ r, (∃ next, c.declare r = .ok next) ↔ c.find? r.name = none ∧ Field.Agree r.fields
  stores : ∀ r next, c.declare r = .ok next →
    ({} : Catalog).declareAll (calls ++ [r]) = next ∧ next.records = c.records ++ [r]
  refuses : ∀ r e, c.declare r = .error e ↔ c.Refusal r e
  unchanged : ∀ r e, c.declare r = .error e → ({} : Catalog).declareAll (calls ++ [r]) = c

/-- Whatever is declared, in whatever order, the first good definition of a name is kept, and what
is refused is told exactly and changes nothing. -/
theorem declarations_kept (calls : List RecordDef) :
    (({} : Catalog).declareAll calls).Keeps calls := by
  have hformed := (Declared.empty.declareAll calls).wellFormed
  refine ⟨fun name r => find?_declareAll, hformed, fun r hr name i f => ?_, fun r => ?_,
    fun r next hcall => ?_, fun r e => declare_eq_error, fun r e => declareAll_concat_of_error⟩
  · exact RecordDef.findField?_eq_some (hformed.agree r hr)
  · simp only [declare_eq_ok, exists_and_left, exists_eq, and_true]
  · obtain ⟨-, hnext⟩ := declare_eq_ok.mp hcall
    exact ⟨declareAll_concat_of_ok hcall, congrArg Catalog.records hnext⟩

/-- A name that is repeated is told before the default that does not fit. -/
example : ({} : Catalog).declare
    ⟨⟨"Point"⟩, [⟨"x", .primitive .f64, none⟩, ⟨"x", .primitive .f64, some .null⟩]⟩ =
      .error (.duplicateField ⟨"Point"⟩ "x") := rfl

end Catalog

end SchemaPack
