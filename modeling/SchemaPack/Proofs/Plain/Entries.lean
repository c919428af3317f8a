import Mathlib.Data.List.Duplicate
import SchemaPack.Proofs.Library.Closure
import SchemaPack.Proofs.Plain.Completeness
import SchemaPack.Proofs.Plain.Extent
import SchemaPack.Proofs.Wire.Payload

/-!
What a record takes from the entries of a map. It gathers a value from every entry whose key it
knows, each key once, and skips the others or refuses them. So the order of the entries does not
matter, nor do those that are skipped; and a key that it knows cannot be there twice.
-/
namespace SchemaPack

open Wire (Cursor Entry MapOf Whole Yields)

/-! ## Steps on known bytes -/

namespace Read

variable {α β : Type} {front bytes : List UInt8} {a : α}

/-- Off an input that begins with the bytes, the step reads a value and moves behind them. -/
def Gets (step : Read α) (bytes : List UInt8) (a : α) : Prop :=
  ∀ position rest, step ⟨position, bytes ++ rest⟩ = .ok a ⟨position + bytes.length, rest⟩

/-- The next step goes on behind what is read first. -/
theorem Gets.bind_eq {first : Read α} (h : first.Gets front a) (second : α → Read β)
    (position : Nat) (rest : List UInt8) :
    (first >>= second) ⟨position, front ++ rest⟩ = second a ⟨position + front.length, rest⟩ :=
  Outcome.bind_of_ok (h position rest)

theorem gets_demand {take : Cursor → Option (α × Cursor)} (h : Yields take bytes a) (scope : Scope)
    (target : Ty) (fault : Wire.Format → ReadFault) :
    (demand take scope target fault).Gets bytes a :=
  fun position rest => demand_eq_ok.mpr (h position rest)

theorem gets_skip (h : Whole 1 bytes) (scope : Scope) (target : Ty) :
    (skip scope target).Gets bytes () :=
  fun position rest => skip_eq_ok.mpr (h.skip position rest)

theorem gets_within_iff {step : Read α} {s : Segment} :
    (within s step).Gets bytes a ↔ step.Gets bytes a :=
  forall_congr' fun _ => forall_congr' fun _ => Outcome.adaptExcept_eq_ok

end Read

namespace Plain

/-- A value that is read in front of anything is read wherever its bytes stand. -/
theorem OneValue.gets {step : Read Value} (h : OneValue step) {bytes : List UInt8}
    (hbytes : Whole 1 bytes) {position : Nat} {rest : List UInt8} {v : Value} {after : Cursor}
    (hok : step ⟨position, bytes ++ rest⟩ = .ok v after) : step.Gets bytes v := by
  obtain ⟨taken, hspans, hwhole, hmoved⟩ := h _ _ _ hok
  obtain rfl : bytes = taken := hbytes.eq_of_append_eq hwhole hspans.rest
  exact hmoved

/-- A value in front is read, and the next step goes on behind it. -/
theorem OneValue.bind_eq_ok {step : Read Value} (h : OneValue step) (s : Segment)
    {bytes : List UInt8} (hbytes : Whole 1 bytes) {α : Type} {second : Value → Read α}
    {position : Nat} {rest : List UInt8} {a : α} {after : Cursor} :
    (Read.within s step >>= second) ⟨position, bytes ++ rest⟩ = .ok a after ↔
      ∃ v, step.Gets bytes v ∧ second v ⟨position + bytes.length, rest⟩ = .ok a after := by
  constructor
  · intro hok
    obtain ⟨v, middle, hstep, -⟩ := Outcome.bind_eq_ok.mp hok
    have hgets := OneValue.gets (h.within s) hbytes hstep
    rw [hgets.bind_eq] at hok
    exact ⟨v, Read.gets_within_iff.mp hgets, hok⟩
  · rintro ⟨v, hgets, hok⟩
    rw [(Read.gets_within_iff.mpr hgets).bind_eq]
    exact hok

end Plain

/-! ## Entries and fields -/

theorem RecordDef.isSome_find? (r : RecordDef) (name : String) :
    (r.fields.find? (·.name == name)).isSome = r.declares name := List.isSome_find?

/-- The entries are the same for the record but for their order and, where the unexpected is
ignored, for those whose keys it does not know. -/
def RecordDef.Alike (r : RecordDef) (behaviour : Policy) (entries entries' : List Entry) : Prop :=
  entries.Perm entries' ∨ behaviour = .ignore ∧
    (entries.filter (r.declares ·.key)).Perm (entries'.filter (r.declares ·.key))

/-- What a record comes to hold for a field: what is read off its entry, or, where there is none,
what the field falls back to. -/
inductive Obtains (read : Field → Read Value) (entries : List Entry) (f : Field) (v : Value) : Prop
  | entry {e : Entry} (he : e ∈ entries) (hkey : e.key = f.name) (hread : (read f).Gets e.value v)
  | fallback (habsent : ∀ e ∈ entries, e.key ≠ f.name) (hfallback : f.fallback = some v)

/-- The values are those of the record's fields and no others. -/
structure Builds (read : Field → Read Value) (r : RecordDef) (entries : List Entry)
    (values : List (String × Value)) : Prop where
  declared : ∀ p ∈ values, r.declares p.1 = true
  length : values.length = r.fields.length
  obtained : ∀ f ∈ r.fields, ∃ v, Fields.get? f.name values = some v ∧ Obtains read entries f v

namespace Plain

/-- The pair is a key with the value that is read for its field off the entry. -/
def Fills (inside : Ty → Scope → Read Value) (scope : Scope) (r : RecordDef) (e : Entry)
    (p : String × Value) : Prop :=
  p.1 = e.key ∧ ∃ f, r.fields.find? (·.name == e.key) = some f ∧
    (inside f.type (scope.child e.key)).Gets e.value p.2

structure Gathers (inside : Ty → Scope → Read Value) (scope : Scope) (r : RecordDef)
    (entries : List Entry) (filled : List (String × Value)) : Prop where
  expected : scope.policy = .throw → ∀ e ∈ entries, r.declares e.key = true
  fills : List.Forall₂ (Fills inside scope r) (entries.filter (r.declares ·.key)) filled
  distinct : (Fields.names filled).Nodup

/-- What is gathered on top of other fields, with the last in front. -/
def GathersOnto (inside : Ty → Scope → Read Value) (scope : Scope) (r : RecordDef)
    (before : List (String × Value)) (entries : List Entry) (filled : List (String × Value)) :
    Prop :=
  ∃ later, Gathers inside scope r entries later ∧
    List.Disjoint (Fields.names later) (Fields.names before) ∧ filled = later.reverse ++ before

variable {inside : Ty → Scope → Read Value} {scope : Scope} {r : RecordDef} {target : Ty}
  {e : Entry} {entries : List Entry} {filled before : List (String × Value)} {f : Field}

theorem gathers_cons_unknown (hfind : r.fields.find? (·.name == e.key) = none) :
    Gathers inside scope r (e :: entries) filled ↔
      scope.policy ≠ .throw ∧ Gathers inside scope r entries filled := by
  have hunknown : r.declares e.key = false := by
    rw [← r.isSome_find?, hfind, Option.isSome_none]
  have hfilter : (e :: entries).filter (r.declares ·.key) = entries.filter (r.declares ·.key) :=
    List.filter_cons_of_neg (by simp [hunknown])
  constructor
  · rintro ⟨hexpected, hfills, hdistinct⟩
    have hpolicy : scope.policy ≠ .throw := by
      intro hthrow
      cases hunknown.symm.trans (hexpected hthrow e List.mem_cons_self)
    rw [hfilter] at hfills
    exact ⟨hpolicy, fun hthrow => absurd hthrow hpolicy, hfills, hdistinct⟩
  · rintro ⟨hpolicy, -, hfills, hdistinct⟩
    exact ⟨fun hthrow => absurd hthrow hpolicy, hfilter ▸ hfills, hdistinct⟩

theorem gathers_cons_known (hfind : r.fields.find? (·.name == e.key) = some f) :
    Gathers inside scope r (e :: entries) filled ↔
      ∃ v later, filled = (e.key, v) :: later ∧
        (inside f.type (scope.child e.key)).Gets e.value v ∧ e.key ∉ Fields.names later ∧
          Gathers inside scope r entries later := by
  have hknown : r.declares e.key = true := by
    rw [← r.isSome_find?, hfind, Option.isSome_some]
  have hfilter : (e :: entries).filter (r.declares ·.key) =
      e :: entries.filter (r.declares ·.key) := List.filter_cons_of_pos (by simp [hknown])
  constructor
  · rintro ⟨hexpected, hfills, hdistinct⟩
    rw [hfilter] at hfills
    obtain ⟨⟨_, v⟩, later, ⟨rfl, g, hg, hgets⟩, hlater, rfl⟩ := List.forall₂_cons_left_iff.mp hfills
    obtain rfl : f = g := Option.some.inj (hfind.symm.trans hg)
    obtain ⟨hnew, hdistinct⟩ := List.nodup_cons.mp hdistinct
    have hexpected : scope.policy = .throw → ∀ e ∈ entries, r.declares e.key = true :=
      fun hthrow d hd => hexpected hthrow d (List.mem_cons_of_mem _ hd)
    exact ⟨v, later, rfl, hgets, hnew, hexpected, hlater, hdistinct⟩
  · rintro ⟨v, later, rfl, hgets, hnew, hexpected, hfills, hdistinct⟩
    refine ⟨fun hthrow => ?_, ?_, List.nodup_cons.mpr ⟨hnew, hdistinct⟩⟩
    · exact List.forall_mem_cons.mpr ⟨hknown, hexpected hthrow⟩
    · rw [hfilter]
      exact .cons ⟨rfl, f, hfind, hgets⟩ hfills

theorem gathersOnto_nil : GathersOnto inside scope r before [] filled ↔ filled = before := by
  constructor
  · rintro ⟨later, ⟨-, hfills, -⟩, -, rfl⟩
    cases hfills
    rfl
  · rintro rfl
    exact ⟨[], ⟨nofun, .nil, List.nodup_nil⟩, List.disjoint_nil_left _, rfl⟩

theorem gathersOnto_unknown (hfind : r.fields.find? (·.name == e.key) = none) :
    GathersOnto inside scope r before (e :: entries) filled ↔
      scope.policy ≠ .throw ∧ GathersOnto inside scope r before entries filled := by
  simp only [GathersOnto, gathers_cons_unknown hfind, and_assoc, exists_and_left]

theorem gathersOnto_known (hfind : r.fields.find? (·.name == e.key) = some f) :
    GathersOnto inside scope r before (e :: entries) filled ↔
      e.key ∉ Fields.names before ∧ ∃ v, (inside f.type (scope.child e.key)).Gets e.value v ∧
        GathersOnto inside scope r ((e.key, v) :: before) entries filled := by
  simp only [GathersOnto, gathers_cons_known hfind]
  constructor
  · rintro ⟨_, ⟨v, later, rfl, hgets, hnew, hlater⟩, hfresh, rfl⟩
    obtain ⟨hbefore, hfresh⟩ := List.disjoint_cons_left.mp hfresh
    exact ⟨hbefore, v, hgets, later, hlater, List.disjoint_cons_right.mpr ⟨hnew, hfresh⟩, by simp⟩
  · rintro ⟨hbefore, v, hgets, later, hlater, hfresh, rfl⟩
    obtain ⟨hnew, hfresh⟩ := List.disjoint_cons_right.mp hfresh
    exact ⟨_, ⟨v, later, rfl, hgets, hnew, hlater⟩, List.disjoint_cons_left.mpr ⟨hbefore, hfresh⟩,
      by simp⟩

/-! ## Reading the entries -/

/-- The value of an entry that the record does not know is skipped, unless it is refused. -/
theorem readFields_unknown (hfind : r.fields.find? (·.name == e.key) = none) (count position : Nat)
    (rest : List UInt8) :
    readFields inside scope target r.fields (count + 1) before ⟨position, e.bytes ++ rest⟩ =
      if scope.policy = .throw then
        .error (scope.fail target (.unexpectedField e.key))
          ⟨position + e.name.length, e.value ++ rest⟩
      else
        readFields inside scope target r.fields count before ⟨position + e.bytes.length, rest⟩ := by
  have hname := Read.gets_demand e.spelled.yields scope target (.unexpectedFormat "field name" ·)
  rw [readFields, Entry.bytes, List.append_assoc, hname.bind_eq]
  simp only [hfind]
  split
  · rfl
  · have hskip := Read.gets_skip e.wellFormed.whole scope target
    rw [hskip.bind_eq, List.length_append, Nat.add_assoc]

/-- The value of an entry that the record knows is read, unless the key has been there before. -/
theorem readFields_known (hfind : r.fields.find? (·.name == e.key) = some f) (count position : Nat)
    (rest : List UInt8) :
    readFields inside scope target r.fields (count + 1) before ⟨position, e.bytes ++ rest⟩ =
      if Fields.contains e.key before then
        .error (scope.fail target (.duplicateField e.key))
          ⟨position + e.name.length, e.value ++ rest⟩
      else
        (Read.within (.field e.key) (inside f.type (scope.child e.key)) >>= fun v =>
          readFields inside scope target r.fields count ((e.key, v) :: before))
            ⟨position + e.name.length, e.value ++ rest⟩ := by
  have hname := Read.gets_demand e.spelled.yields scope target (.unexpectedFormat "field name" ·)
  rw [readFields, Entry.bytes, List.append_assoc, hname.bind_eq]
  simp only [hfind]
  split <;> rfl

/-- What is read off the entries is what the record gathers from them, and it is read if there is
such. -/
theorem readFields_eq_ok_iff (hinside : ∀ t scope, OneValue (inside t scope)) {position : Nat}
    {rest : List UInt8} {after : Cursor} :
    readFields inside scope target r.fields entries.length before
        ⟨position, entries.flatMap Entry.bytes ++ rest⟩ = .ok filled after ↔
      GathersOnto inside scope r before entries filled ∧
        after = ⟨position + (entries.flatMap Entry.bytes).length, rest⟩ := by
  induction entries generalizing before position with
  | nil =>
    rw [gathersOnto_nil]
    constructor
    · intro hok
      cases hok
      exact ⟨rfl, rfl⟩
    · rintro ⟨rfl, rfl⟩
      rfl
  | cons e entries ih =>
    rw [List.flatMap_cons, List.append_assoc, List.length_cons, List.length_append, ← Nat.add_assoc]
    cases hfind : r.fields.find? (·.name == e.key) with
    | none =>
      rw [readFields_unknown hfind, gathersOnto_unknown hfind]
      by_cases hpolicy : scope.policy = .throw
      · rw [if_pos hpolicy]
        constructor
        · nofun
        · rintro ⟨⟨hignore, -⟩, -⟩
          exact absurd hpolicy hignore
      · rw [if_neg hpolicy, ih]
        simp only [ne_eq, hpolicy, not_false_eq_true, true_and]
    | some f =>
      rw [readFields_known hfind, gathersOnto_known hfind]
      by_cases hbefore : e.key ∈ Fields.names before
      · rw [if_pos (Fields.contains_iff.mpr hbefore)]
        constructor
        · nofun
        · rintro ⟨⟨hnew, -⟩, -⟩
          exact absurd hbefore hnew
      · have hplace : position + e.name.length + e.value.length = position + e.bytes.length := by
          rw [Entry.bytes, List.length_append, Nat.add_assoc]
        rw [if_neg (mt Fields.contains_iff.mp hbefore),
          (hinside _ _).bind_eq_ok _ e.wellFormed.whole, hplace]
        simp only [ih, hbefore, not_false_eq_true, true_and, exists_and_right, ← and_assoc]

variable {c : Catalog} {name : TypeName} {bytes : List UInt8} {position : Nat} {rest : List UInt8}
  {v : Value} {after : Cursor}

/-- A map is read as a record if and only if the record can be completed from what it gathers. -/
theorem readRecord_eq_ok_iff (hinside : ∀ t scope, OneValue (inside t scope))
    (hfind : c.find? name = some r) (hbytes : MapOf entries bytes) :
    readRecord inside c name scope ⟨position, bytes ++ rest⟩ = .ok v after ↔
      ∃ filled complete, Gathers inside scope r entries filled ∧
        completeRecord filled r.fields [] = .ok complete ∧ v = .record complete ∧
          after = ⟨position + bytes.length, rest⟩ := by
  obtain ⟨front, hfront, rfl⟩ := hbytes
  have hheader := Read.gets_demand hfront.yields_mapHeader scope (.record name) .expectedMapEncoding
  have hsame : ∀ {filled : List (String × Value)}, Gathers inside scope r entries filled →
      completeRecord (filled.reverse ++ []) r.fields [] = completeRecord filled r.fields [] := by
    intro filled hgathers
    rw [List.append_nil]
    refine completeRecord_congr (fun f _ => ?_) []
    exact (Fields.get?_perm filled.reverse_perm.symm hgathers.distinct f.name).symm
  rw [readRecord, hfind, List.append_assoc, List.length_append, ← Nat.add_assoc]
  simp only [hheader.bind_eq, Outcome.bind_eq_ok, readFields_eq_ok_iff hinside]
  constructor
  · rintro ⟨_, _, ⟨⟨filled, hgathers, -, rfl⟩, rfl⟩, hok⟩
    rw [hsame hgathers] at hok
    cases hcomplete : completeRecord filled r.fields [] with
    | ok complete =>
      rw [hcomplete] at hok
      cases hok
      exact ⟨filled, complete, hgathers, hcomplete, rfl, rfl⟩
    | error fault =>
      rw [hcomplete] at hok
      cases hok
  · rintro ⟨filled, complete, hgathers, hcomplete, rfl, rfl⟩
    refine ⟨_, _, ⟨⟨filled, hgathers, List.disjoint_nil_right _, rfl⟩, rfl⟩, ?_⟩
    rw [hsame hgathers, hcomplete]
    rfl

/-! ## What is gathered -/

/-- From entries that are the same for the record the same is gathered, in some order. -/
theorem Gathers.alike (h : Gathers inside scope r entries filled) {entries' : List Entry}
    (halike : r.Alike scope.policy entries entries') :
    ∃ filled', Gathers inside scope r entries' filled' ∧ filled'.Perm filled := by
  have hfilter : (entries'.filter (r.declares ·.key)).Perm (entries.filter (r.declares ·.key)) := by
    rcases halike with hperm | ⟨-, hperm⟩
    · exact (hperm.filter _).symm
    · exact hperm.symm
  obtain ⟨filled', hfills, hperm⟩ := List.perm_comp_forall₂ hfilter h.fills
  have hnames : (Fields.names filled').Perm (Fields.names filled) := hperm.map Prod.fst
  refine ⟨filled', ⟨fun hthrow e he => ?_, hfills, hnames.nodup_iff.mpr h.distinct⟩, hperm⟩
  rcases halike with hentries | ⟨hignore, -⟩
  · exact h.expected hthrow e (hentries.mem_iff.mpr he)
  · cases hthrow.symm.trans hignore

/-- The values of the record are what it gathers and what its other fields fall back to. -/
theorem Gathers.builds (h : Gathers inside scope r entries filled)
    (hnodup : (r.fields.map (·.name)).Nodup) {complete : List (String × Value)}
    (hcomplete : completeRecord filled r.fields [] = .ok complete) {read : Field → Read Value}
    (hread : ∀ f ∈ r.fields, read f = inside f.type (scope.child f.name)) :
    Builds read r entries complete := by
  obtain ⟨-, -, hfields⟩ := get?_of_completeRecord hcomplete Fields.sorted_nil hnodup
  obtain ⟨hdeclared, hlength⟩ := declared_of_completeRecord hcomplete hnodup
  refine ⟨hdeclared, hlength, fun f hf => ?_⟩
  obtain ⟨v, hv, horigin⟩ := hfields f hf
  refine ⟨v, hv, ?_⟩
  cases hget : Fields.get? f.name filled with
  | some w =>
    rw [hget] at horigin
    cases horigin
    obtain ⟨e, he, hname, g, hg, hgets⟩ :=
      exists_of_forall₂ h.fills.flip (Fields.mem_of_get? hget)
    have hkey : e.key = f.name := hname.symm
    rw [hkey, find?_field hnodup hf] at hg
    cases hg
    refine .entry (List.mem_filter.mp he).1 hkey ?_
    rw [hread f hf, ← hkey]
    exact hgets
  | none =>
    rw [hget] at horigin
    refine .fallback (fun e he hkey => ?_) horigin
    have hknown : e ∈ entries.filter (r.declares ·.key) := by
      refine List.mem_filter.mpr ⟨he, ?_⟩
      rw [hkey]
      exact RecordDef.declares_iff.mpr ⟨f, hf, rfl⟩
    obtain ⟨p, hp, hname, -⟩ := exists_of_forall₂ h.fills hknown
    exact Fields.get?_eq_none_iff.mp hget p hp (hname.trans hkey)

/-- The keys are those that the record knows, in their order. -/
theorem Gathers.names_eq (h : Gathers inside scope r entries filled) :
    Fields.names filled = (entries.map (·.key)).filter r.declares := by
  rw [List.filter_map, Fields.names, ← List.forall₂_eq_eq_eq, List.forall₂_map_left_iff,
    List.forall₂_map_right_iff]
  exact h.fills.flip.imp fun p e hfills => hfills.1

/-- Only a key that the record does not know can be there twice, and only where it is skipped. -/
theorem Gathers.unknown_of_duplicate (h : Gathers inside scope r entries filled) {key : String}
    (hkey : List.Duplicate key (entries.map (·.key))) :
    r.declares key = false ∧ scope.policy ≠ .throw := by
  have hunknown : r.declares key = false := by
    by_contra hknown
    have htwice := (List.duplicate_iff_sublist.mp hkey).filter r.declares
    rw [← h.names_eq, List.filter_eq_self.mpr (by simpa using hknown)] at htwice
    exact List.nodup_iff_sublist.mp h.distinct key htwice
  refine ⟨hunknown, fun hthrow => ?_⟩
  obtain ⟨e, he, rfl⟩ := List.mem_map.mp hkey.mem
  cases hunknown.symm.trans (h.expected hthrow e he)

/-- A record that can be read off some entries is read off all that are the same for it. -/
theorem gets_readRecord_of_alike (hinside : ∀ t scope, OneValue (inside t scope))
    (hfind : c.find? name = some r) (hbytes : MapOf entries bytes)
    (hok : readRecord inside c name scope ⟨position, bytes ++ rest⟩ = .ok v after)
    {entries' : List Entry} {bytes' : List UInt8} (hbytes' : MapOf entries' bytes')
    (halike : r.Alike scope.policy entries entries') :
    (readRecord inside c name scope).Gets bytes' v := by
  obtain ⟨filled, complete, hgathers, hcomplete, rfl, -⟩ :=
    (readRecord_eq_ok_iff hinside hfind hbytes).mp hok
  obtain ⟨filled', hgathers', hperm⟩ := hgathers.alike halike
  have hsame : completeRecord filled' r.fields [] = completeRecord filled r.fields [] :=
    completeRecord_congr (fun f _ => Fields.get?_perm hperm hgathers'.distinct f.name) []
  intro position' rest'
  apply (readRecord_eq_ok_iff hinside hfind hbytes').mpr
  exact ⟨filled', complete, hgathers', hsame.trans hcomplete, rfl, rfl⟩

/-- A record can be read off some entries, wherever they stand, just if it can be read off others
that are the same for it. -/
theorem exists_readRecord_of_alike (hinside : ∀ t scope, OneValue (inside t scope))
    (hfind : c.find? name = some r) (hbytes : MapOf entries bytes) {entries' : List Entry}
    {bytes' : List UInt8} (hbytes' : MapOf entries' bytes')
    (halike : r.Alike scope.policy entries entries') {position' : Nat} {rest' : List UInt8}
    (hok : ∃ v after, readRecord inside c name scope ⟨position, bytes ++ rest⟩ = .ok v after) :
    ∃ v after, readRecord inside c name scope ⟨position', bytes' ++ rest'⟩ = .ok v after := by
  obtain ⟨v, after, hok⟩ := hok
  exact ⟨v, _, gets_readRecord_of_alike hinside hfind hbytes hok hbytes' halike position' rest'⟩

end Plain

/-- A step that does not succeed fails. -/
theorem Read.exists_error_iff {α : Type} {step : Read α} {cursor : Cursor} :
    (∃ e after, step cursor = .error e after) ↔ ¬ ∃ a after, step cursor = .ok a after := by
  cases step cursor with
  | ok a after => simp
  | error e after => simp

/-- It makes no difference to the known entries if those of an unknown key are left out. -/
theorem RecordDef.filter_without (r : RecordDef) {key : String} (hunknown : r.declares key = false)
    (entries : List Entry) :
    (entries.filter (·.key ≠ key)).filter (r.declares ·.key) =
      entries.filter (r.declares ·.key) := by
  rw [List.filter_filter]
  apply List.filter_congr
  intro e _
  by_cases hkey : e.key = key
  · rw [hkey, hunknown, Bool.false_and]
  · simp [hkey]

/-! ## Served codecs -/

def Handle.readField (h : Handle) (behaviour : Policy) (f : Field) : Read Value :=
  let scope := (Scope.root behaviour h.maxDepth).child f.name
  h.library.read scope.room ⟨f.type, .ready⟩ scope

namespace Context

variable {catalog : Catalog} {config : Config} {history : List (Ty × Policy)} {name : TypeName}
  {policy : Policy} {h : Handle}

theorem readWith_record
    (hserved : (((fresh catalog config).after history).request (.record name) policy).1 = .ok h)
    (behaviour : Policy) :
    h.readWith behaviour = Plain.readRecord (Plain.read catalog config.maxDepth) catalog name
      (Scope.root behaviour config.maxDepth) := by
  rw [readWith_eq_plain hserved]
  rfl

/-- A record that is served is declared, and its fields are read as their types. -/
theorem exists_record_of_served
    (hserved : (((fresh catalog config).after history).request (.record name) policy).1 = .ok h) :
    ∃ r, catalog.find? name = some r ∧ ∀ behaviour, ∀ f ∈ r.fields, h.readField behaviour f =
      Plain.read catalog config.maxDepth f.type
        ((Scope.root behaviour config.maxDepth).child f.name) := by
  obtain ⟨hfaithful, hcodec, htype, -, hdepth⟩ := faithful_of_request hserved
  have hpublished : h.library.contains (.record name) = true :=
    Compile.contains_iff.mpr ⟨h.codec, hcodec, htype⟩
  obtain ⟨r, hfind⟩ := hfaithful.find?_of_reaches hpublished (.refl _)
  refine ⟨r, hfind, fun behaviour f hf => ?_⟩
  have hdescribed := hfaithful.writer h.codec hcodec
  rw [show h.codec.type = .record name from htype] at hdescribed
  have hfield := hfaithful.contains_edge hcodec
    (hdescribed.edge_of_direct (Ty.Direct.field hfind hf))
  have hleads : h.library.Leads ⟨f.type, .ready⟩ := ⟨nofun, hfield⟩
  rw [Handle.readField, hfaithful.follows_reader.read_eq _ hleads, hdepth]
  rfl

/-- What a served record reads off a map holds for every field what is read off its entry, or else
what the field falls back to. The same is read off any map whose entries are the same for the
record. -/
theorem record_reads_entries (hcatalog : catalog.Declared)
    (hserved : (((fresh catalog config).after history).request (.record name) policy).1 = .ok h)
    (behaviour : Policy) :
    ∃ r, catalog.find? name = some r ∧ ∀ entries bytes, MapOf entries bytes →
      ∀ position rest v after,
        h.readWith behaviour ⟨position, bytes ++ rest⟩ = .ok v after →
          after = ⟨position + bytes.length, rest⟩ ∧
          (∃ values, v = .record values ∧ Builds (h.readField behaviour) r entries values) ∧
          ∀ entries' bytes', r.Alike behaviour entries entries' → MapOf entries' bytes' →
            (h.readWith behaviour).Gets bytes' v := by
  obtain ⟨r, hfind, hread⟩ := exists_record_of_served hserved
  have hinside := Plain.oneValue_read catalog config.maxDepth
  rw [readWith_record hserved]
  refine ⟨r, hfind, fun entries bytes hbytes position rest v after hok => ?_⟩
  obtain ⟨filled, complete, hgathers, hcomplete, rfl, rfl⟩ :=
    (Plain.readRecord_eq_ok_iff hinside hfind hbytes).mp hok
  have hnodup := hcatalog.fieldsDistinct r (Catalog.mem_of_find? hfind)
  refine ⟨rfl, ⟨complete, rfl, hgathers.builds hnodup hcomplete (hread behaviour)⟩, ?_⟩
  intro entries' bytes' halike hbytes'
  exact Plain.gets_readRecord_of_alike hinside hfind hbytes hok hbytes' halike

def senderEntry (s : String) (h : s.utf8ByteSize < Wire.lengthBound) : Entry :=
  .of "from" (by decide) _ (Wire.Grammar.spells_header h).wellFormed

def replyEntry : Entry :=
  .of "reply" (by decide) (Wire.mapBytes [senderEntry "b" (by decide)])
    (Wire.mapOf_mapBytes (by decide)).wellFormed

def stampEntry : Entry := .of "stamp" (by decide) [0xc0] Wire.Grammar.wellFormed_nil

def stampedEntries : List Entry := [stampEntry, replyEntry, senderEntry "a" (by decide)]

def restampedEntries : List Entry :=
  [senderEntry "a" (by decide), stampEntry, replyEntry, stampEntry]

set_option maxRecDepth 4000 in
theorem read_stamped :
    Plain.read messages (Scope.root .ignore 128).room message.type (Scope.root .ignore 128)
      ⟨0, Wire.mapBytes stampedEntries ++ []⟩ = .ok filledMessage ⟨29, []⟩ := by
  with_unfolding_all rfl

/-- The sender comes to stand in front of the reply, and there is one more stamp. -/
theorem restamped_message_read : ∃ h,
    (((fresh messages {}).after []).request message.type .throw).1 = .ok h ∧
      h.readWith .ignore ⟨0, Wire.mapBytes stampedEntries ++ []⟩ = .ok filledMessage ⟨29, []⟩ ∧
      (∃ values, filledMessage = .record values ∧
        Builds (h.readField .ignore) message stampedEntries values) ∧
      (h.readWith .ignore).Gets (Wire.mapBytes restampedEntries) filledMessage := by
  obtain ⟨h, hserved⟩ := message_is_served
  have hread := read_stamped
  rw [← readWith_eq_plain hserved] at hread
  obtain ⟨r, hfind, hreads⟩ := record_reads_entries messages_declared hserved .ignore
  obtain rfl : message = r := Option.some.inj hfind
  obtain ⟨-, hbuilds, hsame⟩ := hreads stampedEntries _ (Wire.mapOf_mapBytes (by decide)) 0 [] _ _
    hread
  have hknown : (stampedEntries.filter (message.declares ·.key)).Perm
      (restampedEntries.filter (message.declares ·.key)) :=
    .swap (senderEntry "a" (by decide)) replyEntry []
  exact ⟨h, hserved, hread, hbuilds,
    hsame restampedEntries _ (.inr ⟨rfl, hknown⟩) (Wire.mapOf_mapBytes (by decide))⟩

/-- A map with a key twice is refused, if the record knows the key or refuses the unexpected. Where
the unexpected is ignored, the entries of a key that the record does not know are skipped, however
many there are. The map is then read with the value with which it is read without them, and it is
refused just if it is refused without them; which error a refusal names is not compared. -/
theorem repeated_key_refused
    (hserved : (((fresh catalog config).after history).request (.record name) policy).1 = .ok h)
    (behaviour : Policy) :
    ∃ r, catalog.find? name = some r ∧ ∀ entries bytes, MapOf entries bytes →
      ∀ key, List.Duplicate key (entries.map (·.key)) →
        (r.declares key = true ∨ behaviour = .throw → ∀ position rest, ∃ e after,
          h.readWith behaviour ⟨position, bytes ++ rest⟩ = .error e after) ∧
        (r.declares key = false → behaviour = .ignore →
          ∀ bytes', MapOf (entries.filter (·.key ≠ key)) bytes' →
            (∀ v, (h.readWith behaviour).Gets bytes v ↔ (h.readWith behaviour).Gets bytes' v) ∧
            ∀ position rest position' rest',
              (∃ e after, h.readWith behaviour ⟨position, bytes ++ rest⟩ = .error e after) ↔
                ∃ e after, h.readWith behaviour ⟨position', bytes' ++ rest'⟩ = .error e after) := by
  obtain ⟨r, hfind, -⟩ := exists_record_of_served hserved
  have hinside := Plain.oneValue_read catalog config.maxDepth
  rw [readWith_record hserved]
  refine ⟨r, hfind, fun entries bytes hbytes key hkey => ⟨fun hcounts position rest => ?_, ?_⟩⟩
  · cases hresult : Plain.readRecord (Plain.read catalog config.maxDepth) catalog name
      (Scope.root behaviour config.maxDepth) ⟨position, bytes ++ rest⟩ with
    | error e after => exact ⟨e, after, rfl⟩
    | ok v after =>
      obtain ⟨filled, complete, hgathers, -⟩ :=
        (Plain.readRecord_eq_ok_iff hinside hfind hbytes).mp hresult
      obtain ⟨hunknown, hpolicy⟩ := hgathers.unknown_of_duplicate hkey
      rcases hcounts with hknown | hthrow
      · cases hunknown.symm.trans hknown
      · exact absurd hthrow hpolicy
  · intro hunknown hignore bytes' hbytes'
    have hfilter := r.filter_without hunknown entries
    have hwithout : r.Alike behaviour entries (entries.filter (·.key ≠ key)) :=
      .inr ⟨hignore, .of_eq hfilter.symm⟩
    have hwith : r.Alike behaviour (entries.filter (·.key ≠ key)) entries :=
      .inr ⟨hignore, .of_eq hfilter⟩
    constructor
    · intro v
      constructor
      · intro hgets
        exact Plain.gets_readRecord_of_alike hinside hfind hbytes (hgets 0 []) hbytes' hwithout
      · intro hgets
        exact Plain.gets_readRecord_of_alike hinside hfind hbytes' (hgets 0 []) hbytes hwith
    · intro position rest position' rest'
      rw [Read.exists_error_iff, Read.exists_error_iff, not_iff_not]
      exact ⟨Plain.exists_readRecord_of_alike hinside hfind hbytes hbytes' hwithout,
        Plain.exists_readRecord_of_alike hinside hfind hbytes' hbytes hwith⟩

def sentEntries : List Entry := [senderEntry "a" (by decide)]

def twiceStampedEntries : List Entry := [stampEntry, senderEntry "a" (by decide), stampEntry]

def twiceSentEntries : List Entry :=
  [senderEntry "a" (by decide), stampEntry, senderEntry "b" (by decide)]

theorem priority_inRange : IntType.u8.min ≤ 7 ∧ 7 ≤ IntType.u8.max := by decide

def sentMessage : Value :=
  .record [("from", .string "a"), ("part", .null), ("priority", .int .u8 ⟨7, priority_inRange⟩),
    ("reply", .null)]

set_option maxRecDepth 4000 in
theorem read_twiceStamped :
    Plain.read messages (Scope.root .ignore 128).room message.type (Scope.root .ignore 128)
      (.ofBytes (Wire.mapBytes twiceStampedEntries)) = .ok sentMessage ⟨22, []⟩ := by
  with_unfolding_all rfl

set_option maxRecDepth 4000 in
theorem read_sent :
    Plain.read messages (Scope.root .ignore 128).room message.type (Scope.root .ignore 128)
      ⟨0, Wire.mapBytes sentEntries ++ []⟩ = .ok sentMessage ⟨8, []⟩ := by
  with_unfolding_all rfl

/-- Two stamps are no fault where the unexpected is ignored. -/
theorem twice_stamped_message_read : ∃ h,
    (((fresh messages {}).after []).request message.type .throw).1 = .ok h ∧
      Wire.MapOf twiceStampedEntries (Wire.mapBytes twiceStampedEntries) ∧
      List.Duplicate "stamp" (twiceStampedEntries.map (·.key)) ∧
      (h.withPolicy .ignore).decode (Wire.mapBytes twiceStampedEntries) = .ok sentMessage := by
  obtain ⟨h, hserved⟩ := message_is_served
  exact ⟨h, hserved, Wire.mapOf_mapBytes (by decide), by decide,
    decode_of_read hserved read_twiceStamped⟩

/-- Two senders are refused, and two stamps are not. -/
theorem twice_sent_message_refused : ∃ h,
    (((fresh messages {}).after []).request message.type .throw).1 = .ok h ∧
      (∃ e after, h.readWith .ignore ⟨0, Wire.mapBytes twiceSentEntries ++ []⟩ = .error e after) ∧
      (h.readWith .ignore).Gets (Wire.mapBytes twiceStampedEntries) sentMessage := by
  obtain ⟨h, hserved⟩ := message_is_served
  obtain ⟨r, hfind, hkeys⟩ := repeated_key_refused hserved .ignore
  obtain rfl : message = r := Option.some.inj hfind
  obtain ⟨hrefused, -⟩ := hkeys twiceSentEntries _ (Wire.mapOf_mapBytes (by decide)) "from"
    (by decide)
  obtain ⟨-, hskipped⟩ := hkeys twiceStampedEntries _ (Wire.mapOf_mapBytes (by decide)) "stamp"
    (by decide)
  have hone : MapOf sentEntries (Wire.mapBytes sentEntries) := Wire.mapOf_mapBytes (by decide)
  have hsent : MapOf (twiceStampedEntries.filter (·.key ≠ "stamp")) (Wire.mapBytes sentEntries) :=
    hone
  have hread := read_sent
  rw [← readWith_eq_plain hserved] at hread
  have hgets := (oneValue_readWith hserved .ignore).gets hsent.wellFormed.whole hread
  obtain ⟨hsame, -⟩ := hskipped (by decide) rfl _ hsent
  exact ⟨h, hserved, hrefused (.inl (by decide)) 0 [], (hsame sentMessage).mpr hgets⟩

end Context

end SchemaPack
