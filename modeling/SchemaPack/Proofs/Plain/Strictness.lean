import SchemaPack.Proofs.Plain.Extent
import SchemaPack.Proofs.Plain.Traversal

/-!
Reading the same input on stricter terms: with a policy that refuses what the other passes over, and
with a limit on the depth that is no greater. Two such reads go side by side, step by step, until
the stricter one stops with a fault that only its own terms know. So what it accepts is accepted on
the laxer terms as well, with the same value and from the same bytes.
-/
namespace SchemaPack

open Wire (Cursor)

/-! ## Two runs side by side -/

/-- From every state the first step does what the second one does, or it stops with a failure of a
kind. -/
def StopsShort {ε σ α : Type} (P : ε → Prop) (m m' : EStateM ε σ α) : Prop :=
  ∀ s, m s = m' s ∨ ∃ e s', m s = .error e s' ∧ P e

namespace StopsShort

variable {ε σ α β : Type} {P : ε → Prop}

theorem refl (m : EStateM ε σ α) : StopsShort P m m := fun _ => .inl rfl

theorem of_eq {m m' : EStateM ε σ α} (h : m = m') : StopsShort P m m' := h ▸ refl m

theorem throw {e : ε} (he : P e) (m' : EStateM ε σ α) :
    StopsShort P (MonadExcept.throw e : EStateM ε σ α) m' :=
  fun s => .inr ⟨e, s, rfl, he⟩

theorem bind {m m' : EStateM ε σ α} {f f' : α → EStateM ε σ β} (hm : StopsShort P m m')
    (hf : ∀ a, StopsShort P (f a) (f' a)) : StopsShort P (m >>= f) (m' >>= f') := by
  intro s
  rcases hm s with heq | ⟨e, s', hstop, he⟩
  · cases hlax : m' s with
    | ok a s₁ =>
      rw [Outcome.bind_of_ok (heq.trans hlax), Outcome.bind_of_ok hlax]
      exact hf a s₁
    | error e s₁ =>
      rw [Outcome.bind_of_error (heq.trans hlax), Outcome.bind_of_error hlax]
      exact .inl rfl
  · exact .inr ⟨e, s', Outcome.bind_of_error hstop, he⟩

theorem sequential : Sequential fun m m' : EStateM ε σ _ => StopsShort P m m' :=
  ⟨fun _ => refl _, bind⟩

theorem adaptExcept {m m' : EStateM ε σ α} {f : ε → ε} (hm : StopsShort P m m')
    (hP : ∀ e, P e → P (f e)) :
    StopsShort P (EStateM.adaptExcept f m) (EStateM.adaptExcept f m') := by
  intro s
  simp only [EStateM.adaptExcept]
  rcases hm s with heq | ⟨e, s', hstop, he⟩
  · rw [heq]
    exact .inl rfl
  · rw [hstop]
    exact .inr ⟨f e, s', rfl, hP e he⟩

/-- What the first step accepts, the second one accepts. -/
theorem ok {m m' : EStateM ε σ α} (h : StopsShort P m m') {s s' : σ} {a : α}
    (hok : m s = .ok a s') : m' s = .ok a s' := by
  rcases h s with heq | ⟨e, s₁, hstop, -⟩
  · exact heq ▸ hok
  · cases hok.symm.trans hstop

end StopsShort

/-! ## Terms -/

def ReadFault.IsUnexpected (fault : ReadFault) : Prop :=
  (∃ field, fault = .unexpectedField field) ∨ ∃ tag, fault = .unmatchedUnionTag tag

namespace Scope

/-- The scope of the same value on terms that are no laxer. -/
structure Stricter (s s' : Scope) : Prop where
  name : s.name = s'.name
  depth : s.depth = s'.depth
  policy : s.policy = s'.policy ∨ s.policy = .throw
  maxDepth : s.maxDepth ≤ s'.maxDepth

/-- The faults with which a read on the first terms can stop where one on the second goes on. -/
def Bars (s s' : Scope) (fault : ReadFault) : Prop :=
  s.policy ≠ s'.policy ∧ fault.IsUnexpected ∨
    s.maxDepth < s'.maxDepth ∧ fault = .depthLimitExceeded s.maxDepth

def Stops (s s' : Scope) (e : CodecError) : Prop := ∃ r, e = .read r ∧ s.Bars s' r.fault

variable {s s' : Scope}

theorem Stops.within {e : CodecError} (h : s.Stops s' e) (segment : Segment) :
    s.Stops s' (e.within segment) := by
  obtain ⟨r, rfl, hbars⟩ := h
  exact ⟨_, rfl, hbars⟩

theorem stops_fail {fault : ReadFault} (h : s.Bars s' fault) (target : Ty) :
    s.Stops s' (s.fail target fault) := ⟨_, rfl, h⟩

namespace Stricter

theorem child (h : s.Stricter s') (name : String) : (s.child name).Stricter (s'.child name) :=
  ⟨rfl, congrArg (· + 1) h.depth, h.policy, h.maxDepth⟩

/-- A failure tells nothing of the terms, apart from its fault. -/
theorem fail_eq (h : s.Stricter s') (target : Ty) (fault : ReadFault) :
    s.fail target fault = s'.fail target fault := by
  rw [fail, fail, h.name]

theorem demand_eq (h : s.Stricter s') {α : Type} (take : Cursor → Option (α × Cursor)) (target : Ty)
    (fault : Wire.Format → ReadFault) :
    Read.demand take s target fault = Read.demand take s' target fault := by
  funext cursor
  simp only [Read.demand, h.fail_eq]

theorem skip_eq (h : s.Stricter s') (target : Ty) : Read.skip s target = Read.skip s' target := by
  funext cursor
  simp only [Read.skip, h.fail_eq]

theorem run_eq (h : s.Stricter s') (target : Ty)
    (step : Cursor → Except ReadFault Value × Cursor) : s.run target step = s'.run target step := by
  funext cursor
  simp only [run, h.fail_eq]

/-- Where the policies differ, the stricter terms refuse the unexpected. -/
theorem policy_cases (h : s.Stricter s') :
    s.policy = s'.policy ∨ s.policy = .throw ∧ s.policy ≠ s'.policy := by
  by_cases heq : s.policy = s'.policy
  · exact .inl heq
  · exact .inr ⟨h.policy.resolve_left heq, heq⟩

end Stricter

end Scope

/-! ## Containers -/

namespace Read

variable {s s' : Scope}

theorem stops_within {α : Type} {step step' : Read α} (h : StopsShort (s.Stops s') step step')
    (segment : Segment) : StopsShort (s.Stops s') (within segment step) (within segment step') :=
  h.adaptExcept fun _ he => he.within segment

theorem stops_fail {α : Type} (h : s.Stricter s') (target : Ty) (fault : ReadFault) :
    StopsShort (s.Stops s') (throw (s.fail target fault) : Read α)
      (throw (s'.fail target fault)) :=
  .of_eq (congrArg throw (h.fail_eq target fault))

theorem stops_readAll {item item' : Read Value} (h : StopsShort (s.Stops s') item item')
    (count : Nat) :
    StopsShort (s.Stops s') (readAll item count 0 []) (readAll item' count 0 []) := by
  rw [readAll_eq_mapM, readAll_eq_mapM]
  exact StopsShort.sequential.mapM _ _ fun i _ => stops_within h (.index i)

theorem stops_readEntries {key key' value value' : Read Value}
    (hkey : StopsShort (s.Stops s') key key') (hvalue : StopsShort (s.Stops s') value value')
    (count : Nat) :
    StopsShort (s.Stops s') (readEntries key value count 0 [])
      (readEntries key' value' count 0 []) := by
  rw [readEntries_eq_mapM, readEntries_eq_mapM]
  refine StopsShort.sequential.mapM _ _ fun i _ => ?_
  exact .bind (stops_within hkey _) fun k => .bind (stops_within hvalue _) fun v => .refl _

end Read

namespace Plain

variable {c : Catalog} {inside inside' : Ty → Scope → Read Value} {s s' : Scope}

abbrev InsideStops (inside inside' : Ty → Scope → Read Value) (s s' : Scope) : Prop :=
  ∀ t name, StopsShort (s.Stops s') (inside t (s.child name)) (inside' t (s'.child name))

theorem stops_readItems (hinside : InsideStops inside inside' s s') (types : List Ty) :
    StopsShort (s.Stops s') (readItems inside s 0 types) (readItems inside' s' 0 types) := by
  rw [readItems_eq_mapM, readItems_eq_mapM]
  exact StopsShort.sequential.mapM _ _ fun p _ => Read.stops_within (hinside p.1 _) _

theorem stops_readTuple (h : s.Stricter s') (hinside : InsideStops inside inside' s s')
    (items : List Ty) :
    StopsShort (s.Stops s') (readTuple inside items s) (readTuple inside' items s') := by
  unfold readTuple
  refine .bind (.of_eq (h.demand_eq _ _ _)) fun count => ?_
  split
  · exact .bind (stops_readItems hinside items) fun values => .refl _
  · exact Read.stops_fail h _ _

/-- The fields of a payload are read side by side up to the first one that is not declared, and
beyond it if both reads pass over it. -/
theorem stops_readField (h : s.Stricter s') (hinside : InsideStops inside inside' s s')
    (target : Ty) (fields : List Field) (filled : List (String × Value)) :
    StopsShort (s.Stops s') (readField inside s target fields filled)
      (readField inside' s' target fields filled) := by
  unfold readField
  refine .bind (.of_eq (h.demand_eq _ _ _)) fun name => ?_
  split
  · rcases h.policy_cases with heq | ⟨hthrow, hne⟩
    · rw [heq]
      split
      · exact Read.stops_fail h _ _
      · exact .bind (.of_eq (h.skip_eq target)) fun _ => .refl _
    · have hbars : s.Bars s' (.unexpectedField name) := .inl ⟨hne, .inl ⟨name, rfl⟩⟩
      rw [if_pos hthrow]
      exact .throw (Scope.stops_fail hbars target) _
  · split
    · exact Read.stops_fail h _ _
    · exact .bind (Read.stops_within (hinside _ name) _) fun v => .refl _

theorem stops_readFields (h : s.Stricter s') (hinside : InsideStops inside inside' s s')
    (target : Ty) (fields : List Field) (count : Nat) (filled : List (String × Value)) :
    StopsShort (s.Stops s') (readFields inside s target fields count filled)
      (readFields inside' s' target fields count filled) := by
  rw [readFields_eq_foldlM, readFields_eq_foldlM]
  exact StopsShort.sequential.foldlM _ _
    (fun before _ _ => stops_readField h hinside target fields before) filled

theorem stops_readRecord (h : s.Stricter s') (hinside : InsideStops inside inside' s s')
    (name : TypeName) :
    StopsShort (s.Stops s') (readRecord inside c name s) (readRecord inside' c name s') := by
  unfold readRecord
  split
  · exact .refl _
  · refine .bind (.of_eq (h.demand_eq _ _ _)) fun count => ?_
    refine .bind (stops_readFields h hinside _ _ count []) fun filled => ?_
    split
    · exact .refl _
    · exact Read.stops_fail h _ _

/-- A tag that is not known is refused by both reads, unless the union is nullable and the laxer
terms take it for null. -/
theorem stops_readAlternative (h : s.Stricter s') (hinside : InsideStops inside inside' s s')
    (target : Ty) (isNullable : Bool) (alternatives : List Ty) (tag : String) :
    StopsShort (s.Stops s') (readAlternative inside s target isNullable alternatives tag)
      (readAlternative inside' s' target isNullable alternatives tag) := by
  unfold readAlternative
  split
  · rename_i t _
    have hheld := Read.stops_within (hinside t s.name) (.alternative t.tag)
    rw [h.name] at hheld ⊢
    exact .bind hheld fun held => .refl _
  · rcases h.policy_cases with heq | ⟨hthrow, hne⟩
    · rw [heq]
      split
      · exact .bind (.of_eq (h.skip_eq target)) fun _ => .refl _
      · exact Read.stops_fail h _ _
    · have hbars : s.Bars s' (.unmatchedUnionTag tag) := .inl ⟨hne, .inr ⟨tag, rfl⟩⟩
      have hrefused : ¬ (isNullable = true ∧ s.policy = .ignore) := by
        rw [hthrow]
        exact nofun
      rw [if_neg hrefused]
      exact .throw (Scope.stops_fail hbars target) _

theorem stops_readUnion (h : s.Stricter s') (hinside : InsideStops inside inside' s s')
    (target : Ty) (isNullable : Bool) (alternatives : List Ty) :
    StopsShort (s.Stops s') (readUnion inside target isNullable alternatives s)
      (readUnion inside' target isNullable alternatives s') := by
  unfold readUnion
  refine .bind (.of_eq (h.demand_eq _ _ _)) fun count => ?_
  split
  · refine .bind (.of_eq (h.demand_eq _ _ _)) fun tag => ?_
    exact stops_readAlternative h hinside target isNullable alternatives tag
  · exact Read.stops_fail h _ _

theorem stops_orNull {step step' : Read Value} (h : StopsShort (s.Stops s') step step')
    (isNullable : Bool) :
    StopsShort (s.Stops s') (orNull isNullable step) (orNull isNullable step') := by
  intro cursor
  unfold orNull
  split
  · exact .inl rfl
  · exact h cursor

theorem stops_readPresent (h : s.Stricter s') (hinside : InsideStops inside inside' s s') (t : Ty) :
    StopsShort (s.Stops s') (readPresent inside c s t) (readPresent inside' c s' t) := by
  induction t with
  | primitive p => exact .of_eq (h.run_eq _ _)
  | bytes => exact .of_eq (h.run_eq _ _)
  | decimal => exact .of_eq (h.run_eq _ _)
  | version => exact .of_eq (h.run_eq _ _)
  | tuple items _ => exact stops_readTuple h hinside items
  | union alternatives _ => exact stops_readUnion h hinside _ false alternatives
  | list element _ =>
    have helement := hinside element s.name
    simp only [readPresent]
    rw [h.name] at helement ⊢
    refine .bind (.of_eq (h.demand_eq _ _ _)) fun count => ?_
    exact .bind (Read.stops_readAll helement count) fun items => .refl _
  | map key value _ _ =>
    have hkey := hinside key s.name
    have hvalue := hinside value s.name
    simp only [readPresent]
    rw [h.name] at hkey hvalue ⊢
    refine .bind (.of_eq (h.demand_eq _ _ _)) fun count => ?_
    exact .bind (Read.stops_readEntries hkey hvalue count) fun entries => .refl _
  | nullable inner ih =>
    cases inner with
    | union alternatives => exact stops_readUnion h hinside _ true alternatives
    | _ => exact ih
  | record name => exact stops_readRecord h hinside name

/-- A value is read on stricter terms as on laxer ones, or with a fault that only the stricter terms
know. The room that the limits leave differs by as much as the limits do. -/
theorem stops_read (c : Catalog) {room room' : Nat} (h : s.Stricter s')
    (hroom : s.maxDepth + room' = s'.maxDepth + room) (t : Ty) :
    StopsShort (s.Stops s') (read c room t s) (read c room' t s') := by
  have hlimit := h.maxDepth
  induction room generalizing room' t s s' with
  | zero =>
    rw [read]
    rcases Nat.lt_or_eq_of_le hlimit with hlt | heq
    · have hbars : s.Bars s' (.depthLimitExceeded s.maxDepth) := .inr ⟨hlt, rfl⟩
      exact .throw (Scope.stops_fail hbars t) _
    · obtain rfl : room' = 0 := by omega
      rw [heq]
      exact Read.stops_fail h _ _
  | succ room ih =>
    obtain ⟨room', rfl⟩ : ∃ n, room' = n + 1 := ⟨room' - 1, by omega⟩
    rw [read, read]
    refine stops_orNull (stops_readPresent h (fun u name => ?_) t) t.isNullable
    exact ih (h.child name) (by simp only [Scope.child]; omega) u hlimit

/-- A value that is read for its own sake. -/
theorem stops_root (c : Catalog) (strict lax : Policy)
    (hpolicy : strict = lax ∨ strict = .throw) {limit limit' : Nat} (hlimit : limit ≤ limit')
    (t : Ty) :
    StopsShort ((Scope.root strict limit).Stops (.root lax limit'))
      (read c (Scope.root strict limit).room t (.root strict limit))
      (read c (Scope.root lax limit').room t (.root lax limit')) := by
  have hstricter : (Scope.root strict limit).Stricter (.root lax limit') :=
    ⟨rfl, rfl, hpolicy, hlimit⟩
  refine stops_read c hstricter ?_ t
  simp only [Scope.room, Scope.root]
  omega

end Plain

/-! ## Served codecs -/

namespace Context

variable {catalog : Catalog} {config : Config} {history : List (Ty × Policy)} {type : Ty}
  {policy : Policy} {h : Handle}

/-- At any place of any input, a served codec that refuses the unexpected does what it does when it
ignores the unexpected, or it stops with a field or a tag that the type does not know. So what it
accepts, it accepts also when it ignores the unexpected, with the same value and the same cursor. -/
theorem policy_only_relaxes
    (hserved : (((fresh catalog config).after history).request type policy).1 = .ok h)
    (cursor : Cursor) :
    (h.readWith .throw cursor = h.readWith .ignore cursor ∨
        ∃ e after, h.readWith .throw cursor = .error (.read e) after ∧ e.fault.IsUnexpected) ∧
      ∀ v after, h.readWith .throw cursor = .ok v after →
        h.readWith .ignore cursor = .ok v after := by
  have hstops := Plain.stops_root catalog .throw .ignore (.inr rfl) (Nat.le_refl config.maxDepth)
    type
  rw [readWith_eq_plain hserved, readWith_eq_plain hserved]
  refine ⟨(hstops cursor).imp_right ?_, fun v after hok => hstops.ok hok⟩
  rintro ⟨e, after, hstop, r, rfl, hbars⟩
  refine ⟨r, after, hstop, ?_⟩
  -- the limits are the same, so the fault is one of the policy
  rcases hbars with ⟨-, hunexpected⟩ | ⟨hlt, -⟩
  · exact hunexpected
  · exact absurd hlt (Nat.lt_irrefl _)

def emptyFolderBytes : List UInt8 :=
  [0x82, 0xa4, 0x6e, 0x61, 0x6d, 0x65, 0xa1, 0x61, 0xa5, 0x66, 0x69, 0x6c, 0x65, 0x73, 0x90]

def emptyFolder : Value := .record [("files", .list []), ("name", .string "a")]

set_option maxRecDepth 4000 in
theorem read_emptyFolderBytes :
    Plain.read folders (Scope.root .throw 128).room (.record ⟨"Folder"⟩) (Scope.root .throw 128)
      (.ofBytes emptyFolderBytes) = .ok emptyFolder ⟨15, []⟩ := by
  with_unfolding_all rfl

set_option maxRecDepth 4000 in
theorem refuse_folderBytes :
    Plain.read folders (Scope.root .throw 128).room (.record ⟨"Folder"⟩) (Scope.root .throw 128)
      (.ofBytes folderBytes) =
        .error (.ofReadFault Scope.rootName (.record ⟨"Folder"⟩) (.unexpectedField "tags"))
          ⟨27, [0x92, 0x01, 0x81, 0xa1, 0x78, 0xc3]⟩ := by
  with_unfolding_all rfl

/-- The empty folder is read under both policies, and the folder with tags only where they are
ignored. -/
theorem folder_policy_relaxes : ∃ h,
    (((fresh folders {}).after folderHistory).request (.record ⟨"Folder"⟩) .throw).1 = .ok h ∧
      h.readWith .ignore (.ofBytes emptyFolderBytes) = .ok emptyFolder ⟨15, []⟩ ∧
      h.readWith .ignore (.ofBytes folderBytes) = .ok taggedFolder ⟨33, []⟩ ∧
      h.readWith .throw (.ofBytes folderBytes) =
        .error (.ofReadFault Scope.rootName (.record ⟨"Folder"⟩) (.unexpectedField "tags"))
          ⟨27, [0x92, 0x01, 0x81, 0xa1, 0x78, 0xc3]⟩ ∧
      ∃ e after, h.readWith .throw (.ofBytes folderBytes) = .error (.read e) after ∧
        e.fault.IsUnexpected := by
  obtain ⟨h, hserved⟩ := folder_is_served
  have hempty := read_emptyFolderBytes
  have htagged := read_folderBytes
  have hrefused := refuse_folderBytes
  rw [← readWith_eq_plain hserved] at hempty htagged hrefused
  obtain ⟨-, haccepts⟩ := policy_only_relaxes hserved (.ofBytes emptyFolderBytes)
  obtain ⟨heq | hstops, -⟩ := policy_only_relaxes hserved (.ofBytes folderBytes)
  · cases hrefused.symm.trans (heq.trans htagged)
  · exact ⟨h, hserved, haccepts _ _ hempty, htagged, hrefused, hstops⟩

end Context

end SchemaPack
