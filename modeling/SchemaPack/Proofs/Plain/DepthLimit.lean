import Mathlib.Algebra.Order.BigOperators.Group.List
import SchemaPack.Proofs.Library.DirectCycles
import SchemaPack.Proofs.Plain.Strictness

/-!
What the limit on the depth does to a read. It cuts the read off and changes nothing else; and it
bounds how deep the calls of routines nest. A wrapper for null calls on at the same depth, but it
takes a nullable off the type, so between two depths there are no more calls than nullables on top
of one another.
-/
namespace SchemaPack

open Wire (Cursor)

/-! ## Wrappers on top of one another -/

namespace Ty

/-- How many codecs that wrap another for null a value passes on its way to the codec proper. -/
def wrappers : Ty → Nat
  | nullable (union _) => 0
  | nullable inner => wrappers inner + 1
  | _ => 0

theorem wrappers_nullable {t : Ty} (h : ∀ alternatives, t ≠ .union alternatives) :
    (Ty.nullable t).wrappers = t.wrappers + 1 := by
  cases t with
  | union alternatives => exact absurd rfl (h alternatives)
  | _ => rfl

theorem wrappers_le_sizeOf (t : Ty) : t.wrappers ≤ sizeOf t := by
  induction t with
  | nullable inner ih =>
    by_cases hunion : ∃ alternatives, inner = .union alternatives
    · obtain ⟨alternatives, rfl⟩ := hunion
      exact Nat.zero_le _
    · rw [wrappers_nullable fun alternatives heq => hunion ⟨alternatives, heq⟩]
      simp only [nullable.sizeOf_spec]
      omega
  | _ => exact Nat.zero_le _

theorem Indirect.sizeOf_lt {a b : Ty} (h : Indirect a b) : sizeOf b < sizeOf a := by
  cases h with
  | alternative halternative =>
    have := List.sizeOf_lt_of_mem halternative
    simp only [union.sizeOf_spec]
    omega
  | _ =>
    simp only [list.sizeOf_spec, map.sizeOf_spec, nullable.sizeOf_spec]
    omega

/-- The types that a type reaches are no larger than the type itself or the largest type of a field,
so there is a most number of wrappers on top of one another. -/
theorem exists_width (c : Catalog) (t : Ty) : ∃ width, Throughout c (·.wrappers ≤ width) t := by
  let sizes := (c.records.flatMap (·.fields)).map fun f => sizeOf f.type
  refine ⟨sizeOf t + sizes.sum, fun u hu => (wrappers_le_sizeOf u).trans ?_⟩
  induction hu with
  | refl => exact Nat.le_add_right _ _
  | @tail a b _ hpart ih =>
    rcases hpart with hdirect | hindirect
    · cases hdirect with
      | item hitem => exact (Direct.item (c := c) hitem).sizeOf_lt.le.trans ih
      | @field name r f hfind hfield =>
        have hmem : sizeOf f.type ∈ sizes := List.mem_map_of_mem
          (List.mem_flatMap.mpr ⟨r, Catalog.mem_of_find? hfind, hfield⟩)
        exact (List.le_sum_of_mem hmem).trans (Nat.le_add_left _ _)
    · exact hindirect.sizeOf_lt.le.trans ih

end Ty

/-! ## One level further in -/

section Congruence

variable {through through' : Edge → Scope → Read Value} {scope : Scope}

abbrev AgreeInside (through through' : Edge → Scope → Read Value) (scope : Scope)
    (edges : List Edge) : Prop :=
  ∀ e ∈ edges, ∀ name, through e (scope.child name) = through' e (scope.child name)

theorem readItems_congr {edges : List Edge} (h : AgreeInside through through' scope edges)
    (style : TupleStyle) (i : Nat) :
    readItems through scope style i edges = readItems through' scope style i edges := by
  induction edges generalizing i with
  | nil => rfl
  | cons e edges ih =>
    have hrest := ih (fun d hd => h d (List.mem_cons_of_mem _ hd)) (i + 1)
    simp only [readItems, h e List.mem_cons_self, hrest]

theorem readFields_congr {fields : List FieldPlan}
    (h : AgreeInside through through' scope (fields.map (·.edge))) (target : Ty) (count : Nat)
    (filled : List (String × Value)) :
    readFields through scope target fields count filled =
      readFields through' scope target fields count filled := by
  induction count generalizing filled with
  | zero => rfl
  | succ count ih =>
    simp only [readFields, ih]
    congr 1
    funext name
    split
    · rfl
    · rename_i f hfind
      simp only [h f.edge (List.mem_map_of_mem (List.mem_of_find?_eq_some hfind))]

theorem readAlternative_congr {alternatives : List Alternative}
    (h : AgreeInside through through' scope (alternatives.map (·.edge))) (target : Ty)
    (isNullable : Bool) (tag : String) :
    readAlternative through scope target isNullable alternatives tag =
      readAlternative through' scope target isNullable alternatives tag := by
  unfold readAlternative
  split
  · rename_i a hfind
    simp only [h a.edge (List.mem_map_of_mem (List.mem_of_find?_eq_some hfind))]
  · rfl

/-- The body of a routine calls nothing but its own edges, one level further in. -/
theorem Routine.read_congr {r : Routine} (h : AgreeInside through through' scope r.edges)
    (target : Ty) : r.read through target scope = r.read through' target scope := by
  cases r with
  | tuple style items =>
    have hitems : AgreeInside through through' scope items := h
    simp only [Routine.read, readItems_congr hitems]
  | union isNullable alternatives => simp only [Routine.read, readAlternative_congr h]
  | list element => simp only [Routine.read, h element List.mem_cons_self]
  | map key value =>
    simp only [Routine.read, h key List.mem_cons_self,
      h value (List.mem_cons_of_mem _ List.mem_cons_self)]
  | record name fields => simp only [Routine.read, readFields_congr h]
  | _ => rfl

end Congruence

/-! ## Call by call -/

/-- A routine whose body is running: the type of its codec, and the depth of the value it reads. -/
structure Call where
  type : Ty
  depth : Nat

/-- The body of a routine, given how to call. A wrapper for null calls on in the same scope. -/
def Routine.body (r : Routine) (call : Edge → Scope → Read Value) (target : Ty) (scope : Scope) :
    Read Value :=
  match r with
  | .nullable inner => Plain.orNull true (call inner scope)
  | routine => routine.read call target scope

/-- Reads through an edge call by call, with at most so many calls nested. A wrapper for null is a
call like any other. A call looks at the limit first; then its body runs under a watch, which sees
the calls that are running, the new one in front. -/
def Library.readCalls (lib : Library) (watch : List Call → Read Value → Read Value) :
    (nested : Nat) → List Call → Edge → Scope → Read Value
  | 0, _, edge, _ => throw (.internal (.unresolvedDeferredCodec edge.type))
  | nested + 1, calls, edge, scope =>
    match lib.resolve edge.type edge.link with
    | .error e => throw (.internal e)
    | .ok x =>
      if scope.maxDepth < scope.depth then
        throw (scope.fail x.type (.depthLimitExceeded scope.maxDepth))
      else
        let running := ⟨x.type, scope.depth⟩ :: calls
        watch running (x.reader.body (readCalls lib watch nested running) x.type scope)

/-- The watch does nothing to a body as long as the calls that are running are within the limit, and
no more than a bound. Beyond that it may do anything. -/
def Call.Spares (watch : List Call → Read Value → Read Value) (limit bound : Nat) : Prop :=
  ∀ calls body, (∀ call ∈ calls, call.depth ≤ limit) → calls.length ≤ bound →
    watch calls body = body

/-- The watch that lets nothing run above the limit or beyond the bound. -/
def Call.bar (limit bound : Nat) (calls : List Call) (body : Read Value) : Read Value :=
  if (∀ call ∈ calls, call.depth ≤ limit) ∧ calls.length ≤ bound then body
  else throw (.internal (.unresolvedDeferredCodec .bytes))

theorem Call.bar_spares (limit bound : Nat) : Spares (bar limit bound) limit bound :=
  fun _ _ hdepth hlength => if_pos ⟨hdepth, hlength⟩

/-- How many calls can be nested, given how many wrappers lie on top of one another. -/
def Call.bound (width limit : Nat) : Nat := (width + 1) * (limit + 1)

/-- The calls that are running when a value of a type is asked for at some depth. -/
structure Call.Nest (width limit : Nat) (calls : List Call) (t : Ty) (depth : Nat) : Prop where
  depth_le : ∀ call ∈ calls, call.depth ≤ limit
  length_le : calls.length ≤ Call.bound width limit
  room : depth ≤ limit → calls.length + t.wrappers ≤ (width + 1) * depth + width

namespace Call.Nest

variable {width limit : Nat} {calls : List Call} {t : Ty} {depth : Nat}

theorem nil (ht : t.wrappers ≤ width) : Nest width limit [] t 0 :=
  ⟨nofun, Nat.zero_le _, fun _ => by simpa using ht⟩

theorem length_succ_le (h : Nest width limit calls t depth) (hdepth : depth ≤ limit) :
    calls.length + 1 + t.wrappers ≤ (width + 1) * (depth + 1) := by
  have hroom := h.room hdepth
  rw [Nat.mul_succ]
  omega

/-- The body of a routine for the type begins. -/
theorem enter (h : Nest width limit calls t depth) (hdepth : depth ≤ limit) :
    (∀ call ∈ (⟨t, depth⟩ : Call) :: calls, call.depth ≤ limit) ∧
      ((⟨t, depth⟩ : Call) :: calls).length ≤ Call.bound width limit := by
  refine ⟨List.forall_mem_cons.mpr ⟨hdepth, h.depth_le⟩, ?_⟩
  have hlevel : (width + 1) * (depth + 1) ≤ Call.bound width limit :=
    Nat.mul_le_mul_left _ (Nat.succ_le_succ hdepth)
  have hlength := h.length_succ_le hdepth
  rw [List.length_cons]
  omega

/-- A wrapper calls on at the same depth. -/
theorem wrapper {inner : Ty} (h : Nest width limit calls (.nullable inner) depth)
    (hunion : ∀ alternatives, inner ≠ .union alternatives) (hdepth : depth ≤ limit) :
    Nest width limit (⟨.nullable inner, depth⟩ :: calls) inner depth := by
  obtain ⟨hcalls, hlength⟩ := h.enter hdepth
  refine ⟨hcalls, hlength, fun _ => ?_⟩
  have hroom := h.room hdepth
  rw [Ty.wrappers_nullable hunion] at hroom
  rw [List.length_cons]
  omega

/-- The routine of a provider calls on one level further in. -/
theorem inside (h : Nest width limit calls t depth) (hdepth : depth ≤ limit) {u : Ty}
    (hu : u.wrappers ≤ width) : Nest width limit (⟨t, depth⟩ :: calls) u (depth + 1) := by
  obtain ⟨hcalls, hlength⟩ := h.enter hdepth
  refine ⟨hcalls, hlength, fun _ => ?_⟩
  have hlevel := h.length_succ_le hdepth
  rw [List.length_cons]
  omega

end Call.Nest

namespace Plain

/-- A wrapper around a wrapper is one wrapper. -/
theorem orNull_orNull (isNullable : Bool) (step : Read Value) :
    orNull true (orNull isNullable step) = orNull true step := by
  funext cursor
  cases hnil : cursor.nil? with
  | some after => simp only [orNull, hnil, if_true]
  | none => simp only [orNull, hnil, ite_self]

end Plain

namespace Routine.Describes

variable {c : Catalog} {t : Ty} {r : Routine}

/-- A type that is wrapped for null has the routine of a wrapper. -/
theorem eq_nullable {inner : Ty} (h : Describes c (.nullable inner) r)
    (hunion : ∀ alternatives, inner ≠ .union alternatives) :
    ∃ e, r = .nullable e ∧ e.type = inner := by
  generalize htype : Ty.nullable inner = t at h
  cases h with
  | nullableUnion edges _ => exact absurd (Ty.nullable.inj htype) (hunion _)
  | nullable e _ => exact ⟨e, rfl, (Ty.nullable.inj htype).symm⟩
  | _ => cases htype

/-- The body of any other routine is what the routine does. -/
theorem body_eq_read (h : Describes c t r) (hwrapped : t.unwrapped = t)
    (call : Edge → Scope → Read Value) (scope : Scope) :
    r.body call t scope = r.read call t scope := by
  cases h with
  | nullable _ hunion =>
    obtain ⟨alternatives, heq⟩ := Ty.unwrapped_eq_nullable hwrapped
    exact absurd heq (hunion alternatives)
  | _ => rfl

/-- The body of the routine of a type reads what the type says, if its calls one level further in
do, and that of a wrapper if its call at the same depth does. -/
theorem body_eq (h : Describes c t r) {call : Edge → Scope → Read Value} {scope : Scope}
    {room : Nat}
    (hinside : ∀ e ∈ r.edges, ∀ name,
      call e (scope.child name) = Plain.read c room e.type (scope.child name))
    (hwrapper : ∀ e ∈ r.edges, t = .nullable e.type →
      (∀ alternatives, e.type ≠ .union alternatives) →
        call e scope = Plain.read c (room + 1) e.type scope) :
    r.body call t scope = Plain.read c (room + 1) t scope := by
  by_cases hwrapped : t.unwrapped = t
  · have hagrees : AgreeInside call (fun e s => Plain.read c room e.type s) scope r.edges := hinside
    rw [h.body_eq_read hwrapped, Routine.read_congr hagrees]
    exact h.read_eq hwrapped (fun _ _ _ => rfl) scope
  · obtain ⟨inner, rfl, hunion⟩ := Ty.eq_nullable_of_unwrapped_ne hwrapped
    obtain ⟨e, rfl, rfl⟩ := h.eq_nullable hunion
    rw [Routine.body, hwrapper e List.mem_cons_self rfl hunion]
    simp only [Plain.read, Plain.orNull_orNull, Ty.isNullable]
    rw [← Plain.readPresent_unwrapped (.nullable e.type), Ty.unwrapped_nullable hunion,
      Plain.readPresent_unwrapped]

end Routine.Describes

namespace Library

variable {c : Catalog} {lib : Library} {watch : List Call → Read Value → Read Value}
  {width limit : Nat}

/-- Under a watch that spares the calls within the limit, reading call by call is reading by the
type, as long as the calls allowed and those that are running exceed the bound. -/
theorem Follows.readCalls_eq (h : lib.Follows c CompiledCodec.reader)
    (hwatch : Call.Spares watch limit (Call.bound width limit)) {nested : Nat} {calls : List Call}
    {e : Edge} {scope : Scope} (hlimit : scope.maxDepth = limit) (he : lib.Leads e)
    (hwidth : Ty.Throughout c (·.wrappers ≤ width) e.type)
    (hnest : Call.Nest width limit calls e.type scope.depth)
    (hnested : Call.bound width limit < nested + calls.length) :
    lib.readCalls watch nested calls e scope = Plain.read c scope.room e.type scope := by
  induction nested generalizing calls e scope with
  | zero =>
    have := hnest.length_le
    omega
  | succ nested ih =>
    obtain ⟨x, hx, htype, hresolve⟩ := resolve_eq_ok he.2 he.1
    have hdescribed := h.described x hx
    have hleads := h.leads x hx
    rw [readCalls]
    simp only [hresolve, htype, hlimit] at hdescribed ⊢
    by_cases hdeep : limit < scope.depth
    · have hroom : scope.room = 0 := by
        rw [Scope.room]
        omega
      rw [if_pos hdeep, hroom, Plain.read, hlimit]
    · have hdepth : scope.depth ≤ limit := Nat.le_of_not_lt hdeep
      obtain ⟨hcalls, hlength⟩ := hnest.enter hdepth
      have hcount : Call.bound width limit <
          nested + ((⟨e.type, scope.depth⟩ : Call) :: calls).length := by
        rw [List.length_cons]
        omega
      obtain ⟨room, hroom⟩ : ∃ room, scope.room = room + 1 :=
        ⟨limit - scope.depth, by rw [Scope.room]; omega⟩
      rw [if_neg hdeep, hwatch _ _ hcalls hlength, hroom]
      refine hdescribed.body_eq (fun d hd name => ?_) fun d hd heq hunion => ?_
      · have hchild : (scope.child name).room = room := by
          simp only [Scope.room, Scope.child] at hroom ⊢
          omega
        have htypes := hwidth.reaches (hdescribed.reaches_edge hd)
        have hfurther : (scope.child name).maxDepth = limit := hlimit
        rw [ih hfurther (hleads d hd) htypes (hnest.inside hdepth htypes.here) hcount, hchild]
      · -- no level further in, but a wrapper less
        rw [heq] at hnest hwidth hcount ⊢
        rw [ih hlimit (hleads d hd) (hwidth.part (Ty.Indirect.inner _).part)
          (hnest.wrapper hunion hdepth) hcount, hroom]

end Library

/-! ## Served codecs under another limit -/

def Handle.withMaxDepth (h : Handle) (limit : Nat) : Handle := { h with maxDepth := limit }

namespace Context

/-- The context that would be there if the limit had been another one from the beginning. -/
def withMaxDepth (c : Context) (limit : Nat) : Context :=
  { c with config := { c.config with maxDepth := limit } }

variable (c : Context) (limit : Nat)

theorem handle?_withMaxDepth (type : Ty) (policy : Policy) :
    (c.withMaxDepth limit).handle? type policy =
      (c.handle? type policy).map (·.withMaxDepth limit) := by
  have hlibrary : (c.withMaxDepth limit).library = c.library := rfl
  unfold handle?
  rw [hlibrary]
  cases c.library.find? type with
  | none => rfl
  | some codec =>
    cases c.library.serial? type with
    | none => rfl
    | some serial => rfl

/-- The limit has no part in what a request comes to. -/
theorem request_withMaxDepth (type : Ty) (policy : Policy) :
    (c.withMaxDepth limit).request type policy =
      ((c.request type policy).1.map (·.withMaxDepth limit),
        (c.request type policy).2.withMaxDepth limit) :=
  request_congr type policy rfl (fun c => c.handle?_withMaxDepth limit type policy) rfl
    (fun _ => rfl) fun _ _ => rfl

theorem after_withMaxDepth (history : List (Ty × Policy)) :
    (c.withMaxDepth limit).after history = (c.after history).withMaxDepth limit := by
  induction history generalizing c with
  | nil => rfl
  | cons asked rest ih => rw [after, after, request_withMaxDepth, ih]

/-- The limit cuts reads off and does nothing else. A context with another limit serves the same
codecs. At any place of any input, a codec does under one limit what it does under a greater one, or
it stops because it meets the limit. Read call by call it does the same, whatever would happen to a
body that runs above the limit or inside more calls than a bound, which comes of the limit and of
how many wrappers lie on top of one another in the type. -/
theorem depth_limit_cuts_off (catalog : Catalog) (type : Ty) : ∃ width,
    ∀ (config : Config) (history : List (Ty × Policy)) (policy : Policy) (h : Handle),
      (((fresh catalog config).after history).request type policy).1 = .ok h →
        (∀ limit, (((fresh catalog { config with maxDepth := limit }).after history).request type
          policy).1 = .ok (h.withMaxDepth limit)) ∧
        (∀ limit limit' behaviour cursor, limit ≤ limit' →
          (h.withMaxDepth limit).readWith behaviour cursor =
              (h.withMaxDepth limit').readWith behaviour cursor ∨
            ∃ e after, (h.withMaxDepth limit).readWith behaviour cursor = .error (.read e) after ∧
              e.fault = .depthLimitExceeded limit) ∧
        ∀ limit behaviour watch nested, Call.Spares watch limit (Call.bound width limit) →
          Call.bound width limit < nested →
            h.library.readCalls watch nested [] h.edge (Scope.root behaviour limit) =
              (h.withMaxDepth limit).readWith behaviour := by
  obtain ⟨width, hwidth⟩ := Ty.exists_width catalog type
  refine ⟨width, fun config history policy h hserved => ?_⟩
  have hlimits : ∀ limit, (((fresh catalog { config with maxDepth := limit }).after history).request
      type policy).1 = .ok (h.withMaxDepth limit) := by
    intro limit
    have hfresh : fresh catalog { config with maxDepth := limit } =
        (fresh catalog config).withMaxDepth limit := rfl
    rw [hfresh, after_withMaxDepth, request_withMaxDepth, hserved]
    rfl
  refine ⟨hlimits, ?_, ?_⟩
  · intro limit limit' behaviour cursor hle
    rw [readWith_eq_plain (hlimits limit), readWith_eq_plain (hlimits limit')]
    refine (Plain.stops_root catalog behaviour behaviour (.inl rfl) hle type cursor).imp_right ?_
    rintro ⟨e, after, hstop, r, rfl, hbars⟩
    refine ⟨r, after, hstop, ?_⟩
    -- the policies are the same, so the fault is one of the limit
    rcases hbars with ⟨hne, -⟩ | ⟨-, hfault⟩
    · exact absurd rfl hne
    · exact hfault
  · intro limit behaviour watch nested hwatch hnested
    obtain ⟨hfaithful, hleads, htype, -⟩ := leads_of_served hserved
    rw [readWith_eq_plain (hlimits limit)]
    subst htype
    exact hfaithful.follows_reader.readCalls_eq hwatch rfl hleads hwidth
      (Call.Nest.nil hwidth.here) hnested

set_option maxRecDepth 4000 in
theorem cut_folderBytes :
    Plain.read folders (Scope.root .ignore 1).room (.record ⟨"Folder"⟩) (Scope.root .ignore 1)
      (.ofBytes folderBytes) =
        .error (((CodecError.ofReadFault "files" (.record ⟨"File"⟩)
            (.depthLimitExceeded 1)).within (.index 0)).within (.field "files"))
          ⟨15, [0x81, 0xa4, 0x73, 0x69, 0x7a, 0x65, 0x05,
            0xa4, 0x74, 0x61, 0x67, 0x73, 0x92, 0x01, 0x81, 0xa1, 0x78, 0xc3]⟩ := by
  with_unfolding_all rfl

/-- Files lie two levels inside a folder: under a limit of one the first of them is not read. Under
the standard limit the folder is read, though nothing may run above the limit or beyond the
bound. -/
theorem folder_depth_limit_cuts_off : ∃ width h,
    (((fresh folders {}).after folderHistory).request (.record ⟨"Folder"⟩) .throw).1 = .ok h ∧
      (h.withMaxDepth 128).readWith .ignore (.ofBytes folderBytes) = .ok taggedFolder ⟨33, []⟩ ∧
      (∃ e after, (h.withMaxDepth 1).readWith .ignore (.ofBytes folderBytes) =
        .error (.read e) after ∧ e.fault = .depthLimitExceeded 1) ∧
      h.library.readCalls (Call.bar 128 (Call.bound width 128)) (Call.bound width 128 + 1) [] h.edge
        (Scope.root .ignore 128) (.ofBytes folderBytes) = .ok taggedFolder ⟨33, []⟩ := by
  obtain ⟨width, hwidth⟩ := depth_limit_cuts_off folders (.record ⟨"Folder"⟩)
  obtain ⟨h, hserved⟩ := folder_is_served
  obtain ⟨hlimits, hcuts, hcalls⟩ := hwidth {} folderHistory .throw h hserved
  have hread := read_folderBytes
  have hcut := cut_folderBytes
  rw [← readWith_eq_plain (hlimits 128)] at hread
  rw [← readWith_eq_plain (hlimits 1)] at hcut
  have hbarred := hcalls 128 .ignore _ _ (Call.bar_spares 128 (Call.bound width 128))
    (Nat.lt_succ_self _)
  refine ⟨width, h, hserved, hread, ?_, ?_⟩
  · rcases hcuts 1 128 .ignore (.ofBytes folderBytes) (by decide) with heq | hstops
    · cases hcut.symm.trans (heq.trans hread)
    · exact hstops
  · rw [hbarred, hread]

end Context

end SchemaPack
