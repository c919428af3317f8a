import SchemaPack.Proofs.Plain.Appending
import SchemaPack.Proofs.Plain.Completeness
import SchemaPack.Proofs.Text.Tag

/-!
Which alternative of a union a value comes back as. A union is written by the type of its
alternative and read by the tag, and the first alternative with the tag is taken. So an alternative
can hide others of its tag that are declared behind it; where the names of records are legible,
none of them does.
-/
namespace SchemaPack

open Wire (Cursor Yields)

namespace Ty

/-- Among the alternatives, the type stands in front of all others with its tag. -/
def FirstOfTag (t : Ty) (alternatives : List Ty) : Prop :=
  ∃ earlier later, alternatives = earlier ++ t :: later ∧ ∀ u ∈ earlier, u.tag ≠ t.tag

theorem find?_tag_iff {t : Ty} {alternatives : List Ty} :
    alternatives.find? (·.tag == t.tag) = some t ↔ t.FirstOfTag alternatives := by
  simp [List.find?_eq_some_iff_append, FirstOfTag]

/-- The tag of an alternative selects an alternative with that tag. -/
theorem exists_selected {t : Ty} {alternatives : List Ty} (h : t ∈ alternatives) :
    ∃ selected ∈ alternatives, selected.tag = t.tag ∧
      alternatives.find? (·.tag == t.tag) = some selected := by
  have hsome : (alternatives.find? (·.tag == t.tag)).isSome = true :=
    List.find?_isSome.mpr ⟨t, h, beq_self_eq_true t.tag⟩
  obtain ⟨selected, hselected⟩ := Option.isSome_iff_exists.mp hsome
  have htag : selected.tag = t.tag := by simpa using List.find?_some hselected
  exact ⟨selected, List.mem_of_find?_eq_some hselected, htag, hselected⟩

/-- Tags tell all alternatives apart exactly if no alternative is hidden by another. -/
theorem tagsDistinct_iff {alternatives : List Ty} :
    (union alternatives).TagsDistinct ↔ ∀ t ∈ alternatives, t.FirstOfTag alternatives := by
  constructor
  · intro h t ht
    have hown : ∀ u ∈ alternatives, u.tag = t.tag → u = t := fun u hu htag =>
      h alternatives rfl u hu t ht htag
    exact find?_tag_iff.mp (Plain.find?_key tag ht hown)
  · rintro h _ heq t ht u hu htag
    obtain rfl := union.inj heq
    have hfirst := find?_tag_iff.mpr (h t ht)
    rw [htag, find?_tag_iff.mpr (h u hu)] at hfirst
    exact (Option.some.inj hfirst).symm

/-- Legible alternatives have different tags. -/
theorem tagsDistinct_of_legible {alternatives : List Ty} (h : ∀ t ∈ alternatives, t.Legible) :
    (union alternatives).TagsDistinct := by
  rintro _ heq t ht u hu htag
  obtain rfl := union.inj heq
  exact (determinedByTag_of_legible (h t ht) u (h u hu) [] [] ends_nil ends_nil (by rw [htag])).1

end Ty

namespace Plain

variable {c : Catalog}

/-- The bytes by which a union names an alternative: the header of a pair, and the tag. -/
def Announces (alternative : Ty) (front : List UInt8) : Prop :=
  ∃ text, Wire.Encoding.string alternative.tag = .ok text ∧
    front = Wire.Encoding.arrayHeader 2 ++ text

def readHeld (c : Catalog) (room : Nat) (scope : Scope) (alternative : Ty) : Read Value := do
  let held ← Read.within (.alternative alternative.tag)
    (read c room alternative (scope.child scope.name))
  return .union alternative held

theorem returns_readHeld (room : Nat) (scope : Scope) (alternative : Ty) :
    (readHeld c room scope alternative).Returns fun v => ∃ held, v = .union alternative held := by
  have hany : (Read.within (.alternative alternative.tag)
      (read c room alternative (scope.child scope.name))).Returns fun _ => True :=
    fun _ _ _ _ => trivial
  exact hany.bind fun held _ => Read.returns_pure ⟨held, rfl⟩

/-- A union that is written names one of its alternatives, and the value it holds is written as
that alternative. -/
theorem leaves_announced {t alternative : Ty} {held : Value} {isNullable : Bool}
    {alternatives : List Ty}
    (hshape : Provider.unionShape? t.unwrapped = some (isNullable, alternatives)) :
    (write c (.union alternative held) t).Leaves fun bytes =>
      alternative ∈ alternatives ∧ ∃ front back, bytes = front ++ back ∧
        Announces alternative front ∧ (write c held alternative).Appends back (.ok ()) := by
  rw [write, hshape]
  simp only
  split
  · rename_i hmem
    have hheader : (Write.arrayHeader 2).Leaves (· = Wire.Encoding.arrayHeader 2) :=
      Write.leaves_encoded fun bytes h => (Write.lt_of_sized h).2
    have htag : (Write.string alternative.tag).Leaves
        (Wire.Encoding.string alternative.tag = .ok ·) := Write.leaves_encoded fun bytes h => h
    have hheld := (onlyAppends_write (c := c) held alternative).leaves.within
      (.alternative alternative.tag)
    refine hheader.bind fun _ header hheader => htag.bind fun _ text htext => ?_
    refine hheld.mono fun back hback => ?_
    obtain ⟨_, hback⟩ := hback
    refine ⟨hmem, header ++ text, back, ?_, ⟨text, htext, hheader ▸ rfl⟩, hback⟩
    rw [List.append_assoc]
  · exact Write.leaves_throw _

/-- Behind the bytes that name an alternative, the first alternative with its tag is read. -/
theorem read_announced {t alternative selected : Ty} {isNullable : Bool} {alternatives : List Ty}
    (hshape : Provider.unionShape? t = some (isNullable, alternatives))
    (hselected : alternatives.find? (·.tag == alternative.tag) = some selected)
    {front : List UInt8} (hfront : Announces alternative front) (room : Nat) (scope : Scope)
    (position : Nat) (rest : List UInt8) :
    read c (room + 1) t scope ⟨position, front ++ rest⟩ =
      readHeld c room scope selected ⟨position + front.length, rest⟩ := by
  obtain ⟨text, htext, rfl⟩ := hfront
  have hheader : Yields Cursor.arrayHeader? (Wire.Encoding.arrayHeader 2) 2 :=
    Wire.yields_arrayHeader (by decide)
  have htag : Yields Cursor.string? text alternative.tag := by
    obtain ⟨hlt, rfl⟩ := Write.lt_of_sized htext
    exact Wire.yields_string hlt
  have hnil := hheader.notNil Wire.refuses_nil_arrayHeader position (text ++ rest)
  rw [List.append_assoc, List.length_append, ← Nat.add_assoc]
  simp only [read, orNull, hnil, ite_self, readPresent_union hshape]
  unfold readUnion
  rw [Outcome.bind_of_ok (Read.demand_eq_ok.mpr (hheader position (text ++ rest))), if_pos rfl,
    Outcome.bind_of_ok (Read.demand_eq_ok.mpr (htag _ rest))]
  simp only [readAlternative, hselected]
  rfl

end Plain

/-! ## Served codecs -/

namespace Context

variable {catalog : Catalog} {config : Config} {history : List (Ty × Policy)} {type : Ty}
  {policy : Policy} {h : Handle}

/-- The tag of a union value selects the first alternative with that tag, whatever follows it. That
is the alternative that was written exactly if it stands in front of all others with its tag, as
all alternatives do whose tags are different, and so all alternatives with legible names. -/
theorem tag_selects_first {isNullable : Bool} {alternatives : List Ty}
    (hserved : (((fresh catalog config).after history).request type policy).1 = .ok h)
    (hshape : Provider.unionShape? type = some (isNullable, alternatives)) :
    ((∀ alternative ∈ alternatives, alternative.Legible) →
      (Ty.union alternatives).TagsDistinct) ∧
    ((Ty.union alternatives).TagsDistinct ↔
      ∀ alternative ∈ alternatives, alternative.FirstOfTag alternatives) ∧
    ∀ alternative held bytes, h.encode (.union alternative held) = .ok bytes →
      alternative ∈ alternatives ∧ ∃ selected ∈ alternatives, selected.tag = alternative.tag ∧
        (selected = alternative ↔ alternative.FirstOfTag alternatives) ∧
        ∃ front back, bytes = front ++ back ∧ Plain.Announces alternative front ∧
          (Plain.write catalog held alternative).Appends back (.ok ()) ∧
          ∀ behaviour,
            (∀ position rest, h.readWith behaviour ⟨position, front ++ rest⟩ =
              Plain.readHeld catalog config.maxDepth (Scope.root behaviour config.maxDepth)
                selected ⟨position + front.length, rest⟩) ∧
            ∀ v, (h.withPolicy behaviour).decode bytes = .ok v →
              ∃ read, v = .union selected read := by
  refine ⟨Ty.tagsDistinct_of_legible, Ty.tagsDistinct_iff, ?_⟩
  intro alternative held bytes hencoded
  have hunwrapped := Ty.unwrapped_of_unionShape? hshape
  obtain ⟨hmem, front, back, rfl, hfront, hback⟩ :=
    leaves_of_encode hserved (Plain.leaves_announced (hunwrapped.symm ▸ hshape)) hencoded
  obtain ⟨selected, hmember, htag, hselected⟩ := Ty.exists_selected hmem
  have hselect : ∀ behaviour position rest, h.readWith behaviour ⟨position, front ++ rest⟩ =
      Plain.readHeld catalog config.maxDepth (Scope.root behaviour config.maxDepth) selected
        ⟨position + front.length, rest⟩ := by
    intro behaviour position rest
    rw [readWith_eq_plain hserved]
    exact Plain.read_announced hshape hselected hfront _ _ position rest
  refine ⟨hmem, selected, hmember, htag, ?_, front, back, rfl, hfront, hback,
    fun behaviour => ⟨hselect behaviour, fun v hdecoded => ?_⟩⟩
  · rw [← Ty.find?_tag_iff, hselected, Option.some_inj]
  · obtain ⟨after, hread, -⟩ := Handle.decode_eq_ok.mp hdecoded
    exact Plain.returns_readHeld _ _ _ _ _ _ ((hselect behaviour 0 back).symm.trans hread)

def part : Ty := .nullable (.union [.bytes, .primitive .string])

theorem part_is_served : ∃ h, (((fresh ⟨[]⟩ {}).after []).request part .throw).1 = .ok h :=
  exists_handle (by decide)

/-- A text is encoded as a part, and a part is decoded as a text. -/
theorem text_part_selected : ∃ h,
    (((fresh ⟨[]⟩ {}).after []).request part .throw).1 = .ok h ∧
      h.encode (.union (.primitive .string) (.string "a")) =
          .ok [0x92, 0xa6, 0x53, 0x74, 0x72, 0x69, 0x6e, 0x67, 0xa1, 0x61] ∧
        ∀ behaviour v, (h.withPolicy behaviour).decode
          [0x92, 0xa6, 0x53, 0x74, 0x72, 0x69, 0x6e, 0x67, 0xa1, 0x61] = .ok v →
            ∃ read, v = .union (.primitive .string) read := by
  obtain ⟨h, hserved⟩ := part_is_served
  have hencoded : h.encode (.union (.primitive .string) (.string "a")) =
      .ok [0x92, 0xa6, 0x53, 0x74, 0x72, 0x69, 0x6e, 0x67, 0xa1, 0x61] :=
    encode_of_write hserved rfl
  refine ⟨h, hserved, hencoded, fun behaviour v hdecoded => ?_⟩
  obtain ⟨-, -, hselects⟩ := tag_selects_first hserved rfl
  obtain ⟨-, selected, -, -, hfirst, _, _, -, -, -, hread⟩ := hselects _ _ _ hencoded
  rw [← hfirst.mpr ⟨[.bytes], [], rfl, by decide⟩]
  exact (hread behaviour).2 v hdecoded

def identifiers : Catalog := ⟨[⟨⟨"Guid"⟩, []⟩, ⟨⟨"System.Guid"⟩, []⟩]⟩

def identifier : Ty := .union [.record ⟨"Guid"⟩, .record ⟨"System.Guid"⟩]

theorem identifiers_declared : identifiers.Declared :=
  .declare (.declare .empty (r := ⟨⟨"Guid"⟩, []⟩) rfl) (r := ⟨⟨"System.Guid"⟩, []⟩) rfl

theorem identifier_is_served :
    ∃ h, (((fresh identifiers {}).after []).request identifier .throw).1 = .ok h :=
  exists_handle (by decide)

set_option maxRecDepth 4000 in
theorem read_identifier (behaviour : Policy) :
    Plain.read identifiers (Scope.root behaviour 128).room identifier (Scope.root behaviour 128)
        (.ofBytes [0x92, 0xa4, 0x47, 0x75, 0x69, 0x64, 0x80]) =
      .ok (.union (.record ⟨"Guid"⟩) (.record [])) ⟨7, []⟩ := by
  with_unfolding_all rfl

/-- Two different alternatives have one tag, and the second comes back as the first. -/
theorem system_identifier_confused : identifiers.Declared ∧ ∃ h,
    (((fresh identifiers {}).after []).request identifier .throw).1 = .ok h ∧
      Ty.record ⟨"Guid"⟩ ≠ .record ⟨"System.Guid"⟩ ∧
        (Ty.record ⟨"Guid"⟩).tag = (Ty.record ⟨"System.Guid"⟩).tag ∧
          h.encode (.union (.record ⟨"System.Guid"⟩) (.record [])) =
            .ok [0x92, 0xa4, 0x47, 0x75, 0x69, 0x64, 0x80] ∧
          ∀ behaviour, (h.withPolicy behaviour).decode
            [0x92, 0xa4, 0x47, 0x75, 0x69, 0x64, 0x80] =
              .ok (.union (.record ⟨"Guid"⟩) (.record [])) := by
  obtain ⟨h, hserved⟩ := identifier_is_served
  refine ⟨identifiers_declared, h, hserved, by decide, by decide, ?_, fun behaviour => ?_⟩
  · exact encode_of_write hserved rfl
  · exact decode_of_read hserved (read_identifier behaviour)

end Context

end SchemaPack
