import SchemaPack.Tag

/-!
Type tags can be read back. A tag is a name, a name with tags in angle brackets, or tags in other
brackets; so where the names of records look like none of the rest, the front of a text that is a
tag is determined by the marks in it, and the tag determines the type.
-/
namespace SchemaPack

def tagMarks : List Char := ['[', ']', '(', ')', '<', '>', '=', ',']

def Unmarked (text : List Char) : Prop := ∀ c ∈ text, c ∉ tagMarks

instance (text : List Char) : Decidable (Unmarked text) :=
  List.decidableBAll (fun c => c ∉ tagMarks) text

def shortTypes : List Ty := Primitive.all.map .primitive ++ [.decimal, .version]

/-- A record name that is its own tag and looks like the tag of no other type. -/
def TypeName.Legible (name : TypeName) : Prop :=
  name.text ≠ "" ∧ Unmarked name.text.toList ∧
    name.text ∉ shortTypes.map Ty.tag ∧ name.qualifier ≠ some "System"

instance (name : TypeName) : Decidable name.Legible :=
  inferInstanceAs (Decidable (_ ∧ _ ∧ _ ∧ _))

namespace Ty

/-- The record is the type or stands somewhere in it. Its fields do not count. -/
inductive Mentions (name : TypeName) : Ty → Prop
  | record : Mentions name (.record name)
  | argument {t u : Ty} (h : u ∈ t.arguments) (hu : Mentions name u) : Mentions name t

/-- All record names in the type are legible. -/
def Legible (t : Ty) : Prop := ∀ name, Mentions name t → name.Legible

theorem Legible.argument {t u : Ty} (h : t.Legible) (hu : u ∈ t.arguments) : u.Legible :=
  fun name hname => h name (.argument hu hname)

theorem legible_record {name : TypeName} (h : name.Legible) : (record name).Legible := by
  intro other hother
  cases hother with
  | record => exact h
  | argument hmem => cases hmem

theorem legible_of_arguments {t : Ty} (hrecord : ∀ name, t ≠ record name)
    (h : ∀ u ∈ t.arguments, u.Legible) : t.Legible := by
  intro name hname
  cases hname with
  | record => exact absurd rfl (hrecord name)
  | argument hmem hu => exact h _ hmem name hu

theorem legible_primitive (p : Primitive) : (primitive p).Legible :=
  legible_of_arguments nofun nofun

/-! ## The form of a tag -/

inductive TagForm
  | word (name : String)
  | generic (base : String) (arguments : List Ty)
  | list (element : Ty)
  | map (key value : Ty)

/-- A byte segment is spelled as a generic type of bytes. -/
def tagForm : Ty → TagForm
  | primitive p => .word p.tag
  | bytes => .generic "System.ArraySegment" [.primitive (.int .u8)]
  | decimal => .word "Decimal"
  | version => .word "Version"
  | tuple items => .generic "System.Tuple" items
  | union alternatives => .generic "Union" alternatives
  | list element => .list element
  | map key value => .map key value
  | nullable inner => .generic "System.Nullable" [inner]
  | record name => .word name.tag

namespace TagForm

def front : TagForm → List Char
  | word name => name.toList
  | generic base _ => base.toList
  | list _ | map _ _ => []

def back : TagForm → List Char
  | word _ => []
  | generic _ arguments => '<' :: ((tags arguments).toList ++ ['>'])
  | list element => '[' :: (element.tag.toList ++ [']'])
  | map key value => '(' :: (key.tag.toList ++ '=' :: '>' :: (value.tag.toList ++ [')']))

def arguments : TagForm → List Ty
  | word _ => []
  | generic _ arguments => arguments
  | list element => [element]
  | map key value => [key, value]

def type : TagForm → Ty
  | word name => (shortTypes.find? (·.tag == name)).getD (.record ⟨name⟩)
  | generic "System.Tuple" items => .tuple items
  | generic "Union" alternatives => .union alternatives
  | generic "System.Nullable" [inner] => .nullable inner
  | generic _ _ => .bytes
  | list element => .list element
  | map key value => .map key value

end TagForm

theorem toList_generic {opening base : String} (h : opening.toList = base.toList ++ ['<'])
    (arguments : List Ty) : (opening ++ tags arguments ++ ">").toList =
      (TagForm.generic base arguments).front ++ (TagForm.generic base arguments).back := by
  rw [String.toList_append, String.toList_append, h, List.append_assoc, List.append_assoc]
  rfl

theorem toList_tag (t : Ty) : t.tag.toList = t.tagForm.front ++ t.tagForm.back := by
  cases t with
  | bytes => decide
  | tuple items => exact toList_generic (by decide) items
  | union alternatives => exact toList_generic (by decide) alternatives
  | nullable inner =>
    have hinner : tags [inner] = inner.tag := String.append_empty
    have hgeneric := @toList_generic "System.Nullable<" "System.Nullable" (by decide) [inner]
    rw [hinner] at hgeneric
    exact hgeneric
  | list element =>
    show ("[" ++ element.tag ++ "]").toList = _
    rw [String.toList_append, String.toList_append, List.append_assoc]
    rfl
  | map key value =>
    show ("(" ++ key.tag ++ "=>" ++ value.tag ++ ")").toList = _
    simp only [String.toList_append, List.append_assoc]
    rfl
  | _ => exact (List.append_nil _).symm

theorem tag_of_legible {name : TypeName} (h : name.Legible) : name.tag = name.text :=
  if_neg h.2.2.2

theorem type_tagForm {t : Ty} (h : t.Legible) : t.tagForm.type = t := by
  cases t with
  | primitive p =>
    cases p with
    | int t => cases t <;> rfl
    | _ => rfl
  | record name =>
    have hname := h name .record
    have hnone : shortTypes.find? (·.tag == name.text) = none := by
      rw [List.find?_eq_none]
      intro t ht htag
      exact hname.2.2.1 (beq_iff_eq.mp htag ▸ List.mem_map_of_mem ht)
    rw [tagForm, tag_of_legible hname, TagForm.type, hnone]
    rfl
  | _ => rfl

theorem front_unmarked {t : Ty} (h : t.Legible) : Unmarked t.tagForm.front := by
  cases t with
  | primitive p =>
    cases p with
    | int t => cases t <;> decide
    | _ => decide
  | record name =>
    have hname := h name .record
    rw [tagForm, tag_of_legible hname]
    exact hname.2.1
  | list element => exact nofun
  | map key value => exact nofun
  | tuple items =>
    show Unmarked "System.Tuple".toList
    decide
  | union alternatives =>
    show Unmarked "Union".toList
    decide
  | nullable inner =>
    show Unmarked "System.Nullable".toList
    decide
  | _ => decide

/-! ## What follows a tag -/

def endMarks : List Char := [']', ')', '>', '=', ',']

theorem mem_tagMarks {c : Char} (h : c ∈ endMarks) : c ∈ tagMarks := by
  have hsublist : endMarks.Sublist tagMarks := by decide
  exact hsublist.subset h

/-- Nothing follows, or a mark that stands behind a whole tag. -/
def Ends (rest : List Char) : Prop := ∀ c ∈ rest.head?, c ∈ endMarks

theorem ends_nil : Ends [] := nofun

theorem ends_cons {c : Char} {rest : List Char} (h : c ∈ endMarks) : Ends (c :: rest) := by
  intro d hd
  cases hd
  exact h

/-- Two texts without marks, each up to a mark or the end of the same text, are one. -/
theorem unmarked_append_inj {a b x y : List Char} (ha : Unmarked a)
    (hb : Unmarked b) (hx : ∀ c ∈ x.head?, c ∈ tagMarks)
    (hy : ∀ c ∈ y.head?, c ∈ tagMarks) (h : a ++ x = b ++ y) : a = b ∧ x = y := by
  induction a generalizing b with
  | nil =>
    cases b with
    | nil => exact ⟨rfl, h⟩
    | cons c b =>
      rw [List.nil_append] at h
      subst h
      exact absurd (hx c rfl) (hb c List.mem_cons_self)
  | cons c a ih =>
    cases b with
    | nil =>
      rw [List.nil_append] at h
      subst h
      exact absurd (hy c rfl) (ha c List.mem_cons_self)
    | cons d b =>
      obtain ⟨rfl, htail⟩ := List.cons.inj h
      obtain ⟨rfl, hrest⟩ := ih (fun e he => ha e (List.mem_cons_of_mem _ he))
        (fun e he => hb e (List.mem_cons_of_mem _ he)) htail
      exact ⟨rfl, hrest⟩

theorem marked_back (f : TagForm) {rest : List Char} (h : Ends rest) :
    ∀ c ∈ (f.back ++ rest).head?, c ∈ tagMarks := by
  cases f with
  | word name => exact fun c hc => mem_tagMarks (h c hc)
  | generic base arguments =>
    intro c hc
    cases hc
    decide
  | list element =>
    intro c hc
    cases hc
    decide
  | map key value =>
    intro c hc
    cases hc
    decide

theorem tagForm_ne_empty {t : Ty} (h : t.Legible) : t.tagForm ≠ .word "" := by
  cases t with
  | primitive p =>
    intro heq
    have htag := TagForm.word.inj heq
    revert htag
    cases p with
    | int t => cases t <;> decide
    | _ => decide
  | record name =>
    have hname := h name .record
    intro heq
    exact hname.1 ((tag_of_legible hname).symm.trans (TagForm.word.inj heq))
  | decimal => exact fun heq => absurd (TagForm.word.inj heq) (by decide)
  | version => exact fun heq => absurd (TagForm.word.inj heq) (by decide)
  | _ => exact nofun

/-- A tag is no end of another. -/
theorem not_ends_tag {t : Ty} (h : t.Legible) (rest : List Char) :
    ¬ Ends (t.tag.toList ++ rest) := by
  intro hends
  rw [toList_tag, List.append_assoc] at hends
  have hunmarked := front_unmarked h
  have hnonempty := tagForm_ne_empty h
  generalize t.tagForm = f at hends hunmarked hnonempty
  cases hfront : f.front with
  | cons c front =>
    rw [hfront] at hends hunmarked
    exact hunmarked c List.mem_cons_self (mem_tagMarks (hends c rfl))
  | nil =>
    rw [hfront] at hends
    cases f with
    | word name =>
      rw [TagForm.front, String.toList_eq_nil_iff] at hfront
      exact hnonempty (congrArg _ hfront)
    | generic base arguments => exact absurd (hends '<' rfl) (by decide)
    | list element => exact absurd (hends '[' rfl) (by decide)
    | map key value => exact absurd (hends '(' rfl) (by decide)

theorem end_ne_tag {t : Ty} (h : t.Legible) {c : Char} (hc : c ∈ endMarks)
    (tail rest : List Char) : c :: tail ≠ t.tag.toList ++ rest := by
  intro heq
  exact not_ends_tag h rest (heq ▸ ends_cons hc)

/-- Wherever its tag stands in front of an end, it is the tag of no other legible type. -/
def DeterminedByTag (t : Ty) : Prop :=
  ∀ u : Ty, u.Legible → ∀ r s, Ends r → Ends s →
    t.tag.toList ++ r = u.tag.toList ++ s → t = u ∧ r = s

theorem ends_moreTags (types : List Ty) (rest : List Char) :
    Ends ((moreTags types).toList ++ '>' :: rest) := by
  cases types with
  | nil => exact ends_cons (by decide)
  | cons t types =>
    rw [moreTags, String.toList_append, String.toList_append, List.append_assoc, List.append_assoc]
    exact ends_cons (by decide)

theorem moreTags_append_inj {ts us : List Ty} (hts : ∀ t ∈ ts, DeterminedByTag t)
    (hus : ∀ u ∈ us, u.Legible) {r s : List Char}
    (h : (moreTags ts).toList ++ '>' :: r = (moreTags us).toList ++ '>' :: s) :
    ts = us ∧ r = s := by
  induction ts generalizing us with
  | nil =>
    cases us with
    | nil => exact ⟨rfl, (List.cons.inj h).2⟩
    | cons u us => simp [moreTags] at h
  | cons t ts ih =>
    cases us with
    | nil => simp [moreTags] at h
    | cons u us =>
      have htail : t.tag.toList ++ ((moreTags ts).toList ++ '>' :: r) =
          u.tag.toList ++ ((moreTags us).toList ++ '>' :: s) := by
        simpa [moreTags] using h
      obtain ⟨rfl, hrest⟩ := hts t List.mem_cons_self u (hus u List.mem_cons_self) _ _
        (ends_moreTags ts r) (ends_moreTags us s) htail
      obtain ⟨rfl, rfl⟩ := ih (fun v hv => hts v (List.mem_cons_of_mem _ hv))
        (fun v hv => hus v (List.mem_cons_of_mem _ hv)) hrest
      exact ⟨rfl, rfl⟩

theorem tags_append_inj {ts us : List Ty} (hts : ∀ t ∈ ts, DeterminedByTag t)
    (hlegible : ∀ t ∈ ts, t.Legible) (hus : ∀ u ∈ us, u.Legible) {r s : List Char}
    (h : (tags ts).toList ++ '>' :: r = (tags us).toList ++ '>' :: s) : ts = us ∧ r = s := by
  cases ts with
  | nil =>
    cases us with
    | nil => exact ⟨rfl, (List.cons.inj h).2⟩
    | cons u us =>
      rw [tags, tags, String.toList_append, List.append_assoc] at h
      exact absurd h (end_ne_tag (hus u List.mem_cons_self) (by decide) _ _)
  | cons t ts =>
    cases us with
    | nil =>
      rw [tags, tags, String.toList_append, List.append_assoc] at h
      exact absurd h.symm (end_ne_tag (hlegible t List.mem_cons_self) (by decide) _ _)
    | cons u us =>
      rw [tags, tags, String.toList_append, String.toList_append, List.append_assoc,
        List.append_assoc] at h
      obtain ⟨rfl, hrest⟩ := hts t List.mem_cons_self u (hus u List.mem_cons_self) _ _
        (ends_moreTags ts r) (ends_moreTags us s) h
      obtain ⟨rfl, rfl⟩ := moreTags_append_inj (fun v hv => hts v (List.mem_cons_of_mem _ hv))
        (fun v hv => hus v (List.mem_cons_of_mem _ hv)) hrest
      exact ⟨rfl, rfl⟩

theorem legible_arguments {t : Ty} (h : t.Legible) : ∀ a ∈ t.tagForm.arguments, a.Legible := by
  cases t with
  | bytes =>
    intro a ha
    rw [List.mem_singleton.mp ha]
    exact legible_primitive _
  | primitive p => exact nofun
  | decimal => exact nofun
  | version => exact nofun
  | record name => exact nofun
  | _ => exact fun a ha => h.argument ha

/-- What ends a tag does not begin with a mark inside one. -/
theorem Ends.ne_cons {rest : List Char} (h : Ends rest) {c : Char} (hc : c ∉ endMarks)
    (tail : List Char) : rest ≠ c :: tail := by
  rintro rfl
  exact hc (h c rfl)

/-- Behind one front, the backs of two forms tell them apart. -/
theorem tagForm_append_inj {f g : TagForm} (hf : ∀ a ∈ f.arguments, DeterminedByTag a ∧ a.Legible)
    (hg : ∀ a ∈ g.arguments, a.Legible) {r s : List Char} (hr : Ends r) (hs : Ends s)
    (hfront : f.front = g.front) (hback : f.back ++ r = g.back ++ s) : f = g ∧ r = s := by
  cases f with
  | word name =>
    cases g with
    | word other => exact ⟨congrArg _ (String.toList_inj.mp hfront), hback⟩
    | generic base arguments => exact absurd hback (hr.ne_cons (by decide) _)
    | list element => exact absurd hback (hr.ne_cons (by decide) _)
    | map key value => exact absurd hback (hr.ne_cons (by decide) _)
  | generic base arguments =>
    cases g with
    | generic other types =>
      simp only [TagForm.back, List.cons_append, List.append_assoc, List.nil_append] at hback
      obtain ⟨rfl, rfl⟩ := tags_append_inj (fun a ha => (hf a ha).1) (fun a ha => (hf a ha).2) hg
        (List.cons.inj hback).2
      exact ⟨congrArg (TagForm.generic · _) (String.toList_inj.mp hfront), rfl⟩
    | word name => exact absurd hback.symm (hs.ne_cons (by decide) _)
    | list element => exact absurd (List.cons.inj hback).1 (by decide)
    | map key value => exact absurd (List.cons.inj hback).1 (by decide)
  | list element =>
    cases g with
    | list other =>
      simp only [TagForm.back, List.cons_append, List.append_assoc, List.nil_append] at hback
      obtain ⟨rfl, hrest⟩ := (hf element List.mem_cons_self).1 other (hg other List.mem_cons_self)
        _ _ (ends_cons (by decide)) (ends_cons (by decide)) (List.cons.inj hback).2
      exact ⟨rfl, (List.cons.inj hrest).2⟩
    | word name => exact absurd hback.symm (hs.ne_cons (by decide) _)
    | generic base arguments => exact absurd (List.cons.inj hback).1 (by decide)
    | map key value => exact absurd (List.cons.inj hback).1 (by decide)
  | map key value =>
    cases g with
    | map k v =>
      simp only [TagForm.back, List.cons_append, List.append_assoc, List.nil_append] at hback
      have hvalue : value ∈ [key, value] := List.mem_cons_of_mem _ List.mem_cons_self
      have hv : v ∈ [k, v] := List.mem_cons_of_mem _ List.mem_cons_self
      obtain ⟨rfl, hrest⟩ := (hf key List.mem_cons_self).1 k (hg k List.mem_cons_self)
        _ _ (ends_cons (by decide)) (ends_cons (by decide)) (List.cons.inj hback).2
      have hinside := (List.cons.inj (List.cons.inj hrest).2).2
      obtain ⟨rfl, hend⟩ := (hf value hvalue).1 v (hg v hv)
        _ _ (ends_cons (by decide)) (ends_cons (by decide)) hinside
      exact ⟨rfl, (List.cons.inj hend).2⟩
    | word name => exact absurd hback.symm (hs.ne_cons (by decide) _)
    | generic base arguments => exact absurd (List.cons.inj hback).1 (by decide)
    | list element => exact absurd (List.cons.inj hback).1 (by decide)

theorem determinedByTag_of_arguments {t : Ty} (h : t.Legible)
    (harguments : ∀ a ∈ t.tagForm.arguments, DeterminedByTag a) : DeterminedByTag t := by
  intro u hu r s hr hs htag
  rw [toList_tag, toList_tag, List.append_assoc, List.append_assoc] at htag
  obtain ⟨hfront, hback⟩ := unmarked_append_inj (front_unmarked h) (front_unmarked hu)
    (marked_back _ hr) (marked_back _ hs) htag
  obtain ⟨hform, hrest⟩ := tagForm_append_inj
    (fun a ha => ⟨harguments a ha, legible_arguments h a ha⟩) (legible_arguments hu) hr hs hfront
    hback
  refine ⟨?_, hrest⟩
  rw [← type_tagForm h, hform, type_tagForm hu]

/-- The tag of a type with legible names is that of no other, wherever it stands in front of an
end. -/
theorem determinedByTag_of_legible {t : Ty} (h : t.Legible) : DeterminedByTag t := by
  induction t with
  | bytes =>
    refine determinedByTag_of_arguments h fun a ha => ?_
    rw [List.mem_singleton.mp ha]
    exact determinedByTag_of_arguments (legible_primitive _) nofun
  | tuple items ih => exact determinedByTag_of_arguments h fun a ha => ih a ha (h.argument ha)
  | union alternatives ih =>
    exact determinedByTag_of_arguments h fun a ha => ih a ha (h.argument ha)
  | list element ih =>
    refine determinedByTag_of_arguments h fun a ha => ?_
    rw [List.mem_singleton.mp ha]
    exact ih (h.argument List.mem_cons_self)
  | map key value ihk ihv =>
    refine determinedByTag_of_arguments h fun a ha => ?_
    rcases List.mem_cons.mp ha with rfl | ha
    · exact ihk (h.argument List.mem_cons_self)
    · rw [List.mem_singleton.mp ha]
      exact ihv (h.argument (List.mem_cons_of_mem _ List.mem_cons_self))
  | nullable inner ih =>
    refine determinedByTag_of_arguments h fun a ha => ?_
    rw [List.mem_singleton.mp ha]
    exact ih (h.argument List.mem_cons_self)
  | _ => exact determinedByTag_of_arguments h nofun

/-- Types with legible names have one tag only if they are one type. -/
theorem tag_eq_iff {t u : Ty} (ht : t.Legible) (hu : u.Legible) : t.tag = u.tag ↔ t = u := by
  constructor
  · intro htag
    have htext : t.tag.toList ++ [] = u.tag.toList ++ [] := by rw [htag]
    exact (determinedByTag_of_legible ht u hu [] [] ends_nil ends_nil htext).1
  · exact congrArg tag

/-- The fourteen short names. -/
example : shortTypes.map tag =
    ["Boolean", "Byte", "SByte", "Int16", "UInt16", "Int32", "UInt32", "Int64", "UInt64", "Single",
      "Double", "String", "Decimal", "Version"] := by decide

/-- A tuple in a tuple has another tag than its items in one row. -/
theorem nested_tuple_tags_differ :
    (tuple [tuple [record ⟨"Acme.Item"⟩], .bytes]).Legible ∧
      (tuple [tuple [record ⟨"Acme.Item"⟩, .bytes]]).Legible ∧
      (tuple [tuple [record ⟨"Acme.Item"⟩], .bytes]).tag ≠
        (tuple [tuple [record ⟨"Acme.Item"⟩, .bytes]]).tag := by
  have hitem : (record ⟨"Acme.Item"⟩).Legible := legible_record (by decide)
  have hbytes : Ty.bytes.Legible := legible_of_arguments nofun nofun
  have hnested : (tuple [tuple [record ⟨"Acme.Item"⟩], .bytes]).Legible :=
    legible_of_arguments nofun <| List.forall_mem_cons.mpr
      ⟨legible_of_arguments nofun (List.forall_mem_singleton.mpr hitem),
        List.forall_mem_singleton.mpr hbytes⟩
  have hrow : (tuple [tuple [record ⟨"Acme.Item"⟩, .bytes]]).Legible :=
    legible_of_arguments nofun <| List.forall_mem_singleton.mpr <|
      legible_of_arguments nofun
        (List.forall_mem_cons.mpr ⟨hitem, List.forall_mem_singleton.mpr hbytes⟩)
  exact ⟨hnested, hrow, fun htag => absurd ((tag_eq_iff hnested hrow).mp htag) (by decide)⟩

end Ty

end SchemaPack
