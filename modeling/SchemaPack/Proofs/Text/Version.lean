import Mathlib.Data.List.Forall2
import Mathlib.Data.Nat.Digits.Defs
import SchemaPack.Version

/-!
The text of a version. A text is read by its parts between dots: two to four numerals, with any
zeros in front, of numbers that may travel. What is read has these numbers as its components, and
its text is the one that was read without the redundant zeros. Of all that may be wrong, the number
of parts is told first, then the first part that is no component, then the first component that may
not travel. A version that may travel is read back from its text.
-/
namespace SchemaPack.Version

/-! ## Numerals -/

/-- One or more decimal digits, the most significant first, and the number they stand for. -/
structure Numeral (digits : List Char) (n : Nat) : Prop where
  ne_nil : digits ≠ []
  isDigit : ∀ c ∈ digits, c.isDigit = true
  value : Nat.ofDigits 10 (digits.reverse.map fun c => c.toNat - '0'.toNat) = n

theorem ofDigitChars_eq_ofDigits (digits : List Char) :
    Nat.ofDigitChars 10 digits 0 =
      Nat.ofDigits 10 (digits.reverse.map fun c => c.toNat - '0'.toNat) := by
  induction digits with
  | nil => rfl
  | cons c digits ih =>
    rw [Nat.ofDigitChars_cons, Nat.ofDigitChars_eq_ofDigitChars_zero, ih, List.reverse_cons,
      List.map_append, Nat.ofDigits_append]
    simp [Nat.add_comm]

theorem numeral_iff {digits : List Char} {n : Nat} :
    Numeral digits n ↔
      (digits ≠ [] ∧ ∀ c ∈ digits, c.isDigit = true) ∧ Nat.ofDigitChars 10 digits 0 = n := by
  rw [ofDigitChars_eq_ofDigits]
  exact ⟨fun ⟨hne, hdigit, hvalue⟩ => ⟨⟨hne, hdigit⟩, hvalue⟩,
    fun ⟨⟨hne, hdigit⟩, hvalue⟩ => ⟨hne, hdigit, hvalue⟩⟩

theorem Numeral.unique {digits : List Char} {n m : Nat} (h : Numeral digits n)
    (h' : Numeral digits m) : n = m := h.value.symm.trans h'.value

theorem digitChar_of_isDigit {c : Char} (h : c.isDigit = true) :
    c.toNat - '0'.toNat < 10 ∧ Nat.digitChar (c.toNat - '0'.toNat) = c := by
  obtain ⟨hlow, hhigh⟩ := Char.isDigit_iff_toNat.mp h
  have hzero : '0'.toNat = 48 := rfl
  have hnine : '9'.toNat = 57 := rfl
  have hlt : c.toNat - '0'.toNat < 10 := by omega
  refine ⟨hlt, Char.toNat_inj.mp ?_⟩
  rw [Nat.toNat_digitChar_of_lt_ten hlt]
  omega

/-- Digits behind a number that is not zero are the last digits of a greater number. -/
theorem toDigits_append {digits : List Char} (hdigits : ∀ c ∈ digits, c.isDigit = true) {n : Nat}
    (hn : 0 < n) :
    Nat.toDigits 10 n ++ digits = Nat.toDigits 10 (Nat.ofDigitChars 10 digits n) := by
  induction digits generalizing n with
  | nil => rw [List.append_nil, Nat.ofDigitChars_nil]
  | cons c digits ih =>
    obtain ⟨hlt, hchar⟩ := digitChar_of_isDigit (hdigits c List.mem_cons_self)
    have hlast : Nat.toDigits 10 (c.toNat - '0'.toNat) = [c] := by
      rw [Nat.toDigits_of_lt_base hlt, hchar]
    have hfront := Nat.toDigits_append_toDigits (b := 10) (by decide) hn hlt
    rw [hlast] at hfront
    calc Nat.toDigits 10 n ++ c :: digits = (Nat.toDigits 10 n ++ [c]) ++ digits := by simp
      _ = Nat.toDigits 10 (10 * n + (c.toNat - '0'.toNat)) ++ digits := by rw [hfront]
      _ = Nat.toDigits 10 (Nat.ofDigitChars 10 (c :: digits) n) := by
        rw [ih (fun d hd => hdigits d (List.mem_cons_of_mem _ hd)) (by omega),
          Nat.ofDigitChars_cons]

def unpadded : List Char → List Char
  | '0' :: c :: rest => unpadded (c :: rest)
  | digits => digits

/-- Without redundant zeros a numeral is the text of its number. -/
theorem Numeral.unpadded_eq {digits : List Char} {n : Nat} (h : Numeral digits n) :
    unpadded digits = (toString n).toList := by
  have hrepr : (toString n).toList = Nat.toDigits 10 n := Nat.toList_repr
  rw [hrepr]
  obtain ⟨⟨hne, hdigits⟩, rfl⟩ := numeral_iff.mp h
  clear h hrepr
  induction digits with
  | nil => exact absurd rfl hne
  | cons c digits ih =>
    have hrest : ∀ d ∈ digits, d.isDigit = true := fun d hd => hdigits d (List.mem_cons_of_mem _ hd)
    obtain ⟨hlt, hchar⟩ := digitChar_of_isDigit (hdigits c List.mem_cons_self)
    rw [Nat.ofDigitChars_cons, Nat.mul_zero, Nat.zero_add]
    by_cases hzero : c = '0'
    · subst hzero
      cases digits with
      | nil => rfl
      | cons d rest => exact ih (List.cons_ne_nil d rest) hrest
    · have hkept : unpadded (c :: digits) = c :: digits := by
        unfold unpadded
        split
        · rename_i heq
          exact absurd (List.cons.inj heq).1 hzero
        · rfl
      have hpos : 0 < c.toNat - '0'.toNat := by
        refine Nat.pos_of_ne_zero fun hnone => hzero ?_
        rw [← hchar, hnone]
        rfl
      rw [hkept, ← toDigits_append hrest hpos, Nat.toDigits_of_lt_base hlt, hchar,
        List.singleton_append]

theorem isDigit_of_mem_toString {n : Nat} {c : Char} (h : c ∈ (toString n).toList) :
    c.isDigit = true := by
  have hrepr : (toString n).toList = Nat.toDigits 10 n := Nat.toList_repr
  rw [hrepr] at h
  exact Nat.isDigit_of_mem_toDigits (by decide) (by decide) h

/-- The text of a number is a numeral of it. -/
theorem numeral_toString (n : Nat) : Numeral (toString n).toList n := by
  have hrepr : (toString n).toList = Nat.toDigits 10 n := Nat.toList_repr
  refine numeral_iff.mpr ⟨⟨?_, fun c hc => isDigit_of_mem_toString hc⟩, ?_⟩
  · rw [hrepr]
    exact Nat.toDigits_ne_nil
  · rw [hrepr, Nat.ofDigitChars_ten_toDigits]

/-! ## Components -/

/-- A part that is no component: it is empty, it has a character that is no digit, or its number
does not fit 32 bits. -/
inductive Unreadable (part : List Char) : Prop
  | empty (h : part = [])
  | nonDigit {c : Char} (h : c ∈ part) (hc : c.isDigit = false)
  | tooLarge {n : Nat} (h : Numeral part n) (hn : UInt32.size ≤ n)

theorem component?_eq_some {part : List Char} {c : UInt32} :
    component? part = some c ↔ Numeral part c.toNat := by
  rw [numeral_iff]
  unfold component?
  simp only [List.all_eq_true]
  by_cases hdigits : part ≠ [] ∧ ∀ d ∈ part, d.isDigit = true
  · rw [if_pos hdigits, and_iff_right hdigits]
    split
    · rename_i hlt
      rw [Option.some.injEq, ← UInt32.toNat_inj, UInt32.toNat_ofNatLT]
    · rename_i hge
      refine ⟨nofun, fun heq => absurd ?_ hge⟩
      rw [heq]
      exact c.toNat_lt
  · rw [if_neg hdigits]
    exact ⟨nofun, fun h => absurd h.1 hdigits⟩

theorem component?_eq_none {part : List Char} : component? part = none ↔ Unreadable part := by
  constructor
  · intro h
    by_cases hempty : part = []
    · exact .empty hempty
    · by_cases hdigits : ∀ d ∈ part, d.isDigit = true
      · have hnumeral := numeral_iff.mpr ⟨⟨hempty, hdigits⟩, rfl⟩
        refine .tooLarge hnumeral (Nat.le_of_not_lt fun hlt => ?_)
        have hcomponent : component? part = some (.ofNatLT _ hlt) :=
          component?_eq_some.mpr (by rwa [UInt32.toNat_ofNatLT])
        cases h.symm.trans hcomponent
      · simp only [not_forall] at hdigits
        obtain ⟨d, hd, hnot⟩ := hdigits
        exact .nonDigit hd (Bool.eq_false_iff.mpr hnot)
  · intro h
    refine Option.eq_none_iff_forall_ne_some.mpr fun c hc => ?_
    have hnumeral := component?_eq_some.mp hc
    cases h with
    | empty hempty => exact hnumeral.ne_nil hempty
    | nonDigit hd hnot => cases (hnumeral.isDigit _ hd).symm.trans hnot
    | tooLarge hlarge hn =>
      rw [hlarge.unique hnumeral] at hn
      exact absurd c.toNat_lt (Nat.not_lt.mpr hn)

/-- The parts are numerals of the components, one each. -/
abbrev Spells (parts : List (List Char)) (components : List UInt32) : Prop :=
  List.Forall₂ (fun part c => Numeral part c.toNat) parts components

theorem readComponents_eq_ok {input : String} {parts : List (List Char)} {cs : List UInt32} :
    readComponents input parts = .ok cs ↔ Spells parts cs := by
  induction parts generalizing cs with
  | nil => simp [readComponents, eq_comm]
  | cons part rest ih =>
    cases hpart : component? part with
    | none =>
      simp only [readComponents, hpart]
      constructor
      · intro h
        cases h
      · intro h
        cases h with
        | cons hfirst _ => cases hpart.symm.trans (component?_eq_some.mpr hfirst)
    | some c =>
      simp only [readComponents, hpart]
      constructor
      · intro h
        split at h
        · rename_i hrest
          cases h
          exact .cons (component?_eq_some.mp hpart) (ih.mp hrest)
        · cases h
      · intro h
        cases h with
        | cons hfirst hrest =>
          cases hpart.symm.trans (component?_eq_some.mpr hfirst)
          rw [ih.mpr hrest]

/-- The parts in front of the first bad one are read. -/
theorem readComponents_eq_error {input : String} {parts : List (List Char)} {e : VersionError} :
    readComponents input parts = .error e ↔
      ∃ front part back, parts = front ++ part :: back ∧ (∀ p ∈ front, ¬ Unreadable p) ∧
        Unreadable part ∧ e = .invalidComponent input (String.ofList part) := by
  induction parts generalizing e with
  | nil => simp [readComponents]
  | cons first rest ih =>
    cases hfirst : component? first with
    | none =>
      have hbad := component?_eq_none.mp hfirst
      simp only [readComponents, hfirst]
      constructor
      · intro h
        cases h
        exact ⟨[], first, rest, rfl, List.forall_mem_nil _, hbad, rfl⟩
      · rintro ⟨front, part, back, hsplit, hfront, hpart, rfl⟩
        cases front with
        | nil =>
          cases hsplit
          rfl
        | cons p front =>
          obtain ⟨rfl, -⟩ := List.cons.inj hsplit
          exact absurd hbad (hfront _ List.mem_cons_self)
    | some c =>
      have hgood : ¬ Unreadable first := by
        rw [← component?_eq_none, hfirst]
        exact Option.some_ne_none c
      have hstep : readComponents input (first :: rest) = .error e ↔
          readComponents input rest = .error e := by
        simp only [readComponents, hfirst]
        cases readComponents input rest with
        | ok cs => simp only [reduceCtorEq]
        | error e' => rfl
      rw [hstep, ih]
      constructor
      · rintro ⟨front, part, back, rfl, hfront, hpart⟩
        refine ⟨first :: front, part, back, rfl, fun p hp => ?_, hpart⟩
        rcases List.mem_cons.mp hp with rfl | hp
        · exact hgood
        · exact hfront p hp
      · rintro ⟨front, part, back, hsplit, hfront, hpart, he⟩
        cases front with
        | nil =>
          obtain ⟨rfl, -⟩ := List.cons.inj hsplit
          exact absurd hpart hgood
        | cons p front =>
          obtain ⟨-, rfl⟩ := List.cons.inj hsplit
          exact ⟨front, part, back, rfl, fun q hq => hfront q (List.mem_cons_of_mem _ hq), hpart,
            he⟩

/-- All parts are numerals of numbers that may travel if and only if they spell such components. -/
theorem exists_spells_iff {parts : List (List Char)} :
    (∃ cs, Spells parts cs ∧ ∀ c ∈ cs, c ≤ maxComponent) ↔
      ∀ part ∈ parts, ∃ n, Numeral part n ∧ n ≤ maxComponent.toNat := by
  induction parts with
  | nil => exact ⟨fun _ => nofun, fun _ => ⟨[], .nil, nofun⟩⟩
  | cons part rest ih =>
    rw [List.forall_mem_cons, ← ih]
    constructor
    · rintro ⟨cs, hspells, hrange⟩
      cases hspells with
      | @cons _ c _ cs hfirst hrest =>
        obtain ⟨hc, hcs⟩ := List.forall_mem_cons.mp hrange
        exact ⟨⟨c.toNat, hfirst, hc⟩, cs, hrest, hcs⟩
    · rintro ⟨⟨n, hn, hle⟩, cs, hrest, hcs⟩
      have hlt : n < UInt32.size := Nat.lt_of_le_of_lt hle maxComponent.toNat_lt
      refine ⟨.ofNatLT n hlt :: cs, .cons ?_ hrest, List.forall_mem_cons.mpr ⟨?_, hcs⟩⟩
      · rwa [UInt32.toNat_ofNatLT]
      · rwa [UInt32.le_iff_toNat_le, UInt32.toNat_ofNatLT]

/-- Without redundant zeros the parts are the texts of the components. -/
theorem Spells.map_unpadded {parts : List (List Char)} {cs : List UInt32} (h : Spells parts cs) :
    parts.map unpadded = cs.map fun c => (toString c.toNat).toList := by
  induction h with
  | nil => rfl
  | cons hfirst _ ih => rw [List.map_cons, List.map_cons, hfirst.unpadded_eq, ih]

/-! ## Ranges -/

/-- Every peer can hold the components. -/
def InRange (v : Version) : Prop := ∀ c ∈ v.components, c ≤ maxComponent

instance (v : Version) : Decidable v.InRange :=
  List.decidableBAll (fun c => c ≤ maxComponent) v.components

theorem checkRange_eq_ok {v : Version} : v.checkRange = .ok () ↔ v.InRange := by
  unfold checkRange InRange
  split
  · rename_i c hfind
    have hlarge : maxComponent < c := by simpa using List.find?_some hfind
    refine ⟨nofun, fun h => ?_⟩
    exact absurd (h c (List.mem_of_find?_eq_some hfind)) (UInt32.not_le.mpr hlarge)
  · rename_i hnone
    refine ⟨fun _ c hc => ?_, fun _ => rfl⟩
    have hsmall := List.find?_eq_none.mp hnone c hc
    exact UInt32.not_lt.mp (by simpa using hsmall)

theorem checkRange_eq_error {v : Version} {e : VersionError} :
    v.checkRange = .error e ↔
      ∃ front c back, v.components = front ++ c :: back ∧ (∀ d ∈ front, d ≤ maxComponent) ∧
        maxComponent < c ∧ e = .componentOutOfRange v.text c := by
  have hfind : ∀ c, v.components.find? (maxComponent < ·) = some c ↔
      ∃ front back, v.components = front ++ c :: back ∧ (∀ d ∈ front, d ≤ maxComponent) ∧
        maxComponent < c := by
    intro c
    rw [List.find?_eq_some_iff_append]
    simp only [decide_eq_true_eq, Bool.not_eq_true', decide_eq_false_iff_not, UInt32.not_lt]
    constructor
    · rintro ⟨hc, front, back, hsplit, hfront⟩
      exact ⟨front, back, hsplit, hfront, hc⟩
    · rintro ⟨front, back, hsplit, hfront, hc⟩
      exact ⟨hc, front, back, hsplit, hfront⟩
  unfold checkRange
  cases hfirst : v.components.find? (maxComponent < ·) with
  | none =>
    refine ⟨nofun, ?_⟩
    rintro ⟨front, c, back, hsplit, hfront, hc, -⟩
    cases hfirst.symm.trans ((hfind c).mpr ⟨front, back, hsplit, hfront, hc⟩)
  | some c =>
    obtain ⟨front, back, hsplit, hfront, hc⟩ := (hfind c).mp hfirst
    constructor
    · intro h
      cases h
      exact ⟨front, c, back, hsplit, hfront, hc, rfl⟩
    · rintro ⟨front', d, back', hsplit', hfront', hd, rfl⟩
      cases hfirst.symm.trans ((hfind d).mpr ⟨front', back', hsplit', hfront', hd⟩)
      rfl

/-! ## Whole texts -/

structure CutAtDots (text : String) (parts : List (List Char)) : Prop where
  joined : ['.'].intercalate parts = text.toList
  dotless : ∀ part ∈ parts, '.' ∉ part
  ne_nil : parts ≠ []

theorem not_mem_of_mem_splitOn {mark : Char} {text part : List Char}
    (h : part ∈ text.splitOn mark) : mark ∉ part := by
  induction text generalizing part with
  | nil =>
    rw [List.splitOn_nil, List.mem_singleton] at h
    rw [h]
    exact List.not_mem_nil
  | cons c text ih =>
    rw [List.splitOn, List.splitOnP_cons_eq_if_modifyHead] at h
    split at h
    · rcases List.mem_cons.mp h with rfl | h
      · exact List.not_mem_nil
      · exact ih h
    · rename_i hc
      obtain ⟨first, rest, hparts⟩ := List.exists_cons_of_ne_nil (List.splitOn_ne_nil mark text)
      rw [← List.splitOn, hparts, List.modifyHead_cons] at h
      rcases List.mem_cons.mp h with rfl | h
      · have hfirst := ih (hparts ▸ List.mem_cons_self)
        intro hmark
        rcases List.mem_cons.mp hmark with rfl | hmark
        · exact hc (beq_self_eq_true mark)
        · exact hfirst hmark
      · exact ih (hparts ▸ List.mem_cons_of_mem _ h)

theorem cutAtDots_iff {text : String} {parts : List (List Char)} :
    CutAtDots text parts ↔ text.toList.splitOn '.' = parts := by
  constructor
  · rintro ⟨hjoined, hdotless, hne⟩
    rw [← hjoined, List.splitOn_intercalate '.' hdotless hne]
  · rintro rfl
    exact ⟨List.intercalate_splitOn '.', fun _ => not_mem_of_mem_splitOn,
      List.splitOn_ne_nil '.' text.toList⟩

section

variable {text : String} {parts : List (List Char)}

theorem Spells.count {v : Version} (h : Spells parts v.components) :
    2 ≤ parts.length ∧ parts.length ≤ 4 := by
  rw [List.Forall₂.length_eq h]
  exact ⟨v.two_le_length, v.length_le_four⟩

theorem parse_of_miscounted (hcut : CutAtDots text parts)
    (hcount : ¬ (2 ≤ parts.length ∧ parts.length ≤ 4)) :
    parse text = .error (.componentCount text parts.length) := by
  obtain rfl := cutAtDots_iff.mp hcut
  unfold parse
  simp only
  rw [dif_neg hcount]

theorem parse_of_unreadable (hcut : CutAtDots text parts)
    (hcount : 2 ≤ parts.length ∧ parts.length ≤ 4) {e : VersionError}
    (h : readComponents text parts = .error e) : parse text = .error e := by
  obtain rfl := cutAtDots_iff.mp hcut
  unfold parse
  simp only
  rw [dif_pos hcount]
  split
  · rename_i e' hread
    cases h.symm.trans hread
    rfl
  · rename_i cs hread
    cases h.symm.trans hread

theorem parse_of_spells (hcut : CutAtDots text parts) {v : Version}
    (h : Spells parts v.components) : parse text = v.checkRange.map fun _ => v := by
  have hcount := h.count
  have hspelled : readComponents text parts = .ok v.components := readComponents_eq_ok.mpr h
  obtain rfl := cutAtDots_iff.mp hcut
  unfold parse
  simp only
  rw [dif_pos hcount]
  split
  · rename_i e hread
    cases hspelled.symm.trans hread
  · rename_i cs hread
    cases hspelled.symm.trans hread
    split
    · rename_i hrange
      rw [hrange]
      rfl
    · rename_i e hrange
      rw [hrange]
      rfl

/-- What a text comes to, by its parts: a version that they spell, or the first thing that is
wrong. -/
inductive Reads (text : String) (parts : List (List Char)) : Except VersionError Version → Prop
  | version {v : Version} (hspells : Spells parts v.components) (hrange : v.InRange) :
      Reads text parts (.ok v)
  | count (h : ¬ (2 ≤ parts.length ∧ parts.length ≤ 4)) :
      Reads text parts (.error (.componentCount text parts.length))
  | component {front back : List (List Char)} {part : List Char}
      (hcount : 2 ≤ parts.length ∧ parts.length ≤ 4) (hsplit : parts = front ++ part :: back)
      (hfront : ∀ p ∈ front, ¬ Unreadable p) (hpart : Unreadable part) :
      Reads text parts (.error (.invalidComponent text (String.ofList part)))
  | range {v : Version} {front back : List UInt32} {c : UInt32}
      (hspells : Spells parts v.components) (hsplit : v.components = front ++ c :: back)
      (hfront : ∀ d ∈ front, d ≤ maxComponent) (hc : maxComponent < c) :
      Reads text parts (.error (.componentOutOfRange v.text c))

theorem reads_parse (hcut : CutAtDots text parts) : Reads text parts (parse text) := by
  by_cases hcount : 2 ≤ parts.length ∧ parts.length ≤ 4
  · cases hread : readComponents text parts with
    | error e =>
      obtain ⟨front, part, back, hsplit, hfront, hpart, rfl⟩ := readComponents_eq_error.mp hread
      rw [parse_of_unreadable hcut hcount hread]
      exact .component hcount hsplit hfront hpart
    | ok cs =>
      have hlength := length_readComponents hread
      let v : Version := ⟨cs, by omega, by omega⟩
      have hspells : Spells parts v.components := readComponents_eq_ok.mp hread
      rw [parse_of_spells hcut hspells]
      cases hrange : v.checkRange with
      | ok u => exact .version hspells (checkRange_eq_ok.mp hrange)
      | error e =>
        obtain ⟨front, c, back, hsplit, hfront, hc, rfl⟩ := checkRange_eq_error.mp hrange
        exact .range hspells hsplit hfront hc
  · rw [parse_of_miscounted hcut hcount]
    exact .count hcount

/-- A text comes to one thing only. -/
theorem parse_eq_iff (hcut : CutAtDots text parts) {r : Except VersionError Version} :
    parse text = r ↔ Reads text parts r := by
  constructor
  · rintro rfl
    exact reads_parse hcut
  · intro h
    cases h with
    | version hspells hrange =>
      rw [parse_of_spells hcut hspells, checkRange_eq_ok.mpr hrange]
      rfl
    | count h => exact parse_of_miscounted hcut h
    | component hcount hsplit hfront hpart =>
      exact parse_of_unreadable hcut hcount
        (readComponents_eq_error.mpr ⟨_, _, _, hsplit, hfront, hpart, rfl⟩)
    | range hspells hsplit hfront hc =>
      rw [parse_of_spells hcut hspells,
        checkRange_eq_error.mpr ⟨_, _, _, hsplit, hfront, hc, rfl⟩]
      rfl

/-- A text is read if and only if its parts, neither too few nor too many, are numerals of numbers
that may travel. -/
theorem exists_parse_iff (hcut : CutAtDots text parts) :
    (∃ v, parse text = .ok v) ↔ (2 ≤ parts.length ∧ parts.length ≤ 4) ∧
      ∀ part ∈ parts, ∃ n, Numeral part n ∧ n ≤ maxComponent.toNat := by
  rw [← exists_spells_iff]
  constructor
  · rintro ⟨v, hv⟩
    cases (parse_eq_iff hcut).mp hv with
    | version hspells hrange => exact ⟨hspells.count, v.components, hspells, hrange⟩
  · rintro ⟨hcount, cs, hspells, hrange⟩
    rw [List.Forall₂.length_eq hspells] at hcount
    exact ⟨⟨cs, hcount.1, hcount.2⟩, (parse_eq_iff hcut).mpr (.version hspells hrange)⟩

end

/-- Its numbers with dots between them are the text of a version. -/
theorem toList_text (v : Version) :
    v.text.toList = ['.'].intercalate (v.components.map fun c => (toString c.toNat).toList) := by
  simp only [text, String.toList_intercalate, List.map_map]
  rfl

theorem cutAtDots_text (v : Version) :
    CutAtDots v.text (v.components.map fun c => (toString c.toNat).toList) where
  joined := v.toList_text.symm
  dotless part hpart hdot := by
    obtain ⟨c, -, rfl⟩ := List.mem_map.mp hpart
    exact absurd (isDigit_of_mem_toString hdot) (by decide)
  ne_nil hnil := by
    have hlength := v.two_le_length
    rw [List.map_eq_nil_iff.mp hnil] at hlength
    cases hlength

theorem spells_text (v : Version) :
    Spells (v.components.map fun c => (toString c.toNat).toList) v.components := by
  rw [Spells, List.forall₂_map_left_iff, List.forall₂_same]
  exact fun c _ => numeral_toString c.toNat

theorem parse_text {v : Version} (h : v.checkRange = .ok ()) : parse v.text = .ok v :=
  (parse_eq_iff v.cutAtDots_text).mpr (.version v.spells_text (checkRange_eq_ok.mp h))

/-! ## What a text comes to -/

/-- What reading a text comes to, and when it comes to a version, and what that version is. -/
structure Parsing (text : String) (parts : List (List Char)) : Prop where
  comes_to : ∀ r, parse text = r ↔ Reads text parts r
  accepted : (∃ v, parse text = .ok v) ↔ (2 ≤ parts.length ∧ parts.length ≤ 4) ∧
    ∀ part ∈ parts, ∃ n, Numeral part n ∧ n ≤ maxComponent.toNat
  components : ∀ v, parse text = .ok v →
    List.Forall₂ (fun part c => Numeral part c.toNat) parts v.components
  text : ∀ v, parse text = .ok v → v.text.toList = ['.'].intercalate (parts.map unpadded)

/-- Every text is read exactly as its parts say, and a version that may travel is read back from its
text. -/
theorem parse_exact :
    (∀ text, ∃ parts, CutAtDots text parts ∧ Parsing text parts) ∧
      ∀ v, v.checkRange = .ok () → parse v.text = .ok v := by
  refine ⟨fun text => ?_, fun v => parse_text⟩
  have hcut : CutAtDots text (text.toList.splitOn '.') := cutAtDots_iff.mpr rfl
  have hspells : ∀ v, parse text = .ok v → Spells (text.toList.splitOn '.') v.components := by
    intro v hv
    cases (parse_eq_iff hcut).mp hv with
    | version hspells => exact hspells
  refine ⟨_, hcut, fun r => parse_eq_iff hcut, exists_parse_iff hcut, hspells, fun v hv => ?_⟩
  rw [v.toList_text, (hspells v hv).map_unpadded]

/-- Zeros in front are read over, the greatest component is read back, and of two things that are
wrong the second is not told. -/
theorem padded_version_read :
    (∃ parts, CutAtDots "007.00" parts ∧ Parsing "007.00" parts) ∧
      parse "007.00" = .ok ⟨[7, 0], by decide, by decide⟩ ∧
      parse "1.4294967295.x" = .error (.invalidComponent "1.4294967295.x" "x") ∧
      parse (text ⟨[2147483647, 0], by decide, by decide⟩) =
        .ok ⟨[2147483647, 0], by decide, by decide⟩ := by
  refine ⟨parse_exact.1 "007.00", ?_, ?_, parse_exact.2 _ (by decide)⟩
  · decide
  · decide

end SchemaPack.Version
