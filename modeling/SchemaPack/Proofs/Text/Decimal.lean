import SchemaPack.Decimal.Parse

/-!
The text of a decimal. Its digits are read without any rounding, so the decimal that is read back
has the same mantissa and the same scale.
-/
namespace SchemaPack.Decimal

theorem digit?_eq_some {c : Char} (h : c.isDigit = true) :
    digit? c = some (c.toNat - '0'.toNat) := by
  rw [digit?, if_pos h]

theorem le_ofDigitChars (digits : List Char) (n : Nat) : n ≤ Nat.ofDigitChars 10 digits n := by
  rw [Nat.ofDigitChars_eq_ofDigitChars_zero]
  have hpow : 1 ≤ 10 ^ digits.length := Nat.one_le_pow _ _ (by decide)
  have hmul := Nat.mul_le_mul_right n hpow
  omega

/-- Digits before the point are gathered in the mantissa. -/
theorem scan_whole {digits : List Char} (hdigits : ∀ c ∈ digits, c.isDigit = true) {s : Scan}
    (hpoint : s.point = false) (hfits : Nat.ofDigitChars 10 digits s.mantissa < mantissaBound)
    (rest : List Char) :
    scan s (digits ++ rest) =
      scan { s with
        mantissa := Nat.ofDigitChars 10 digits s.mantissa
        digits := s.digits || !digits.isEmpty } rest := by
  induction digits generalizing s with
  | nil => simp
  | cons c digits ih =>
    have hc := digit?_eq_some (hdigits c List.mem_cons_self)
    rw [Nat.ofDigitChars_cons, Nat.mul_comm 10] at hfits
    have hstep : s.mantissa * 10 + (c.toNat - '0'.toNat) < mantissaBound :=
      Nat.lt_of_le_of_lt (le_ofDigitChars digits _) hfits
    simp only [List.cons_append, scan, hc, hpoint, if_pos hstep, Bool.false_and, Bool.false_eq_true,
      if_false]
    rw [ih (fun d hd => hdigits d (List.mem_cons_of_mem _ hd)) rfl hfits]
    simp [Nat.ofDigitChars_cons, Nat.mul_comm 10]

/-- Digits behind the point are gathered too, as long as there are not too many. -/
theorem scan_decimals {digits : List Char} (hdigits : ∀ c ∈ digits, c.isDigit = true) {s : Scan}
    (hpoint : s.point = true) (hsome : s.digits = true)
    (hfits : Nat.ofDigitChars 10 digits s.mantissa < mantissaBound)
    (hscale : s.scale + digits.length ≤ maxScale) :
    scan s digits =
      .ok { s with
        mantissa := Nat.ofDigitChars 10 digits s.mantissa
        scale := s.scale + digits.length } := by
  induction digits generalizing s with
  | nil => rfl
  | cons c digits ih =>
    have hc := digit?_eq_some (hdigits c List.mem_cons_self)
    rw [Nat.ofDigitChars_cons, Nat.mul_comm 10] at hfits ⊢
    have hstep : s.mantissa * 10 + (c.toNat - '0'.toNat) < mantissaBound :=
      Nat.lt_of_le_of_lt (le_ofDigitChars digits _) hfits
    rw [List.length_cons] at hscale ⊢
    simp only [scan, hc, hpoint, if_pos hstep, if_true, Bool.true_and, decide_eq_true_eq]
    split
    · -- the last decimal that there is room for is the last one of the text
      rename_i hfull
      have hlast : digits = [] := List.length_eq_zero_iff.mp (by omega)
      subst hlast
      simp only [List.dropWhile_nil, ite_self, roundOff, Nat.ofDigitChars_nil, List.length_nil,
        hsome]
    · rw [ih (fun d hd => hdigits d (List.mem_cons_of_mem _ hd)) rfl rfl hfits
        (by simp only; omega)]
      simp only [Nat.add_assoc, Nat.add_comm 1, hsome]

theorem isDigit_paddedDigits {count n : Nat} {c : Char} (h : c ∈ paddedDigits count n) :
    c.isDigit = true := by
  rcases List.mem_append.mp h with hzero | hdigit
  · rw [List.eq_of_mem_replicate hzero]
    rfl
  · exact Nat.isDigit_of_mem_toDigits (by decide) (by decide) hdigit

theorem ofDigitChars_paddedDigits (count n : Nat) :
    Nat.ofDigitChars 10 (paddedDigits count n) 0 = n := by
  rw [paddedDigits, Nat.ofDigitChars_append, Nat.ofDigitChars_replicate_zero, Nat.mul_zero,
    Nat.ofDigitChars_ten_toDigits]

/-- Digits around a point are read as the mantissa and the scale they show. -/
theorem scan_digits {whole decimals : List Char} (hwhole : whole ≠ [])
    (hdigits : ∀ c ∈ whole ++ decimals, c.isDigit = true)
    (hfits : Nat.ofDigitChars 10 (whole ++ decimals) 0 < mantissaBound)
    (hscale : decimals.length ≤ maxScale) :
    ∃ point, scan {} (whole ++ if decimals.length = 0 then [] else '.' :: decimals) =
      .ok ⟨Nat.ofDigitChars 10 (whole ++ decimals) 0, decimals.length, point, true⟩ := by
  rw [Nat.ofDigitChars_append] at hfits ⊢
  have hsome : whole.isEmpty = false := by simpa using hwhole
  have hfront := scan_whole (s := {}) (fun c hc => hdigits c (List.mem_append_left _ hc)) rfl
    (Nat.lt_of_le_of_lt (le_ofDigitChars decimals _) hfits)
  rw [hfront, hsome]
  split
  · rename_i hnone
    rw [List.length_eq_zero_iff.mp hnone]
    exact ⟨false, rfl⟩
  · refine ⟨true, ?_⟩
    have hpoint : digit? '.' = none := by decide
    rw [scan]
    simp only [hpoint, if_pos, Bool.false_eq_true, if_false]
    rw [scan_decimals (fun c hc => hdigits c (List.mem_append_right _ hc)) rfl rfl hfits (by simpa)]
    simp

theorem splitSign_digits {c : Char} (h : c.isDigit = true) (rest : List Char) :
    splitSign (c :: rest) = (false, c :: rest) := by
  unfold splitSign
  split
  · rename_i heq
    obtain ⟨rfl, -⟩ := List.cons.inj heq
    cases h
  · rename_i heq
    obtain ⟨rfl, -⟩ := List.cons.inj heq
    cases h
  · rfl

theorem ofMagnitude_natAbs (d : Decimal) :
    ofMagnitude (decide (d.mantissa < 0)) d.mantissa.natAbs d.scale = .ok d := by
  have hmantissa : (if decide (d.mantissa < 0) = true then -(d.mantissa.natAbs : Int)
      else d.mantissa.natAbs) = d.mantissa := by
    by_cases hneg : d.mantissa < 0
    · rw [if_pos (decide_eq_true hneg)]
      omega
    · rw [if_neg (by simpa using hneg)]
      omega
  rw [ofMagnitude, hmantissa, ofParts?, dif_pos ⟨d.mantissa_lt, d.scale_le⟩]

/-- The whole part of the digits, and the decimals. -/
theorem chars_eq (d : Decimal) : ∃ whole decimals,
    d.chars = (if d.mantissa < 0 then ['-'] else []) ++
        (whole ++ if decimals.length = 0 then [] else '.' :: decimals) ∧
      whole ≠ [] ∧ decimals.length = d.scale ∧
        whole ++ decimals = paddedDigits (d.scale + 1) d.mantissa.natAbs := by
  have hlength := le_length_paddedDigits (d.scale + 1) d.mantissa.natAbs
  unfold chars
  generalize paddedDigits (d.scale + 1) d.mantissa.natAbs = digits at hlength ⊢
  have hdecimals : (digits.drop (digits.length - d.scale)).length = d.scale := by
    rw [List.length_drop]
    omega
  refine ⟨digits.take (digits.length - d.scale), digits.drop (digits.length - d.scale), ?_, ?_,
    hdecimals, List.take_append_drop _ _⟩
  · rw [hdecimals]
    simp only [List.append_assoc]
  · intro hnil
    have hzero := congrArg List.length hnil
    rw [List.length_take, List.length_nil] at hzero
    omega

theorem parsePlain_chars (d : Decimal) : parsePlain d.chars = .ok d := by
  obtain ⟨whole, decimals, hchars, hwhole, hscale, hdigits⟩ := d.chars_eq
  obtain ⟨c, tail, rfl⟩ := List.exists_cons_of_ne_nil hwhole
  have hall : ∀ b ∈ c :: tail ++ decimals, b.isDigit = true := by
    rw [hdigits]
    exact fun b hb => isDigit_paddedDigits hb
  obtain ⟨point, hscan⟩ := scan_digits hwhole hall
    (by rw [hdigits, ofDigitChars_paddedDigits]; exact d.mantissa_lt) (hscale ▸ d.scale_le)
  rw [hdigits, ofDigitChars_paddedDigits, hscale] at hscan
  have hsplit : splitSign d.chars =
      (decide (d.mantissa < 0),
        c :: tail ++ if decimals.length = 0 then [] else '.' :: decimals) := by
    rw [hchars]
    by_cases hneg : d.mantissa < 0
    · rw [if_pos hneg, decide_eq_true hneg]
      rfl
    · rw [if_neg hneg, decide_eq_false hneg]
      exact splitSign_digits (hall c List.mem_cons_self) _
  have hsome : d.chars.isEmpty = false := by
    rw [hchars]
    simp
  unfold parsePlain
  rw [hsome, hsplit, hscale]
  simp only [Bool.false_eq_true, if_false, bind, Except.bind, hscan, if_true, ofMagnitude_natAbs]

theorem parse_text (d : Decimal) : parse d.text = .ok d := by
  rw [parse, text, String.toList_ofList, parseChars, parsePlain_chars]

end SchemaPack.Decimal
