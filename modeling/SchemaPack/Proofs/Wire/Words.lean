import SchemaPack.Proofs.Wire.Scalars

/-!
The walk that skips a value, in words of 64 bits. A step takes at least one byte, and the longest
map announces fewer than 2^33 values in five bytes; nothing announces more for what it takes. So in
an input shorter than 2^33 bytes no count of the values still due reaches 2^64, and a walk that
counts in words, with every operation checked, never finds a result that does not fit.
-/
namespace SchemaPack.Wire

/-! ## What a value announces -/

/-- The most values that can be announced at once: the keys and values of the longest map. -/
def mostAnnounced : Nat := 2 * (lengthBound - 1)

theorem mostAnnounced_eq : mostAnnounced = 8589934590 := rfl

namespace Grammar

theorem Short.lt {family : Family} {b : UInt8} {n : Nat} (h : Short family b n) : n < 0x20 := by
  cases h <;> omega

theorem Wide.width_mem {family : Family} {b : UInt8} {width : Nat} (h : Wide family b width) :
    width ∈ [1, 2, 4] := by
  cases h <;> decide

/-- A length counted twice, as for a map, is at most a fifth of the most for each byte. -/
theorem Opens.announced_le {family : Family} {n : Nat} {front : List UInt8}
    (h : Opens family n front) : 5 * (2 * n) ≤ mostAnnounced * front.length := by
  rw [mostAnnounced_eq]
  cases h with
  | short h =>
    have hn := h.lt
    rw [List.length_singleton]
    omega
  | @wide b digits h =>
    have hwidth := h.width_mem
    have hn := bigEndianValue_lt digits
    rw [List.length_cons]
    generalize digits.length = width at hwidth hn ⊢
    simp only [List.mem_cons, List.not_mem_nil, or_false] at hwidth
    rcases hwidth with rfl | rfl | rfl
    all_goals omega

/-- So are the values that are announced. -/
theorem Own.announced_le {n : Nat} {own : List UInt8} (h : Own n own) :
    5 * n ≤ mostAnnounced * own.length := by
  cases h with
  | fixed | str | bin | ext => exact Nat.zero_le _
  | array h =>
    have hannounced := h.announced_le
    omega
  | map h => exact h.announced_le

theorem Fixed.size_le {b : UInt8} {size : Nat} (h : Fixed b size) : size ≤ 8 := by
  cases h <;> omega

theorem Own.length_pos {n : Nat} {own : List UInt8} (h : Own n own) : 0 < own.length := by
  obtain ⟨hlength, hpayload, hreserved⟩ := h.framed
  exact Nat.succ_pos _

end Grammar

/-! ## Steps of the walk -/

/-- So many steps of the walk, from some values due at a cursor, lead to others due at another. -/
inductive Walked (due : Nat) (c : Cursor) : Nat → Nat → Cursor → Prop
  | start : Walked due c 0 due c
  | step {steps pending inside : Nat} {middle after : Cursor}
      (h : Walked due c steps (pending + 1) middle)
      (hhead : middle.skipHead = .ok (inside, after)) :
      Walked due c (steps + 1) (pending + inside) after

namespace Walked

variable {due steps pending : Nat} {c after : Cursor}

/-- The walk goes on from wherever its steps have led. -/
theorem skipValues_eq (h : Walked due c steps pending after) :
    c.skipValues due = after.skipValues pending := by
  induction h with
  | start => rfl
  | step _ hhead ih => rw [ih, skipValues_succ hhead]

/-- Every step has taken a byte, and the bytes taken have paid for the values that are due. -/
theorem exists_spans_with_bounds (h : Walked due c steps pending after) :
    ∃ bytes, Spans c bytes after ∧ steps ≤ bytes.length ∧
      5 * pending ≤ 5 * due + mostAnnounced * bytes.length := by
  induction h with
  | start => exact ⟨[], .refl c, Nat.le_refl _, Nat.le_refl _⟩
  | step _ hhead ih =>
    obtain ⟨front, hfront, hsteps, hpending⟩ := ih
    obtain ⟨own, hspans, hown⟩ := Grammar.exists_own hhead
    have hpos := hown.length_pos
    have hannounced := hown.announced_le
    refine ⟨front ++ own, hfront.trans hspans, ?_, ?_⟩
    · rw [List.length_append]
      omega
    · rw [List.length_append, Nat.mul_add mostAnnounced]
      omega

/-- In an input shorter than 2^33 bytes the values due can be counted in 64 bits. -/
theorem pending_lt (h : Walked 1 c steps pending after) (hlength : c.rest.length < 2 ^ 33) :
    pending < 2 ^ 64 := by
  obtain ⟨bytes, hspans, -, hpending⟩ := h.exists_spans_with_bounds
  have hbytes : bytes.length ≤ 2 ^ 33 - 1 := by
    rw [hspans.rest, List.length_append] at hlength
    omega
  have hpaid : mostAnnounced * bytes.length ≤ mostAnnounced * (2 ^ 33 - 1) :=
    Nat.mul_le_mul_left _ hbytes
  rw [mostAnnounced_eq] at hpending hpaid
  omega

end Walked

/-! ## Lengths -/

theorem narrow_length (b : UInt8) : (Marker.ofByte b).length.Narrow := by
  cases hb : Marker.ofByte b with
  | str l | bin l | array l | map l | ext l =>
    refine narrow_ofByte (b := b) ?_
    rw [hb]
    rfl
  | _ => exact (by decide : 0 < lengthBound)

theorem length?_lt {b : UInt8} {c after : Cursor} {n : Nat}
    (h : c.length? (Marker.ofByte b).length = some (n, after)) : n < lengthBound :=
  (narrow_length b).lt h

/-! ## The walk in words -/

inductive Stop
  | overflow
  | outOfSteps
  | failed (e : SkipError)
  deriving DecidableEq

namespace Words

/-! Operations on words, each with a check that the result is the exact one. -/

def add (m n : UInt64) : Except Stop UInt64 :=
  if m.toNat + n.toNat < 2 ^ 64 then .ok (m + n) else .error .overflow

def sub (m n : UInt64) : Except Stop UInt64 :=
  if n ≤ m then .ok (m - n) else .error .overflow

def double (n : UInt64) : Except Stop UInt64 :=
  if 2 * n.toNat < 2 ^ 64 then .ok (2 * n) else .error .overflow

def shiftIn (n : UInt64) (b : UInt8) : Except Stop UInt64 :=
  if n.toNat < 2 ^ 56 then .ok (n <<< 8 ||| b.toUInt64) else .error .overflow

def ofBytes (bytes : List UInt8) : Except Stop UInt64 := bytes.foldlM shiftIn 0

section

variable (input : List UInt8)

/-- Moves on over so many bytes. If they are not there, the value at the offset is truncated. -/
def advance (offset position length : UInt64) : Except Stop UInt64 := do
  let remaining ← sub (.ofNat input.length) position
  if remaining < length then
    throw (.failed (.truncated offset.toNat))
  else
    add position length

def readLength (offset position : UInt64) : Length → Except Stop (UInt64 × UInt64)
  | .inline n => return (.ofNat n, position)
  | .following width => do
    let behind ← advance input offset position (.ofNat width)
    let n ← ofBytes ((input.drop position.toNat).take width)
    return (n, behind)

def payload : Marker → UInt64 → Except Stop UInt64
  | .uint width, _ | .sint width, _ => return .ofNat width
  | .f32, _ => return 4
  | .f64, _ => return 8
  | .str _, n | .bin _, n => return n
  | .ext _, n => add n 1
  | _, _ => return 0

def values : Marker → UInt64 → Except Stop UInt64
  | .array _, n => return n
  | .map _, n => double n
  | _, _ => return 0

/-- Behind the first byte of a value: how many values it has inside it, and the place behind what is
its own. -/
def head (offset position : UInt64) (m : Marker) : Except Stop (UInt64 × UInt64) := do
  let (n, behind) ← readLength input offset position m.length
  let after ← advance input offset behind (← payload m n)
  return (← values m n, after)

/-- One step: the place behind what is the value's own, and how many values are due there. -/
def step (position pending : UInt64) : Except Stop (UInt64 × UInt64) := do
  match input[position.toNat]? with
  | none => throw (.failed (.truncated position.toNat))
  | some b =>
    let m := Marker.ofByte b
    if m = .reserved then
      throw (.failed (.reservedMarker position.toNat))
    else
      let (inside, after) ← head input position (← add position 1) m
      return (after, ← add pending inside)

def walk : (steps : Nat) → (position pending : UInt64) → Except Stop UInt64
  | 0, position, pending => if pending = 0 then return position else throw .outOfSteps
  | steps + 1, position, pending =>
    if pending = 0 then
      return position
    else do
      let (after, pending) ← step input position (← sub pending 1)
      walk steps after pending

end

/-! ## Words of numbers that fit -/

theorem add_ofNat {m n : Nat} (h : m + n < 2 ^ 64) :
    add (.ofNat m) (.ofNat n) = .ok (.ofNat (m + n)) := by
  have hm : (UInt64.ofNat m).toNat = m := UInt64.toNat_ofNat_of_lt' (lt_of_le_of_lt (by omega) h)
  have hn : (UInt64.ofNat n).toNat = n := UInt64.toNat_ofNat_of_lt' (lt_of_le_of_lt (by omega) h)
  rw [add, hm, hn, if_pos h, UInt64.ofNat_add]

theorem sub_ofNat {m n : Nat} (h : n ≤ m) (hm : m < 2 ^ 64) :
    sub (.ofNat m) (.ofNat n) = .ok (.ofNat (m - n)) := by
  have hle : UInt64.ofNat n ≤ UInt64.ofNat m :=
    (UInt64.ofNat_le_iff_le (lt_of_le_of_lt h hm) hm).mpr h
  rw [sub, if_pos hle, UInt64.ofNat_sub h]

theorem double_ofNat {n : Nat} (h : 2 * n < 2 ^ 64) :
    double (.ofNat n) = .ok (.ofNat (2 * n)) := by
  have hn : (UInt64.ofNat n).toNat = n := UInt64.toNat_ofNat_of_lt' (lt_of_le_of_lt (by omega) h)
  rw [double, hn, if_pos h, UInt64.ofNat_mul]
  rfl

theorem shiftIn_ofNat {n : Nat} (h : n < 2 ^ 56) (b : UInt8) :
    shiftIn (.ofNat n) b = .ok (.ofNat (n * 256 + b.toNat)) := by
  have hshift : n <<< 8 % 2 ^ 64 = n <<< 8 := by
    rw [Nat.shiftLeft_eq, Nat.mod_eq_of_lt (by omega)]
  have hb : b.toNat < 2 ^ 8 := b.toNat_lt
  have hsum : n * 256 + b.toNat < 2 ^ 64 := by omega
  have hn : (UInt64.ofNat n).toNat = n := UInt64.toNat_ofNat_of_lt' (h.trans (by decide))
  rw [shiftIn, hn, if_pos h]
  congr 1
  apply UInt64.toNat_inj.mp
  rw [UInt64.toNat_ofNat_of_lt' hsum, UInt64.toNat_or, UInt64.toNat_shiftLeft,
    UInt8.toNat_toUInt64, hn]
  show n <<< 8 % 2 ^ 64 ||| b.toNat = n * 256 + b.toNat
  rw [hshift, ← Nat.shiftLeft_add_eq_or_of_lt hb, Nat.shiftLeft_eq]

theorem foldlM_shiftIn {bytes : List UInt8} {n digits : Nat} (hn : n < 256 ^ digits)
    (h : digits + bytes.length ≤ 8) : bytes.foldlM shiftIn (.ofNat n) =
      .ok (.ofNat (bytes.foldl (fun n b => n * 256 + b.toNat) n)) := by
  induction bytes generalizing n digits with
  | nil => rfl
  | cons b bytes ih =>
    rw [List.length_cons] at h
    have hb := b.toNat_lt
    have hshort : 256 ^ digits ≤ 256 ^ 7 := Nat.pow_le_pow_right (by decide) (by omega)
    have hnext : n * 256 + b.toNat < 256 ^ (digits + 1) := by
      rw [Nat.pow_succ]
      omega
    have hrest := ih hnext (by omega)
    rw [List.foldlM_cons, shiftIn_ofNat (by omega), List.foldl_cons]
    exact hrest

theorem ofBytes_eq {bytes : List UInt8} (h : bytes.length ≤ 8) :
    ofBytes bytes = .ok (.ofNat (bigEndianValue bytes)) := by
  have hzero : 0 < 256 ^ 0 := by decide
  exact foldlM_shiftIn hzero (by rwa [Nat.zero_add])

/-! ## The walk and the walk in words -/

section

variable {input : List UInt8} {offset p n : Nat}

theorem length_le_of_spans {bytes : List UInt8} {after : Cursor}
    (h : Spans (.at input p) bytes after) : bytes.length ≤ input.length - p := by
  have hrest : (input.drop p).length = (bytes ++ after.rest).length := congrArg _ h.rest
  rw [List.length_drop, List.length_append] at hrest
  omega

theorem take?_at (input : List UInt8) (p n : Nat) :
    (Cursor.at input p).take? n =
      if n ≤ input.length - p then some ((input.drop p).take n, .at input (p + n)) else none := by
  rw [← List.length_drop]
  split
  · rename_i hroom
    refine Cursor.take?_eq_some.mpr ⟨List.length_take_of_le hroom, ?_, rfl⟩
    rw [Cursor.at, Cursor.at, ← List.drop_drop, List.take_append_drop]
  · rename_i hshort
    exact Cursor.take?_eq_none.mpr (Nat.lt_of_not_le hshort)

theorem marker?_at {b : UInt8} (h : input[p]? = some b) :
    (Cursor.at input p).marker? = some (.ofByte b, .at input (p + 1)) := by
  obtain ⟨hp, rfl⟩ := List.getElem?_eq_some_iff.mp h
  rw [Cursor.at, List.drop_eq_getElem_cons hp]
  rfl

theorem skipHead_at_reserved {b : UInt8} (h : input[p]? = some b)
    (hb : Marker.ofByte b = .reserved) :
    (Cursor.at input p).skipHead = .error (.reservedMarker p) := by
  unfold Cursor.skipHead
  rw [marker?_at h, hb]
  rfl

/-- The step of the walk at a byte: the length, then the payload. -/
theorem skipHead_at {b : UInt8} (h : input[p]? = some b) (hb : Marker.ofByte b ≠ .reserved) :
    (Cursor.at input p).skipHead =
      match (Cursor.at input (p + 1)).length? (Marker.ofByte b).length with
      | none => .error (.truncated p)
      | some (n, behind) =>
        match behind.take? ((Marker.ofByte b).body n).size with
        | none => .error (.truncated p)
        | some (_, after) => .ok (((Marker.ofByte b).body n).due, after) := by
  unfold Cursor.skipHead
  rw [marker?_at h]
  split
  · rename_i hnone
    cases hnone
  · rename_i hreserved
    exact absurd (Prod.mk.inj (Option.some.inj hreserved)).1 hb
  · rename_i hsome
    cases hsome
    cases (Cursor.at input (p + 1)).length? (Marker.ofByte b).length with
    | none => rfl
    | some taken =>
      obtain ⟨n, behind⟩ := taken
      simp only
      cases (Marker.ofByte b).body n with
      | values count => rfl
      | payload bytes =>
        simp only [Marker.Body.size, Marker.Body.due]
        cases behind.take? bytes <;> rfl

theorem advance_eq (hinput : input.length < 2 ^ 33) (hoffset : offset < 2 ^ 64)
    (hp : p ≤ input.length) (hn : n < 2 ^ 64) :
    advance input (.ofNat offset) (.ofNat p) (.ofNat n) =
      match (Cursor.at input p).take? n with
      | none => .error (.failed (.truncated offset))
      | some (_, after) => .ok (.ofNat after.position) := by
  have hremaining : input.length - p < 2 ^ 64 := by omega
  have hless : UInt64.ofNat (input.length - p) < .ofNat n ↔ input.length - p < n :=
    UInt64.ofNat_lt_iff_lt hremaining hn
  rw [advance, sub_ofNat hp (by omega), take?_at]
  simp only [Bind.bind, Except.bind, hless]
  by_cases hroom : n ≤ input.length - p
  · rw [if_neg (by omega), if_pos hroom, add_ofNat (by omega)]
    rfl
  · rw [if_pos (by omega), if_neg hroom, UInt64.toNat_ofNat_of_lt' hoffset]
    rfl

theorem readLength_eq (hinput : input.length < 2 ^ 33) (hoffset : offset < 2 ^ 64)
    (hp : p ≤ input.length) {l : Length} (hl : l.Narrow) :
    readLength input (.ofNat offset) (.ofNat p) l =
      match (Cursor.at input p).length? l with
      | none => .error (.failed (.truncated offset))
      | some (n, behind) => .ok (.ofNat n, .ofNat behind.position) := by
  cases l with
  | inline n => rfl
  | following width =>
    have hwidth : width ≤ 4 := hl
    have htoNat : (UInt64.ofNat p).toNat = p :=
      UInt64.toNat_ofNat_of_lt' (lt_of_le_of_lt hp (hinput.trans (by decide)))
    have hbytes : ((input.drop p).take width).length ≤ 8 := by
      rw [List.length_take]
      omega
    rw [readLength, advance_eq hinput hoffset hp (by omega), htoNat, ofBytes_eq hbytes]
    simp only [Cursor.length?, Cursor.word?, take?_at]
    split_ifs <;> rfl

theorem payload_eq {m : Marker} (hn : n + 1 < 2 ^ 64) :
    payload m (.ofNat n) = .ok (.ofNat (m.body n).size) := by
  cases m with
  | ext => exact add_ofNat hn
  | _ => rfl

theorem values_eq {m : Marker} (hn : 2 * n < 2 ^ 64) :
    values m (.ofNat n) = .ok (.ofNat (m.body n).due) := by
  cases m with
  | map => exact double_ofNat hn
  | _ => rfl

theorem size_lt {b : UInt8} (hn : n < lengthBound) : ((Marker.ofByte b).body n).size < 2 ^ 64 := by
  have hword : n + 1 < 2 ^ 64 := lt_of_le_of_lt hn (by decide)
  cases hb : Marker.ofByte b with
  | uint width | sint width =>
    have hfixed : Grammar.Fixed b width := Grammar.firstByte_of_eq hb
    exact lt_of_le_of_lt hfixed.size_le (by decide)
  | str | bin => exact Nat.lt_of_succ_lt hword
  | ext => exact hword
  | _ => simp [Marker.body, Marker.Body.size]

/-- Behind a length the reader is at a place of the input. -/
theorem exists_place {l : Length} {behind : Cursor} (hp : p ≤ input.length)
    (h : (Cursor.at input p).length? l = some (n, behind)) :
    ∃ q ≤ input.length, behind = .at input q := by
  obtain ⟨digits, hspans, -⟩ := Grammar.exists_measures h
  have hdigits := length_le_of_spans hspans
  exact ⟨p + digits.length, by omega, hspans.at.1⟩

theorem head_eq (hinput : input.length < 2 ^ 33) {b : UInt8} (h : input[p]? = some b)
    (hb : Marker.ofByte b ≠ .reserved) :
    head input (.ofNat p) (.ofNat (p + 1)) (.ofByte b) =
      match (Cursor.at input p).skipHead with
      | .error e => .error (.failed e)
      | .ok (inside, after) => .ok (.ofNat inside, .ofNat after.position) := by
  obtain ⟨hroom, -⟩ := List.getElem?_eq_some_iff.mp h
  have hp : p < 2 ^ 64 := hroom.trans (hinput.trans (by decide))
  rw [skipHead_at h hb, head, readLength_eq hinput hp hroom (narrow_length b)]
  cases hlength : (Cursor.at input (p + 1)).length? (Marker.ofByte b).length with
  | none => rfl
  | some measured =>
    obtain ⟨n, behind⟩ := measured
    have hn := length?_lt hlength
    have hsize := size_lt (b := b) hn
    obtain ⟨q, hq, rfl⟩ := exists_place hroom hlength
    have hposition : (Cursor.at input q).position = q := rfl
    unfold lengthBound at hn
    have hpayload := payload_eq (n := n) (m := Marker.ofByte b) (by omega)
    have hvalues := values_eq (n := n) (m := Marker.ofByte b) (by omega)
    simp only [Bind.bind, Except.bind, hpayload, hposition, advance_eq hinput hp hq hsize]
    cases (Cursor.at input q).take? ((Marker.ofByte b).body n).size with
    | none => rfl
    | some taken =>
      simp only [hvalues]
      rfl

theorem step_eq (hinput : input.length < 2 ^ 33) (hp : p < 2 ^ 64) {pending : Nat}
    (hpending : ∀ inside after, (Cursor.at input p).skipHead = .ok (inside, after) →
      pending + inside < 2 ^ 64) :
    step input (.ofNat p) (.ofNat pending) =
      match (Cursor.at input p).skipHead with
      | .error e => .error (.failed e)
      | .ok (inside, after) => .ok (.ofNat after.position, .ofNat (pending + inside)) := by
  unfold step
  rw [UInt64.toNat_ofNat_of_lt' hp]
  cases hbyte : input[p]? with
  | none =>
    rw [Cursor.at, List.drop_eq_nil_of_le (List.getElem?_eq_none_iff.mp hbyte)]
    rfl
  | some b =>
    by_cases hb : Marker.ofByte b = .reserved
    · rw [skipHead_at_reserved hbyte hb]
      simp only [hb, if_true]
      rfl
    · obtain ⟨hroom, -⟩ := List.getElem?_eq_some_iff.mp hbyte
      have hfirst : add (.ofNat p) 1 = .ok (.ofNat (p + 1)) := add_ofNat (n := 1) (by omega)
      simp only [if_neg hb, hfirst, Bind.bind, Except.bind, head_eq hinput hbyte hb]
      cases hhead : (Cursor.at input p).skipHead with
      | error e => rfl
      | ok taken =>
        simp only [add_ofNat (hpending taken.1 taken.2 hhead)]
        rfl

/-- Bytes that are there end at a place that has a word. -/
theorem position_lt {start : Nat} {bytes : List UInt8} {c : Cursor} (hinput : input.length < 2 ^ 33)
    (hstart : start < 2 ^ 64) (h : Spans (.at input start) bytes c) : c.position < 2 ^ 64 := by
  have hposition : c.position = start + bytes.length := h.position
  have hbytes := length_le_of_spans h
  omega

theorem walk_eq {start : Nat} (hinput : input.length < 2 ^ 33) (hstart : start < 2 ^ 64)
    {steps taken due : Nat} {c : Cursor} (h : Walked 1 (.at input start) taken due c)
    (hsteps : c.rest.length < steps) :
    walk input steps (.ofNat c.position) (.ofNat due) =
      match c.skipValues due with
      | .error e => .error (.failed e)
      | .ok after => .ok (.ofNat after.position) := by
  have hlength : (Cursor.at input start).rest.length < 2 ^ 33 := by
    rw [Cursor.at, List.length_drop]
    omega
  -- on the steps that are left: what has been walked bounds the place and the values due there
  induction steps generalizing taken due c with
  | zero => exact absurd hsteps (Nat.not_lt_zero _)
  | succ steps ih =>
    obtain ⟨bytes, hspans, -⟩ := h.exists_spans_with_bounds
    have hposition := position_lt hinput hstart hspans
    have hplace : c = .at input c.position := by
      rw [hspans.position]
      exact hspans.at.1
    have hdue := h.pending_lt hlength
    unfold walk
    cases due with
    | zero =>
      rw [skipValues_zero]
      rfl
    | succ due =>
      have hsome : ¬ UInt64.ofNat (due + 1) = 0 := by
        intro hzero
        have hnat := congrArg UInt64.toNat hzero
        rw [UInt64.toNat_ofNat_of_lt' hdue] at hnat
        cases hnat
      have hsub : sub (.ofNat (due + 1)) 1 = .ok (.ofNat due) := sub_ofNat (n := 1) (by omega) hdue
      have hfits : ∀ inside after, (Cursor.at input c.position).skipHead = .ok (inside, after) →
          due + inside < 2 ^ 64 := by
        intro inside after hhead
        rw [← hplace] at hhead
        exact (h.step hhead).pending_lt hlength
      have hstep := step_eq hinput hposition hfits
      rw [← hplace] at hstep
      simp only [if_neg hsome, hsub, Bind.bind, Except.bind, hstep]
      cases hhead : c.skipHead with
      | error e => rw [Grammar.skipValues_error hhead]
      | ok taken =>
        obtain ⟨inside, after⟩ := taken
        have hless := Cursor.length_skipHead hhead
        rw [skipValues_succ hhead]
        exact ih (h.step hhead) (by omega)

end

end Words

/-- In an input shorter than 2^33 bytes, and from any place, no step of the walk leaves 2^64 values
due or finds a length of 2^33, the byte for the type of an extension included; and every step has
taken a byte. So a walk in words of 64 bits comes to the same end, never finding a sum, a difference
or a shift that does not fit, within one step more than there are bytes. -/
theorem skip_never_wraps {input : List UInt8} (hinput : input.length < 2 ^ 33) (start : UInt64) :
    (∀ steps due c, Walked 1 (.at input start.toNat) steps due c →
      (Cursor.at input start.toNat).skip = c.skipValues due ∧ due < 2 ^ 64 ∧
      steps + c.rest.length ≤ input.length - start.toNat ∧
      ∀ m after n behind, c.marker? = some (m, after) →
        after.length? m.length = some (n, behind) → n + 1 < 2 ^ 33) ∧
    (Words.walk input (input.length - start.toNat + 1) start 1).map UInt64.toNat =
      match (Cursor.at input start.toNat).skip with
      | .error e => .error (.failed e)
      | .ok after => .ok after.position := by
  have hlength : (Cursor.at input start.toNat).rest.length = input.length - start.toNat :=
    List.length_drop
  constructor
  · intro steps due c h
    obtain ⟨bytes, hspans, hsteps, -⟩ := h.exists_spans_with_bounds
    refine ⟨h.skipValues_eq, h.pending_lt (by omega), ?_, ?_⟩
    · rw [← hlength, hspans.rest, List.length_append]
      omega
    · intro m after n behind hmarker hn
      obtain ⟨b, -, rfl⟩ := Grammar.spans_marker hmarker
      have hnarrow := length?_lt hn
      unfold lengthBound at hnarrow
      omega
  · have hsteps : (Cursor.at input start.toNat).rest.length < input.length - start.toNat + 1 := by
      omega
    have hwalk := Words.walk_eq hinput start.toNat_lt .start hsteps
    have hplace : UInt64.ofNat (Cursor.at input start.toNat).position = start := UInt64.ofNat_toNat
    rw [hplace] at hwalk
    refine (congrArg (Except.map UInt64.toNat) hwalk).trans ?_
    unfold Cursor.skip
    cases hskip : (Cursor.at input start.toNat).skipValues 1 with
    | error e => rfl
    | ok after =>
      obtain ⟨bytes, hspans, -⟩ := Grammar.skip_iff_wellFormed.mp hskip
      have hposition := Words.position_lt hinput start.toNat_lt hspans
      exact congrArg Except.ok (UInt64.toNat_ofNat_of_lt' hposition)

theorem longest_maps_walked :
    Walked 1 (.at [0xdf, 0xff, 0xff, 0xff, 0xff, 0xdf, 0xff, 0xff, 0xff, 0xff] 0) 2 17179869179
        ⟨10, []⟩ ∧
      17179869179 < 2 ^ 64 ∧
      (Words.walk [0xdf, 0xff, 0xff, 0xff, 0xff, 0xdf, 0xff, 0xff, 0xff, 0xff] 11 0 1).map
        UInt64.toNat = .error (.failed (.truncated 10)) := by
  obtain ⟨hstates, hwalk⟩ := @skip_never_wraps
    [0xdf, 0xff, 0xff, 0xff, 0xff, 0xdf, 0xff, 0xff, 0xff, 0xff] (by decide) 0
  have houter : Cursor.skipHead ⟨0, [0xdf, 0xff, 0xff, 0xff, 0xff, 0xdf, 0xff, 0xff, 0xff, 0xff]⟩ =
      .ok (8589934590, ⟨5, [0xdf, 0xff, 0xff, 0xff, 0xff]⟩) := rfl
  have hinner : Cursor.skipHead ⟨5, [0xdf, 0xff, 0xff, 0xff, 0xff]⟩ =
      .ok (8589934590, ⟨10, []⟩) := rfl
  have houtside := (Walked.start : Walked (0 + 1) _ _ _ _).step houter
  have hinside := (houtside : Walked _ _ _ (8589934589 + 1) _).step hinner
  obtain ⟨hskip, hdue, -⟩ := hstates _ _ _ hinside
  rw [hskip, Grammar.skipValues_error rfl] at hwalk
  exact ⟨hinside, hdue, hwalk⟩

end SchemaPack.Wire
