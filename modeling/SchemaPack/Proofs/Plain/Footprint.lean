import SchemaPack.Proofs.Plain.Appending
import SchemaPack.Proofs.Plain.RoundTrip
import SchemaPack.Proofs.Plain.Whole

/-!
The footprint of a write. What a served codec adds to an output, and how the write ends, is decided
by the type and the value alone; the output in front stays as it was, also when the value is refused
further in. What a write that succeeds has added is one value, however deep the value nests.
-/
namespace SchemaPack

open Wire (Cursor Whole)

/-- Bytes that a step appends whenever it succeeds have what its successes leave behind. -/
theorem Write.Appends.of_leaves {α : Type} {step : Write α} {bytes : List UInt8} {a : α}
    {P : List UInt8 → Prop} (happends : step.Appends bytes (.ok a)) (hleaves : step.Leaves P) :
    P bytes := by
  obtain ⟨left, hleft, hP⟩ := hleaves .empty a (Wire.Output.empty.append bytes) (happends .empty)
  have hsame : bytes = left := by
    rwa [Wire.Output.bytes_append, List.append_cancel_left_eq] at hleft
  rwa [hsame]

/-- Encoding a value is writing it to the empty output. -/
theorem Handle.encode_of_appends {h : Handle} {v : Value} {bytes : List UInt8}
    {outcome : Except CodecError Unit} (happends : (h.write v).Appends bytes outcome) :
    h.encode v = outcome.map fun _ => bytes := by
  have hbytes : (Wire.Output.empty.append bytes).bytes = bytes := by simp
  cases outcome with
  | error e =>
    exact encode_eq_error.mpr ⟨_, happends .empty⟩
  | ok u =>
    exact encode_eq_ok.mpr ⟨_, happends .empty, hbytes⟩

namespace Context

/-- For every value there are bytes and an outcome such that all codecs served for the type, after
whatever requests and under whatever limits, append these bytes to every output and end in this
outcome. The encoding of the value is the same bytes or the same error. Where the write succeeds, a
walk that skips one value consumes exactly the bytes, whatever follows them. -/
theorem appends_one_value (catalog : Catalog) (type : Ty) (v : Value) :
    ∃ bytes outcome, ∀ (config : Config) (history : List (Ty × Policy)) (policy : Policy)
        (h : Handle),
      (((fresh catalog config).after history).request type policy).1 = .ok h →
        (h.write v).Appends bytes outcome ∧ h.encode v = outcome.map (fun _ => bytes) ∧
          (outcome = .ok () → ∀ position tail, Cursor.skip ⟨position, bytes ++ tail⟩ =
            .ok ⟨position + bytes.length, tail⟩) := by
  obtain ⟨bytes, outcome, happends⟩ := Plain.onlyAppends_write (c := catalog) v type
  refine ⟨bytes, outcome, fun config history policy h hserved => ?_⟩
  rw [← write_eq_plain hserved v] at happends
  refine ⟨happends, Handle.encode_of_appends happends, ?_⟩
  rintro rfl position tail
  have hleaves : (h.write v).Leaves (Whole 1) := by
    rw [write_eq_plain hserved]
    exact Plain.whole_write v type
  exact (happends.of_leaves hleaves).skip position tail

def halfLink : Value := .record [("next", .null)]

/-- The header, the name of the first field and its null: what is written before the missing field
is noticed. -/
def halfLinkBytes : List UInt8 := [0x82, 0xa4, 0x6e, 0x65, 0x78, 0x74, 0xc0]

/-- A limit of one level does not keep two links from being written, and a link without its value
leaves its first half behind. -/
theorem links_append_one_value : ∃ h,
    (((fresh chain { maxDepth := 1 }).after []).request link.type .throw).1 = .ok h ∧
      (h.write twoLinks).Appends twoLinksBytes (.ok ()) ∧
      (∀ position tail, Cursor.skip ⟨position, twoLinksBytes ++ tail⟩ =
        .ok ⟨position + twoLinksBytes.length, tail⟩) ∧
      (h.write halfLink).Appends halfLinkBytes
        (.error (.ofWriteFault (.missingField ⟨"Link"⟩ "value"))) := by
  obtain ⟨h, hserved⟩ := chain_is_served 1
  refine ⟨h, hserved, ?_⟩
  obtain ⟨bytes, outcome, hall⟩ := appends_one_value chain link.type twoLinks
  obtain ⟨happends, hencoded, hskip⟩ := hall _ _ _ h hserved
  obtain ⟨half, refusal, hall'⟩ := appends_one_value chain link.type halfLink
  obtain ⟨happends', -, -⟩ := hall' _ _ _ h hserved
  rw [encode_twoLinks hserved] at hencoded
  cases outcome with
  | error e => cases hencoded
  | ok u =>
    obtain rfl : twoLinksBytes = bytes := Except.ok.inj hencoded
    refine ⟨happends, hskip rfl, ?_⟩
    have hwritten : h.write halfLink .empty =
        .error (.ofWriteFault (.missingField ⟨"Link"⟩ "value")) ⟨halfLinkBytes.toArray⟩ := by
      rw [write_eq_plain hserved]
      rfl
    cases refusal with
    | ok u' => cases (happends' .empty).symm.trans hwritten
    | error e =>
      have hfailed := (happends' .empty).symm.trans hwritten
      injection hfailed with herror houtput
      have hbytes : half = halfLinkBytes := by
        have hboth := congrArg Wire.Output.bytes houtput
        rwa [Wire.Output.bytes_append] at hboth
      rw [← herror, ← hbytes]
      exact happends'

end Context

end SchemaPack
