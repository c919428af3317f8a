import SchemaPack.Proofs.Outcomes
import SchemaPack.Proofs.Plain.Reading
import SchemaPack.Proofs.Plain.Writing

/-!
What a served codec means. Whatever was requested before, and whether or not it could be served,
a codec that a context hands out writes and reads as the plain interpreter of its type does.
-/
namespace SchemaPack.Context

variable {catalog : Catalog} {config : Config} {history : List (Ty × Policy)} {type : Ty}
  {policy : Policy} {h : Handle}

/-- The edge by which a served codec is entered. -/
theorem leads_of_served
    (hserved : (((fresh catalog config).after history).request type policy).1 = .ok h) :
    h.library.Faithful catalog ∧ h.library.Leads h.edge ∧ h.edge.type = type ∧
      h.maxDepth = config.maxDepth := by
  obtain ⟨hfaithful, hcodec, htype, -, hdepth⟩ := faithful_of_request hserved
  exact ⟨hfaithful, ⟨nofun, Compile.contains_iff.mpr ⟨h.codec, hcodec, rfl⟩⟩, htype, hdepth⟩

theorem write_eq_plain
    (hserved : (((fresh catalog config).after history).request type policy).1 = .ok h) (v : Value) :
    h.write v = Plain.write catalog v type := by
  obtain ⟨hfaithful, hleads, htype, -⟩ := leads_of_served hserved
  rw [Handle.write, hfaithful.follows_writer.write_eq v hleads, htype]

theorem readWith_eq_plain
    (hserved : (((fresh catalog config).after history).request type policy).1 = .ok h)
    (behaviour : Policy) :
    h.readWith behaviour = Plain.read catalog (Scope.root behaviour config.maxDepth).room type
      (Scope.root behaviour config.maxDepth) := by
  obtain ⟨hfaithful, hleads, htype, hdepth⟩ := leads_of_served hserved
  simp only [Handle.readWith, hfaithful.follows_reader.read_eq _ hleads, htype, hdepth]

/-- A served codec writes every value with the bytes or the error of the plain interpreter, and
reads every input from any position with its value or error and its final cursor. -/
theorem served_codec_means_type
    (hserved : (((fresh catalog config).after history).request type policy).1 = .ok h) :
    (∀ v output, h.write v output = Plain.write catalog v type output) ∧
      ∀ behaviour cursor, h.readWith behaviour cursor =
        Plain.read catalog (Scope.root behaviour config.maxDepth).room type
          (Scope.root behaviour config.maxDepth) cursor := by
  constructor
  · intro v output
    rw [write_eq_plain hserved]
  · intro behaviour cursor
    rw [readWith_eq_plain hserved]

theorem encode_of_write
    (hserved : (((fresh catalog config).after history).request type policy).1 = .ok h) {v : Value}
    {bytes : List UInt8} (hwritten : Plain.write catalog v type .empty = .ok () ⟨bytes.toArray⟩) :
    h.encode v = .ok bytes := by
  rw [← write_eq_plain hserved] at hwritten
  exact Handle.encode_eq_ok.mpr ⟨_, hwritten, rfl⟩

/-- Bytes that the plain interpreter reads to their end are decoded. -/
theorem decode_of_read
    (hserved : (((fresh catalog config).after history).request type policy).1 = .ok h)
    {behaviour : Policy} {bytes : List UInt8} {v : Value} {position : Nat}
    (hread : Plain.read catalog (Scope.root behaviour config.maxDepth).room type
      (Scope.root behaviour config.maxDepth) (.ofBytes bytes) = .ok v ⟨position, []⟩) :
    (h.withPolicy behaviour).decode bytes = .ok v := by
  rw [← readWith_eq_plain hserved] at hread
  exact Handle.decode_eq_ok.mpr ⟨_, hread, rfl⟩

/-- A folder lists its files, and a file may know the folder it lies in. -/
def folders : Catalog where
  records :=
    [⟨⟨"Folder"⟩, [⟨"name", .primitive .string, none⟩, ⟨"files", .list (.record ⟨"File"⟩), none⟩]⟩,
      ⟨⟨"File"⟩, [⟨"size", .primitive (.int .u32), some (.int .u32 ⟨0, by decide⟩)⟩,
        ⟨"parent", .nullable (.record ⟨"Folder"⟩), none⟩]⟩]

def folderHistory : List (Ty × Policy) :=
  [(.record ⟨"Disk"⟩, .throw), (.record ⟨"File"⟩, .ignore)]

theorem folder_is_served :
    ∃ h, (((fresh folders {}).after folderHistory).request (.record ⟨"Folder"⟩) .throw).1 = .ok h :=
  exists_handle (by decide)

theorem served_folder_means_type :
    ∃ h, (((fresh folders {}).after folderHistory).request (.record ⟨"Folder"⟩) .throw).1 = .ok h ∧
      (∀ v output, h.write v output = Plain.write folders v (.record ⟨"Folder"⟩) output) ∧
      ∀ behaviour cursor, h.readWith behaviour cursor =
        Plain.read folders (Scope.root behaviour 128).room (.record ⟨"Folder"⟩)
          (Scope.root behaviour 128) cursor := by
  obtain ⟨h, hserved⟩ := folder_is_served
  exact ⟨h, hserved, served_codec_means_type hserved⟩

end SchemaPack.Context
