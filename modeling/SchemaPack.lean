import SchemaPack.Config.Layered
import SchemaPack.Context
import SchemaPack.Provider.Builtin
import SchemaPack.Provider.Sample
import SchemaPack.Proofs.Admission
import SchemaPack.Proofs.Library.Termination
import SchemaPack.Proofs.Plain.Acceptance
import SchemaPack.Proofs.Plain.Alternatives
import SchemaPack.Proofs.Plain.Completeness
import SchemaPack.Proofs.Plain.Reencoding
import SchemaPack.Proofs.Catalog.DeepCheck
import SchemaPack.Proofs.Plain.RoundTrip
import SchemaPack.Proofs.Plain.Failures
import SchemaPack.Proofs.Plain.Safety
import SchemaPack.Proofs.Portable
import SchemaPack.Proofs.Wire.Bounds
import SchemaPack.Proofs.Plain.Extent
import SchemaPack.Proofs.Library.Cache
import SchemaPack.Proofs.Session.Steps
import SchemaPack.Proofs.Session.Mirror
import SchemaPack.Proofs.Library.Asking
import SchemaPack.Proofs.Library.RequestOrder
import SchemaPack.Proofs.Plain.Whole
import SchemaPack.Proofs.Plain.Alteration
import SchemaPack.Proofs.Plain.Evolution
import SchemaPack.Proofs.Plain.Footprint
import SchemaPack.Proofs.Wire.Grammar
import SchemaPack.Proofs.Wire.Sequence
import SchemaPack.Proofs.Session.Exploration
import SchemaPack.Proofs.Library.Chains
import SchemaPack.Proofs.Plain.DepthLimit
import SchemaPack.Proofs.Library.CustomProviders
import SchemaPack.Proofs.Library.Ownership
import SchemaPack.Proofs.Plain.Entries
import SchemaPack.Proofs.Wire.Scalars
import SchemaPack.Proofs.Plain.Scalars
import SchemaPack.Proofs.Plain.Attribution
import SchemaPack.Proofs.Plain.Components
import SchemaPack.Proofs.Plain.Culprit
import SchemaPack.Proofs.Wire.Discipline
import SchemaPack.Proofs.Wire.Words
