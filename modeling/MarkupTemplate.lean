import MarkupTemplate.Composition
import MarkupTemplate.Session
import MarkupTemplate.Trace
import MarkupTemplate.Proofs.Canonical
import MarkupTemplate.Proofs.Noninterference
import MarkupTemplate.Proofs.Locality
import MarkupTemplate.Proofs.Shapeless
import MarkupTemplate.Proofs.Attributes
import MarkupTemplate.Proofs.Embedding
import MarkupTemplate.Proofs.Json.Writing
import MarkupTemplate.Proofs.Sequencing
import MarkupTemplate.Proofs.Closings
import MarkupTemplate.Proofs.Marks
import MarkupTemplate.Proofs.Rewriting
import MarkupTemplate.Proofs.StartTags
import MarkupTemplate.Proofs.Removal
import MarkupTemplate.Proofs.Accounts
import MarkupTemplate.Proofs.Classes
import MarkupTemplate.Proofs.Divisions
import MarkupTemplate.Proofs.Ranges.Cuts
import MarkupTemplate.Proofs.Ranges.Scan
import MarkupTemplate.Proofs.Ranges.Walk
import MarkupTemplate.Proofs.Ranges.Filling
