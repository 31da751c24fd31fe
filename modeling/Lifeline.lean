import Lifeline.Main
import Lifeline.Proofs.Walk
import Lifeline.Proofs.Moves
import Lifeline.Proofs.Invariants
import Lifeline.Proofs.Lifecycle
import Lifeline.Proofs.Faithfulness
import Lifeline.Proofs.Faults
import Lifeline.Proofs.Listing
import Lifeline.Proofs.UniqueNames
import Lifeline.Proofs.Usage
import Lifeline.Proofs.Enclosure
import Lifeline.Proofs.Course
import Lifeline.Proofs.Script
import Lifeline.Proofs.Mirror
import Lifeline.Proofs.NormalForm
import Lifeline.Proofs.Growth
import Lifeline.Proofs.Quotation
import Lifeline.Proofs.Lexemes
import Lifeline.Proofs.Tiling
import Lifeline.Proofs.Reading
import Lifeline.Proofs.Spans
import Lifeline.Proofs.Layout
import Lifeline.Proofs.Writing
import Lifeline.Proofs.RoundTrip
import Lifeline.Proofs.LineEndings
import Lifeline.Proofs.Pointers
import Lifeline.Proofs.Compaction
import Lifeline.Proofs.Decoding
import Lifeline.Proofs.Merging
import Lifeline.Proofs.Renaming
import Lifeline.Proofs.Neighbours
import Lifeline.Proofs.Tightness
import Lifeline.Proofs.Reach
import Lifeline.Proofs.Joining
import Lifeline.Proofs.OpenQuotations
import Lifeline.Proofs.Verbatim
import Lifeline.Proofs.Notes
import Lifeline.Proofs.Headers
import Lifeline.Proofs.Naming
import Lifeline.Proofs.Jobs
import Lifeline.Proofs.Cutting
import Lifeline.Proofs.Quoting
import Lifeline.Proofs.Ledger.Integrity
