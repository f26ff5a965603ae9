import MaskedTaint.Audit.Analysis
import MaskedTaint.Command.Request
import MaskedTaint.Flow.Recorder
import MaskedTaint.Main
import MaskedTaint.Panel.Handling
import MaskedTaint.Proofs.Cipher.RoundTrips
import MaskedTaint.Proofs.Code.Arguments
import MaskedTaint.Proofs.Code.Placement
import MaskedTaint.Proofs.Flow.Alignment
import MaskedTaint.Proofs.Flow.Counting
import MaskedTaint.Proofs.Flow.Failures
import MaskedTaint.Proofs.Flow.Independence
import MaskedTaint.Proofs.Flow.Numbering
import MaskedTaint.Proofs.Flow.Ordering
import MaskedTaint.Proofs.Flow.Assignments
import MaskedTaint.Proofs.Flow.Outputs
import MaskedTaint.Proofs.Flow.Respelling
import MaskedTaint.Proofs.Flow.Stamps
import MaskedTaint.Proofs.Lexeme.Tainted
import MaskedTaint.Proofs.Masking.ClosingTags
import MaskedTaint.Proofs.Masking.Sessions
import MaskedTaint.Proofs.Script.Detection
import MaskedTaint.Proofs.Sealing.Delivery
import MaskedTaint.Proofs.Sealing.Detection
import MaskedTaint.Proofs.Sealing.Disclosure
import MaskedTaint.Proofs.Sealing.Handover
import MaskedTaint.Proofs.Sealing.Ranges
import MaskedTaint.Proofs.Sealing.Recorded
import MaskedTaint.Proofs.Sealing.Reports
import MaskedTaint.Proofs.Sealing.Runs
import MaskedTaint.Proofs.Sealing.ToldApart
import MaskedTaint.Proofs.Search.Cycles
import MaskedTaint.Proofs.Search.Footprint
import MaskedTaint.Proofs.Search.Independence
import MaskedTaint.Proofs.Search.Nearness
import MaskedTaint.Proofs.Search.Provenance
import MaskedTaint.Proofs.Search.Recursion
import MaskedTaint.Proofs.Search.Repetition
import MaskedTaint.Proofs.Search.StraightLine
import MaskedTaint.Sample.Workload
import MaskedTaint.Text.Numeral
