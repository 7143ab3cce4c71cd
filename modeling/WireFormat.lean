import WireFormat.Grammar
import WireFormat.Inspector
import WireFormat.Session
import WireFormat.Schema.Encoding
import WireFormat.Schema.Shape
import WireFormat.Proofs.Varint
import WireFormat.Proofs.Bytewise
import WireFormat.Proofs.VarintOutcomes
import WireFormat.Proofs.ShortestVarint
import WireFormat.Proofs.ZigZagOrder
import WireFormat.Proofs.Reader
import WireFormat.Proofs.Skip
import WireFormat.Proofs.Composition
import WireFormat.Proofs.Motion
import WireFormat.Proofs.Range
import WireFormat.Proofs.Placement
import WireFormat.Proofs.SchemaVisitor
import WireFormat.Proofs.InPlace
import WireFormat.Proofs.Scalar
import WireFormat.Proofs.Reading
import WireFormat.Proofs.Slots
import WireFormat.Proofs.RoundTrip
import WireFormat.Proofs.Comparison
import WireFormat.Proofs.Passing
import WireFormat.Proofs.Verdict
import WireFormat.Proofs.Located
import WireFormat.Proofs.LocatedRuns
import WireFormat.Proofs.Dutiful
import WireFormat.Proofs.Counting
import WireFormat.Proofs.Payload
import WireFormat.Proofs.Strictness
import WireFormat.Proofs.Widening
import WireFormat.Proofs.Concatenation
import WireFormat.Proofs.Filtering
import WireFormat.Proofs.Acceptance
import WireFormat.Proofs.Bounds
import WireFormat.Proofs.Window
import WireFormat.Proofs.Gathering
import WireFormat.Proofs.Parsing
import WireFormat.Proofs.Inspection
import WireFormat.Proofs.Exactness
import WireFormat.Proofs.Restoring
import WireFormat.Proofs.Nesting
import WireFormat.Proofs.Packing
import WireFormat.Proofs.FixedWidth
import WireFormat.Proofs.Calls
import WireFormat.Proofs.Course
import WireFormat.Proofs.Termination
import WireFormat.Proofs.Dispatch
import WireFormat.Proofs.Merging
import WireFormat.Proofs.Ensures
import WireFormat.Proofs.Completeness
import WireFormat.Proofs.Lengths
import WireFormat.Proofs.Guessing
import WireFormat.Proofs.ReadBack
import WireFormat.Proofs.InspectionEnds
import WireFormat.Proofs.ObjectNesting
