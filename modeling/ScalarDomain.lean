import ScalarDomain.Answer
import ScalarDomain.Backward.Arithmetic
import ScalarDomain.Backward.BitField
import ScalarDomain.Backward.Bitwise
import ScalarDomain.Backward.Comparison
import ScalarDomain.Backward.Constrain
import ScalarDomain.Backward.Division
import ScalarDomain.Backward.Float
import ScalarDomain.Backward.Frame
import ScalarDomain.Backward.Logic
import ScalarDomain.Backward.Refinement
import ScalarDomain.Binary
import ScalarDomain.Bounds
import ScalarDomain.Datum
import ScalarDomain.Decimal.Layout
import ScalarDomain.Decimal.Shortest
import ScalarDomain.Descriptor
import ScalarDomain.Element
import ScalarDomain.Element.Build
import ScalarDomain.Element.Description
import ScalarDomain.Error
import ScalarDomain.Evaluation
import ScalarDomain.Extremum
import ScalarDomain.FloatSet
import ScalarDomain.Forward.Apply
import ScalarDomain.Forward.Float
import ScalarDomain.Forward.Fold
import ScalarDomain.Forward.Interval
import ScalarDomain.Forward.Step
import ScalarDomain.Journal
import ScalarDomain.Landmark
import ScalarDomain.Lattice
import ScalarDomain.Operation
import ScalarDomain.Operation.Typing
import ScalarDomain.Policy
import ScalarDomain.Precision
import ScalarDomain.Proofs.Execution
import ScalarDomain.Proofs.Extremum
import ScalarDomain.Proofs.Word
import ScalarDomain.Question
import ScalarDomain.Settings
import ScalarDomain.Type
import ScalarDomain.Proofs.Range
import ScalarDomain.Proofs.Range.Tiling
import ScalarDomain.Proofs.Lattice
import ScalarDomain.Proofs.Lattice.Operations
import ScalarDomain.Proofs.Lattice.Laws
import ScalarDomain.Proofs.Lattice.Exactness
import ScalarDomain.Proofs.Lattice.Dispatch
import ScalarDomain.Proofs.Lattice.Canonical
import ScalarDomain.Proofs.Landmark.Exactness
import ScalarDomain.Proofs.Forward.Delivery
import ScalarDomain.Proofs.Forward.Fold
import ScalarDomain.Proofs.Forward.Arithmetic
import ScalarDomain.Proofs.Forward.Comparison
import ScalarDomain.Proofs.Forward.Field
import ScalarDomain.Proofs.Forward.Bitwise
import ScalarDomain.Proofs.Forward.Interval
import ScalarDomain.Proofs.Forward.Evaluation
import ScalarDomain.Proofs.Forward.Branches
import ScalarDomain.Proofs.Forward.Lockstep
import ScalarDomain.Proofs.Forward.Nesting
import ScalarDomain.Proofs.Forward.Information
import ScalarDomain.Proofs.Forward.Transfer
import ScalarDomain.Proofs.Forward.Soundness
import ScalarDomain.Proofs.Forward.Totality
import ScalarDomain.Proofs.Forward.Machine
import ScalarDomain.Proofs.Forward.Inclusion
import ScalarDomain.Proofs.Forward.Monotone
import ScalarDomain.Proofs.Forward.Steps
import ScalarDomain.Proofs.Forward.Creation
import ScalarDomain.Proofs.Forward.Pruning
import ScalarDomain.Proofs.Forward.Error
import ScalarDomain.Proofs.Forward.Flags
import ScalarDomain.Proofs.Forward.Diagnosis
import ScalarDomain.Proofs.Backward.Arithmetic
import ScalarDomain.Proofs.Backward.Comparison
import ScalarDomain.Proofs.Backward.Division
import ScalarDomain.Proofs.Backward.Bitwise
import ScalarDomain.Proofs.Backward.BitField
import ScalarDomain.Proofs.Backward.Logic
import ScalarDomain.Proofs.Backward.Solver
import ScalarDomain.Proofs.Backward.Refinement
import ScalarDomain.Proofs.Backward.Trial
import ScalarDomain.Proofs.Backward.Remnant
import ScalarDomain.Proofs.Backward.Lockstep
import ScalarDomain.Proofs.Backward.Nesting
import ScalarDomain.Proofs.Backward.Information
import ScalarDomain.Proofs.Backward.Soundness
import ScalarDomain.Proofs.Backward.Shrinking
import ScalarDomain.Proofs.Backward.Pruning
import ScalarDomain.Proofs.Backward.Leftover
import ScalarDomain.Proofs.Backward.Exchange
import ScalarDomain.Proofs.Backward.Tightness
import ScalarDomain.Proofs.Backward.Verdict
import ScalarDomain.Proofs.Backward.Extraction
import ScalarDomain.Proofs.Descriptor
import ScalarDomain.Proofs.Forward.Extension
import ScalarDomain.Proofs.Forward.Segment
