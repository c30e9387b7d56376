import NetLowering.Main
import NetLowering.Plan.Build
import NetLowering.Proofs.Closure
import NetLowering.Proofs.StrictPadding
import NetLowering.Proofs.Resolution
import NetLowering.Proofs.Building
import NetLowering.Proofs.Leaves
import NetLowering.Proofs.InsertionOrder
import NetLowering.Proofs.Passthrough
import NetLowering.Proofs.Unfusing
import NetLowering.Proofs.Additions
import NetLowering.Proofs.Canonical
import NetLowering.Proofs.Skipping
import NetLowering.Proofs.Indices
import NetLowering.Proofs.Interleaving
import NetLowering.Proofs.Accounting
import NetLowering.Proofs.Stored
import NetLowering.Proofs.PositiveShapes
import NetLowering.Proofs.Elementwise
import NetLowering.Proofs.Registration
import NetLowering.Proofs.Tracing
import NetLowering.Proofs.Documents
import NetLowering.Proofs.Fills
import NetLowering.Proofs.Rounds
import NetLowering.Proofs.DeadInputs
import NetLowering.Proofs.Walks
import NetLowering.Proofs.Decomposition
import NetLowering.Proofs.Operands
import NetLowering.Proofs.Constants
import NetLowering.Proofs.MatrixProducts
import NetLowering.Proofs.Splices
import NetLowering.Proofs.Terminals
import NetLowering.Proofs.ListedOutputs
import NetLowering.Proofs.Alignment
import NetLowering.Proofs.Transposition
