import DurableScript.Compile
import DurableScript.ObjectId
import DurableScript.Program.Binary
import DurableScript.Runner
import DurableScript.Snapshot.Read
import DurableScript.Proofs.Layout
import DurableScript.Proofs.Shape
import DurableScript.Proofs.Tables
import DurableScript.Proofs.Procedures
import DurableScript.Proofs.Acceptance
import DurableScript.Proofs.Runs
import DurableScript.Proofs.Outline
import DurableScript.Proofs.StackDiscipline
import DurableScript.Proofs.Evaluation
import DurableScript.Proofs.Simulation
import DurableScript.Proofs.Instructions
import DurableScript.Proofs.Calls
import DurableScript.Proofs.Meaning
import DurableScript.Proofs.Statements
import DurableScript.Proofs.Loops
import DurableScript.Proofs.CompilerCorrectness
import DurableScript.Proofs.Stops
import DurableScript.Proofs.Suspension
import DurableScript.Proofs.Binary64
import DurableScript.Proofs.Rounding
import DurableScript.Proofs.NearestDouble
import DurableScript.Proofs.ShortestDecimal
import DurableScript.Proofs.NumberText
import DurableScript.Proofs.JsonText
import DurableScript.Proofs.Escaping
import DurableScript.Proofs.TaggedText
import DurableScript.Proofs.Restoring
import DurableScript.Proofs.Addresses
import DurableScript.Proofs.SnapshotText
import DurableScript.Proofs.RoundTrip
import DurableScript.Proofs.Blobs
import DurableScript.Proofs.Sameness
import DurableScript.Proofs.Persistence
import DurableScript.Proofs.Requests
import DurableScript.Proofs.Containment
import DurableScript.Proofs.Rereading
import DurableScript.Proofs.Lineage
import DurableScript.Proofs.Polling
import DurableScript.Proofs.FailedSteps
import DurableScript.Proofs.HostSnapshots
import DurableScript.Proofs.CycleLimit
import DurableScript.Proofs.Correspondence
import DurableScript.Proofs.SharedObjects
import DurableScript.Proofs.Mirroring
import DurableScript.Proofs.LazyReading
import DurableScript.Proofs.LazyRuns
import DurableScript.Proofs.ArgumentCode
import DurableScript.Proofs.PuttingOff
import DurableScript.Proofs.CallFrames
import DurableScript.Proofs.Nesting
import DurableScript.Proofs.VariableNames
import DurableScript.Proofs.ProcedureBodies
import DurableScript.Proofs.ProgramBytes
import DurableScript.Proofs.Signals
import DurableScript.Proofs.DeferredReading
import DurableScript.Proofs.LazyLookups
import DurableScript.Proofs.LoopNames
import DurableScript.Proofs.LoopVariables
import DurableScript.Proofs.LoopControl
import DurableScript.Proofs.ForEach
import DurableScript.Proofs.CountedLoops
import DurableScript.Proofs.ExpressionValues
import DurableScript.Proofs.ExpressionWalks
import DurableScript.Proofs.ExpressionRuns
import DurableScript.Proofs.NumberOrder
import DurableScript.Proofs.Comparison
import DurableScript.Proofs.RunStatus
import DurableScript.Proofs.CallDepth
import DurableScript.Proofs.WholeNumbers
import DurableScript.Proofs.ObjectEquality
import DurableScript.Proofs.RecordText
