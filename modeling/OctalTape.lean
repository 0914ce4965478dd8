import OctalTape.Error
import OctalTape.Files.Directory
import OctalTape.Instruction
import OctalTape.Log
import OctalTape.Machine.Run
import OctalTape.Machine.Session
import OctalTape.Machine.Step
import OctalTape.Machine.Trace
import OctalTape.Main
import OctalTape.Program
import OctalTape.Proofs.ErrorSources
import OctalTape.Proofs.FaultFreedom
import OctalTape.Proofs.IgnoredOperands
import OctalTape.Proofs.Machine.ControlFlow
import OctalTape.Proofs.Machine.Course
import OctalTape.Proofs.Machine.DigitLoop
import OctalTape.Proofs.Machine.Effects
import OctalTape.Proofs.Machine.Invariant
import OctalTape.Proofs.Machine.Itinerary
import OctalTape.Proofs.Machine.Jumps
import OctalTape.Proofs.Machine.LiteralLoop
import OctalTape.Proofs.Machine.Monotone
import OctalTape.Proofs.Machine.Overflow
import OctalTape.Proofs.Machine.Replay
import OctalTape.Proofs.Machine.Resumption
import OctalTape.Proofs.Machine.StraightLine
import OctalTape.Proofs.Machine.Unbounded
import OctalTape.Proofs.Machine.Width
import OctalTape.Proofs.Octal
import OctalTape.Proofs.Results
import OctalTape.Proofs.Search.Accounting
import OctalTape.Proofs.Search.Cumulative
import OctalTape.Proofs.Search.Descents
import OctalTape.Proofs.Search.Echo
import OctalTape.Proofs.Search.Exact
import OctalTape.Proofs.Search.FirstPath
import OctalTape.Proofs.Search.Guard
import OctalTape.Proofs.Search.GuardVerdict
import OctalTape.Proofs.Search.Histories
import OctalTape.Proofs.Search.Missed
import OctalTape.Proofs.Search.Nesting
import OctalTape.Proofs.Search.Overflow
import OctalTape.Proofs.Search.Path
import OctalTape.Proofs.Search.Probes
import OctalTape.Proofs.Search.Pruning
import OctalTape.Proofs.Search.Results
import OctalTape.Proofs.Search.StepLimit
import OctalTape.Proofs.Search.Visit
import OctalTape.Proofs.Search.Walk
import OctalTape.Proofs.Text.Lines
import OctalTape.Proofs.Text.Numeral
import OctalTape.Proofs.Text.ProgramText
import OctalTape.Proofs.Text.ProgramVerdict
import OctalTape.Proofs.Text.SnapshotGrammar
import OctalTape.Proofs.Text.SnapshotLayout
import OctalTape.Proofs.Text.SnapshotText
import OctalTape.Proofs.Text.SnapshotVerdict
import OctalTape.Proofs.Text.TraceLine
import OctalTape.Proofs.Tool.Confirmation
import OctalTape.Register
import OctalTape.Search.Descent
import OctalTape.Search.Log
import OctalTape.Search.Report
import OctalTape.Search.SeedSearch
import OctalTape.Search.Session
import OctalTape.Snapshot
import OctalTape.Text.Blank
import OctalTape.Text.Numeral
import OctalTape.Tool.Basic
import OctalTape.Tool.Failure
import OctalTape.Tool.Settings
import OctalTape.Word
