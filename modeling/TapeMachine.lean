import TapeMachine.Main
import TapeMachine.Settings.Shared
import TapeMachine.Proofs.Machine.Soundness
import TapeMachine.Proofs.Machine.Failure
import TapeMachine.Proofs.Machine.Simulation
import TapeMachine.Proofs.Source.Balance
import TapeMachine.Proofs.Source.Encoding
import TapeMachine.Proofs.Source.Boundary
import TapeMachine.Proofs.Program.Bytes
import TapeMachine.Proofs.Program.Brackets
import TapeMachine.Proofs.Program.CheckedScan
import TapeMachine.Proofs.Program.Accesses
import TapeMachine.Proofs.Source.Cut
import TapeMachine.Proofs.Program.Tokens
import TapeMachine.Proofs.Program.CallSites
import TapeMachine.Proofs.CommandLine.Arguments
import TapeMachine.Proofs.CommandLine.FileRun
import TapeMachine.Proofs.CommandLine.Levels
import TapeMachine.Proofs.CommandLine.Prompt
import TapeMachine.Proofs.CommandLine.Session
import TapeMachine.Proofs.Program.WithoutCalls
import TapeMachine.Proofs.Machine.WithoutCalls
import TapeMachine.Proofs.Machine.Budget
import TapeMachine.Proofs.Machine.Bounds
import TapeMachine.Proofs.Machine.CutShort
import TapeMachine.Proofs.Machine.Delivery
import TapeMachine.Proofs.Machine.Consumption
import TapeMachine.Proofs.Machine.Policies
import TapeMachine.Proofs.Machine.LongerTape
import TapeMachine.Proofs.Machine.Loops
import TapeMachine.Proofs.Machine.Composition
import TapeMachine.Proofs.Machine.Blame
import TapeMachine.Proofs.Machine.Visibility
import TapeMachine.Proofs.Commands.Power
import TapeMachine.Proofs.Commands.Increment
import TapeMachine.Proofs.Program.NormalForm
import TapeMachine.Proofs.Program.Ascii
import TapeMachine.Proofs.Program.Excerpt
import TapeMachine.Proofs.Program.Renderings
import TapeMachine.Proofs.Commands.Dumps
