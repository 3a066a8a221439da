import TapeMachine.Settings
import TapeMachine.Program.Basic
import TapeMachine.Machine.Error
import TapeMachine.Machine.Host

/-!
# The machine

A machine is the state of one run: where it is in the program, the tape, the streams, the host's
state, and whether it is still running. What stays the same during a run is a `Job`.
-/

namespace TapeMachine

/-- What a machine works on: the program, the limits it runs under, and the host. -/
structure Job (σ : Type) where
  program : Program
  bounds : BoundsPolicy := .halt
  maxSteps : Option Nat := none
  host : Host σ

def Job.ofSettings {σ : Type} (settings : MachineSettings) (program : Program) (host : Host σ) :
    Job σ :=
  { program, bounds := settings.bounds, maxSteps := settings.maxSteps, host }

inductive Status where
  | running
  | halted (halt : Halt)
  /-- The streams failed at this instruction. -/
  | aborted (instruction : Nat)
  deriving DecidableEq, Repr

/-- The state of a run on a tape of `n` cells, for a host with states of type `σ`. -/
structure Machine (n : Nat) (σ : Type) where
  /-- The index of the instruction that is next. -/
  next : Nat := 0
  tape : Tape n
  /-- The number of instructions that have been begun. -/
  steps : Nat := 0
  status : Status := .running
  streams : Streams
  state : σ

namespace Machine

variable {σ : Type}

def start (settings : MachineSettings) (streams : Streams) (state : σ) :
    Machine settings.cells σ :=
  { tape := .blank settings.cells settings.cells_pos, streams, state }

/-- Why the machine has come to rest, if it has. -/
def halted? {n : Nat} (m : Machine n σ) : Option Halt :=
  match m.status with
  | .halted halt => some halt
  | _ => none

end Machine

end TapeMachine
