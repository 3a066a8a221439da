/-!
# Settings

What a user may choose about compiling and running a program, with the values that hold when
nothing is chosen.
-/

namespace TapeMachine

structure CompilerSettings where
  /-- Whether `{name}digits` is a call; if not, it is comment. -/
  customInstructions : Bool := true
  deriving DecidableEq, Repr

/-- What happens when the head leaves the tape. -/
inductive BoundsPolicy where
  | halt
  | error
  deriving DecidableEq, Repr

/-- The word for a policy in settings. -/
def BoundsPolicy.name : BoundsPolicy → String
  | halt => "halt"
  | error => "error"

def BoundsPolicy.ofName? : String → Option BoundsPolicy
  | "halt" => some halt
  | "error" => some error
  | _ => none

structure MachineSettings where
  /-- The number of cells that is asked for; a tape has one cell at least. -/
  memorySize : Nat := 30000
  bounds : BoundsPolicy := .halt
  /-- The number of instructions after which a run fails, if there is a limit. -/
  maxSteps : Option Nat := none
  deriving DecidableEq, Repr

def MachineSettings.cells (s : MachineSettings) : Nat := max s.memorySize 1

theorem MachineSettings.cells_pos (s : MachineSettings) : 0 < s.cells :=
  Nat.lt_of_lt_of_le Nat.one_pos (Nat.le_max_right ..)

structure RunSettings where
  /-- Whether a listing of the program is logged before the run. -/
  dumpProgram : Bool := false
  compiler : CompilerSettings := {}
  machine : MachineSettings := {}
  deriving DecidableEq, Repr

end TapeMachine
