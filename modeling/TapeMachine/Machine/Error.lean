import TapeMachine.Machine.Streams

/-!
# How a run ends

A run halts at the end of its program or, if the settings allow it, when the head leaves the tape.
Otherwise it fails, and the error names the instruction that is to blame where there is one.
-/

namespace TapeMachine

/-- Why a run has come to rest. -/
inductive Halt where
  | completed
  /-- The instruction at index `instruction` would have moved the head to `target`. -/
  | outOfBounds (instruction : Nat) (target : Int)
  deriving DecidableEq, Repr

def Halt.text : Halt → String
  | completed => "Completed"
  | outOfBounds i target => s!"OutOfBounds \x7b instruction: {i}, target: {target} \x7d"

/-- The failure of a stream as the machine reports it. -/
inductive StreamError where
  | read (message : String)
  | unexpectedEof
  | write (message : String)
  deriving DecidableEq, Repr

namespace StreamError

/-- A failed read; the end of the input is told apart from all other failures. -/
def ofRead (fault : Fault) : StreamError :=
  if fault.kind = .unexpectedEof then unexpectedEof else read fault.message

def ofWrite (fault : Fault) : StreamError := write fault.message

def message : StreamError → String
  | read m => s!"failed to read input: {m}"
  | unexpectedEof => "unexpected end of input"
  | write m => s!"failed to write output: {m}"

end StreamError

inductive RuntimeError where
  | stream (instruction : Nat) (cause : StreamError)
  /-- The head was to leave a tape of `cells` cells. -/
  | outOfBounds (instruction : Nat) (target : Int) (cells : Nat)
  | stepLimitExceeded (limit : Nat)
  /-- The streams failed at this instruction before, and the run was given up. -/
  | aborted (instruction : Nat)
  deriving DecidableEq, Repr

namespace RuntimeError

def message : RuntimeError → String
  | stream i cause => s!"at instruction {i}: {cause.message}"
  | outOfBounds i target cells =>
    s!"at instruction {i}: data pointer moved to {target}, outside the tape of {cells} cells"
  | stepLimitExceeded limit => s!"step limit of {limit} exceeded"
  | aborted i => s!"execution was aborted by a stream error at instruction {i}"

/-- The name of the kind of error, as reports give it. -/
def kind : RuntimeError → String
  | stream _ .unexpectedEof => "UnexpectedEof"
  | stream _ (.read _) => "ReadFailed"
  | stream _ (.write _) => "WriteFailed"
  | outOfBounds .. => "OutOfBounds"
  | stepLimitExceeded _ => "StepLimitExceeded"
  | aborted _ => "Aborted"

def instruction? : RuntimeError → Option Nat
  | stream i _ | outOfBounds i _ _ | aborted i => some i
  | stepLimitExceeded _ => none

end RuntimeError

end TapeMachine
