import TapeMachine.Log.Event
import TapeMachine.Machine.Error
import TapeMachine.Program.Assembly

/-!
# Failures and reports

A failure is what keeps a source from being run to a halt. A report gives what is known about a
failure or a diagnostic in fields, for people and for tools.
-/

namespace TapeMachine

/-- Why a source could not be run to a halt. -/
inductive Failure where
  | source (cause : BracketError)
  | runtime (cause : RuntimeError)
  deriving DecidableEq, Repr

structure Report where
  phase : Phase
  line : Option Nat := none
  column : Option Nat := none
  instruction : Option Nat := none
  kind : String
  message : String
  deriving DecidableEq, Repr

namespace Report

def text (r : Report) : String := s!"[{r.phase.name}] {r.kind}: {r.message}"

/-- A diagnostic of a program that could be assembled all the same. -/
def ofArgumentError (e : ArgumentError) : Report where
  phase := .compiler
  line := e.position.line
  column := e.position.column
  kind := "InvalidArgument"
  message := e.message

end Report

namespace Failure

def message : Failure → String
  | source e => s!"Syntax error: {e.message}"
  | runtime e => s!"Runtime error: {e.message}"

def phase : Failure → Phase
  | source _ => .validator
  | runtime _ => .vm

def report (f : Failure) : Report :=
  match f with
  | source e =>
    { phase := f.phase, line := e.position.line, column := e.position.column, kind := e.kind
      message := e.message }
  | runtime e =>
    { phase := f.phase, instruction := e.instruction?, kind := e.kind, message := e.message }

end Failure

end TapeMachine
