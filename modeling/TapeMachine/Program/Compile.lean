import TapeMachine.Settings
import TapeMachine.Program.Assembly

/-!
# From source to program

`compile` checks the brackets of a source, cuts it into lexemes and assembles them. It fails only on
brackets; an argument that is too large is reported and replaced by 0.
-/

namespace TapeMachine

/-- A program and what was found wrong with its source on the way. -/
structure Compiled where
  program : Program
  diagnostics : List ArgumentError
  deriving DecidableEq, Repr

def compile (settings : CompilerSettings) (source : String) : Except BracketError Compiled :=
  match checkBrackets source with
  | .error e => .error e
  | .ok () =>
    match Assembly.addAll {} (lexemes settings.customInstructions source.toList) with
    | .error e => .error e
    | .ok a => .ok ⟨⟨a.instructions⟩, a.diagnostics.toList⟩

end TapeMachine
