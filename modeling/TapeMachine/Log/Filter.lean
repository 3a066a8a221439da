import TapeMachine.Log.Event

/-!
# Which events are shown

A level holds for all phases; some phases may be given a level of their own. An event is shown if it
is at least as weighty as the level of its phase.
-/

namespace TapeMachine.Log

/-- The chosen levels. The command line itself has no level of its own. -/
structure Filter where
  overall : Level := .warn
  validator : Option Level := none
  compiler : Option Level := none
  vm : Option Level := none
  deriving DecidableEq, Repr

namespace Filter

def level (f : Filter) : Phase → Level
  | .validator => f.validator.getD f.overall
  | .compiler => f.compiler.getD f.overall
  | .vm => f.vm.getD f.overall
  | .cli => f.overall

def shows (f : Filter) (e : Event) : Bool := decide (e.level ≤ f.level e.phase)

end Filter

end TapeMachine.Log
