import TapeMachine.Log.Filter

/-!
# Layouts of the log

The compact layout shows an event and nothing else. The other ones also tell when it happened, and
what they look like is not settled here: each of them is a function of the time and the event. All
else that they may show, such as where in the program an event is made, goes with the event.
-/

namespace TapeMachine.Log

/-- The layouts that can be asked for. -/
inductive Format where
  | pretty | compact | json
  deriving DecidableEq, Repr

def Format.ofWord? : String → Option Format
  | "pretty" => some pretty
  | "compact" => some compact
  | "json" => some json
  | _ => none

/-- The layouts that tell the time of an event. -/
structure TimedLayouts (Time : Type) where
  pretty : Time → Event → String
  json : Time → Event → String
  /-- The layout of log files, whatever is asked for. -/
  file : Time → Event → String

/-- The text of an event in the layout that was asked for. -/
def TimedLayouts.text {Time : Type} (layouts : TimedLayouts Time) (time : Time) (e : Event) :
    Format → String
  | .pretty => layouts.pretty time e
  | .compact => e.line
  | .json => layouts.json time e

/-- The plainest way to tell the time: in front of the compact layout. -/
def Event.stamped (time : Nat) (e : Event) : String := s!"{time} {e.line}"

/-- What becomes of the events of a call. -/
structure Settings where
  filter : Filter := {}
  format : Format := .compact
  /-- The file that the log is appended to, besides the standard error. -/
  file : Option String := none
  deriving DecidableEq, Repr

end TapeMachine.Log
