import TapeMachine.Decimal

/-!
# Log events

What happens on the way from a source to the end of its run is told by events. Each has a level, the
phase of the work it comes from, a message and named values. `Event.line` is the compact layout of
an event as one line of text.
-/

namespace TapeMachine

inductive Phase where
  | validator | compiler | vm | cli
  deriving DecidableEq, Repr

namespace Phase

def name : Phase → String
  | validator => "validator"
  | compiler => "compiler"
  | vm => "vm"
  | cli => "cli"

/-- The name under which a phase writes to the log. -/
def target (p : Phase) : String := "tapevm::" ++ p.name

end Phase

/-- How much an event matters, the weightiest first. -/
inductive Level where
  | error | warn | info | debug | trace
  deriving DecidableEq, Repr

namespace Level

def rank : Level → Nat
  | error => 0
  | warn => 1
  | info => 2
  | debug => 3
  | trace => 4

instance : LE Level := ⟨fun a b => a.rank ≤ b.rank⟩

instance (a b : Level) : Decidable (a ≤ b) := inferInstanceAs (Decidable (a.rank ≤ b.rank))

def name : Level → String
  | error => "ERROR"
  | warn => "WARN"
  | info => "INFO"
  | debug => "DEBUG"
  | trace => "TRACE"

/-- Reads a level as users write it, in small or capital letters. Being silent still lets errors
through. Every word in question is ASCII, and no other character has an ASCII letter of these words
as its small form, so changing the ASCII capitals is enough. -/
def ofWord? (word : String) : Option Level :=
  match String.ofList (word.toList.map Char.toLower) with
  | "silent" | "error" => some error
  | "warn" => some warn
  | "info" => some info
  | "debug" => some debug
  | "trace" => some trace
  | _ => none

end Level

namespace Log

inductive Value where
  | number (n : Int)
  | quoted (s : String)
  | plain (s : String)
  deriving DecidableEq, Repr

/-- A text in double quotes; quotes and backslashes inside are escaped. The texts that events quote
are names of calls, which hold letters and braces only. -/
def quote (s : String) : String :=
  let escape (c : Char) : List Char := if c = '"' ∨ c = '\\' then ['\\', c] else [c]
  "\"" ++ String.ofList (s.toList.flatMap escape) ++ "\""

def Value.text : Value → String
  | number n => toString n
  | quoted s => quote s
  | plain s => s

structure Event where
  level : Level
  phase : Phase
  message : String
  fields : List (String × Value) := []
  deriving DecidableEq, Repr

/-- The compact layout: the level in a field five wide, the target, the message, the fields. -/
def Event.line (e : Event) : String :=
  let fields := e.fields.map fun (name, value) => s!" {name}={value.text}"
  padLeft ' ' 5 e.level.name ++ " " ++ e.phase.target ++ ": " ++ e.message ++ String.join fields
    ++ "\n"

end Log

end TapeMachine
