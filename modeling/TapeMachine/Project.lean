import TapeMachine.Json.Reader
import TapeMachine.Log.Filter
import TapeMachine.Path
import TapeMachine.Settings.Decode

/-!
# Project files

A project file is a JSON text that names a source and holds the settings under which it is run.
-/

namespace TapeMachine

/-- Levels of single phases, in the words of the user. -/
structure PhaseLevels where
  validator : Option String := none
  compiler : Option String := none
  vm : Option String := none
  deriving DecidableEq, Repr

structure Project where
  /-- The path of the source, seen from the directory of the project file. -/
  entry : Option String := none
  compiler : CompilerSettings := {}
  machine : MachineSettings := {}
  logLevel : Option String := none
  logPhases : PhaseLevels := {}
  deriving DecidableEq, Repr

def PhaseLevels.ofJson? (j : Json) : Option PhaseLevels := do
  let fields ← j.record? ["validator", "compiler", "vm"]
  let word name := Json.field? fields name (Json.optional? Json.string?) none
  return { validator := ← word "validator", compiler := ← word "compiler", vm := ← word "vm" }

namespace Project

def ofJson? (j : Json) : Option Project := do
  let fields ← j.record? ["entry", "compiler", "machine", "log_level", "log_phases"]
  let entry ← Json.field? fields "entry" (Json.optional? Json.string?) none
  let compiler ← Json.field? fields "compiler" CompilerSettings.ofJson? {}
  let machine ← Json.field? fields "machine" MachineSettings.ofJson? {}
  let logLevel ← Json.field? fields "log_level" (Json.optional? Json.string?) none
  let logPhases ← Json.field? fields "log_phases" PhaseLevels.ofJson? {}
  return { entry, compiler, machine, logLevel, logPhases }

def parse? (text : String) : Option Project := do ofJson? (← Json.parse? text)

/-- The path of the source, if the project names one, for a project file at `path`. -/
def entryPath? (p : Project) (path : String) : Option String :=
  (p.entry.filter (· ≠ "")).map (Path.join ((Path.parent? path).getD "."))

/-- The levels that the project chooses. Words that are no level are passed over. -/
def logFilter (p : Project) : Log.Filter where
  overall := (p.logLevel.bind Level.ofWord?).getD .warn
  validator := p.logPhases.validator.bind Level.ofWord?
  compiler := p.logPhases.compiler.bind Level.ofWord?
  vm := p.logPhases.vm.bind Level.ofWord?

end Project

end TapeMachine
