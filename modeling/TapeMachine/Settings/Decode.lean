import TapeMachine.Json.Basic
import TapeMachine.Settings

/-!
# Settings from JSON

Settings are records; what a record leaves out has its default value.
-/

namespace TapeMachine

/-- A policy is written as its name, or as an object with the name for its only field and nothing in
it. -/
def BoundsPolicy.ofJson? : Json → Option BoundsPolicy
  | .string name => ofName? name
  | .object [(name, .null)] => ofName? name
  | _ => none

def CompilerSettings.ofJson? (j : Json) : Option CompilerSettings := do
  let absent : CompilerSettings := {}
  let fields ← j.record? ["custom_instructions"]
  let customInstructions ←
    Json.field? fields "custom_instructions" Json.bool? absent.customInstructions
  return { customInstructions }

def MachineSettings.ofJson? (j : Json) : Option MachineSettings := do
  let absent : MachineSettings := {}
  let fields ← j.record? ["memory_size", "bounds", "max_steps"]
  let memorySize ← Json.field? fields "memory_size" Json.word? absent.memorySize
  let bounds ← Json.field? fields "bounds" BoundsPolicy.ofJson? absent.bounds
  let maxSteps ← Json.field? fields "max_steps" (Json.optional? Json.word?) absent.maxSteps
  return { memorySize, bounds, maxSteps }

end TapeMachine
