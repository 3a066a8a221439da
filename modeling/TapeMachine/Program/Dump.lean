import TapeMachine.Json.Basic
import TapeMachine.Program.Basic

/-!
# Programs as JSON

A program is written for tools as an object with its name and its instructions. The fields of each
object are in alphabetical order.
-/

namespace TapeMachine

def Instruction.json (i : Instruction) (index : Nat) : Json :=
  match i with
  | .run _ n => .object [("index", .int index), ("opcode", .string i.kind), ("repeat", .int n)]
  | .loopOpen j | .loopClose j =>
    .object [("index", .int index), ("opcode", .string i.kind), ("target", .int j)]
  | .call name argument =>
    .object [("arg", .int argument.toInt), ("index", .int index), ("name", .string name)
      , ("opcode", .string i.kind)]

def Program.json (p : Program) (name : String) : Json :=
  let instructions := p.instructions.toList.zipIdx.map fun (i, index) => i.json index
  .object [("instructions", .array instructions), ("name", .string name)]

end TapeMachine
