import TapeMachine.Program.Instruction

/-!
# Programs

A program is an array of instructions; the indices that loops hold refer to it.
-/

namespace TapeMachine

structure Program where
  instructions : Array Instruction
  deriving DecidableEq, Repr

namespace Program

def size (p : Program) : Nat := p.instructions.size

/-- A listing for people: a title, then a line for each instruction with its index. All indices are
as wide as the program's size. -/
def listing (p : Program) (title : String) : String :=
  let width := decimalWidth (max p.size 1)
  let lines := p.instructions.toList.zipIdx.map fun (i, index) =>
    padLeft '0' width (toString index) ++ " " ++ i.text ++ "\n"
  s!"== {title} ==\n" ++ String.join lines

end Program

end TapeMachine
