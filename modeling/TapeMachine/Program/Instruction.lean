import TapeMachine.Decimal
import TapeMachine.Source.Operator

/-!
# Instructions

A block of equal operators is one counted instruction. Loops know the index of their partner, and a
call asks the host to act.
-/

namespace TapeMachine

/-- The value of one cell of the tape: 64 bits in two's complement, whose arithmetic wraps. -/
abbrev Cell := Int64

/-- A cell that is not negative is given by its number. -/
theorem Cell.ofNat_toNat_of_nonneg {c : Cell} (h : 0 ≤ c.toInt) :
    Int64.ofNat c.toInt.toNat = c := by
  rw [← Int64.ofInt_eq_ofNat, Int.toNat_of_nonneg h, Int64.ofInt_toInt]

inductive Instruction where
  /-- A block of `count` equal operators. -/
  | run (op : Operator) (count : Nat)
  /-- The start of a loop; `close` is the index of its end. -/
  | loopOpen (close : Nat)
  /-- The end of a loop; `opening` is the index of its start. -/
  | loopClose (opening : Nat)
  /-- A call to the host, with the braces in its name. -/
  | call (name : String) (argument : Cell)
  deriving DecidableEq, Repr

namespace Instruction

def kind : Instruction → String
  | run op _ => op.name
  | loopOpen _ => "LoopOpen"
  | loopClose _ => "LoopClose"
  | call .. => "Custom"

/-- The character that the instruction's text in a source starts with. -/
def symbol : Instruction → Char
  | run op _ => op.symbol
  | loopOpen _ => '['
  | loopClose _ => ']'
  | call .. => '\x7b'

/-- How many operators of the source the instruction stands for. -/
def count : Instruction → Nat
  | run _ n => n
  | _ => 1

/-- The index of a loop's partner, and 0 for all other instructions. -/
def partner : Instruction → Nat
  | loopOpen i | loopClose i => i
  | _ => 0

def callName? : Instruction → Option String
  | call name _ => some name
  | _ => none

def callArgument? : Instruction → Option Cell
  | call _ argument => some argument
  | _ => none

/-- One line of a listing: the kind in a field ten wide, then the operands. -/
def text (i : Instruction) : String :=
  let operands := match i with
    | run _ n => s!"x{n}"
    | loopOpen j | loopClose j => s!"-> {j}"
    | call name argument => s!"{name} {argument.toInt}"
  padRight 10 i.kind ++ " " ++ operands

end Instruction

end TapeMachine
