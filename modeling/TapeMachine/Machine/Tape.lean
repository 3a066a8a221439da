import TapeMachine.Program.Instruction

/-!
# The tape

A tape is a row of cells with a head on one of them. The number of cells is part of the type and the
head is an index below it, so no operation can lose the head or change the length.
-/

namespace TapeMachine

structure Tape (n : Nat) where
  cells : Vector Cell n
  head : Fin n
  deriving DecidableEq

namespace Tape

variable {n : Nat}

/-- A tape of zeros with the head on the first cell. -/
def blank (n : Nat) (h : 0 < n) : Tape n := ⟨Vector.replicate n 0, ⟨0, h⟩⟩

def current (t : Tape n) : Cell := t.cells[t.head]

def write (t : Tape n) (c : Cell) : Tape n := { t with cells := t.cells.set t.head c }

/-- Puts the head on a cell, if there is one with that index. -/
def moveTo? (t : Tape n) (target : Int) : Option (Tape n) :=
  if h : 0 ≤ target ∧ target.toNat < n then some { t with head := ⟨target.toNat, h.2⟩ } else none

/-- Where the head would be after a move by `offset` cells. The result is kept within the signed
64-bit numbers: a move past either end of them goes to that end. -/
def target (t : Tape n) (offset : Int) : Int :=
  max Int64.minValue.toInt (min Int64.maxValue.toInt (t.head + offset))

@[simp] theorem current_write (t : Tape n) (c : Cell) : (t.write c).current = c := by
  simp [current, write]

@[simp] theorem head_write (t : Tape n) (c : Cell) : (t.write c).head = t.head := rfl

@[simp] theorem current_blank (h : 0 < n) : (blank n h).current = 0 := by
  simp [current, blank]

end Tape

end TapeMachine
