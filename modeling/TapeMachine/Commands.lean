import TapeMachine.Machine.Host

/-!
# The built-in commands

The command line answers three calls: `{increment}N` adds to the current cell, `{power}N` raises it
to a power, and `{memory}N` shows the first cells of the tape. All arithmetic wraps. Other calls do
nothing but leave a note.
-/

namespace TapeMachine

open Log

def Cell.power (c : Cell) (exponent : Nat) : Cell :=
  if exponent = 0 then 1
  else
    let rest := Cell.power (c * c) (exponent / 2)
    if exponent % 2 = 1 then c * rest else rest
termination_by exponent
decreasing_by omega

/-- What the built-in commands have to say about a call. -/
inductive CommandNote where
  /-- The cells that were asked for. -/
  | dump (cells : List Cell)
  | unknown (name : String) (argument : Cell)
  deriving DecidableEq, Repr

namespace CommandNote

def dumpText (cells : List Cell) : String :=
  let numbers := " ".intercalate (cells.map fun c => toString c.toInt)
  s!"\nMemory: [{numbers}]\n"

def event (name : String) (argument : Cell) : Event :=
  { level := .warn, phase := .cli, message := "unknown custom instruction"
    fields := [("name", .quoted name), ("arg", .number argument.toInt)] }

/-- What a note shows apart from the log. -/
def shown : CommandNote → String
  | dump cells => dumpText cells
  | unknown .. => ""

/-- What a note logs. -/
def logged : CommandNote → List Event
  | dump _ => []
  | unknown name argument => [event name argument]

end CommandNote

namespace Commands

/-- The largest exponent; larger arguments count as this one, and so do negative ones. -/
def maxExponent : Nat := UInt32.size - 1

def exponent (argument : Cell) : Nat :=
  if 0 ≤ argument.toInt then min argument.toInt.toNat maxExponent else maxExponent

/-- How many of `n` cells are shown: as many as asked for, but all of them if the argument is not
positive. -/
def shownCells (argument : Cell) (n : Nat) : Nat :=
  if 0 < argument.toInt then min argument.toInt.toNat n else n

/-- Answers a call; the state holds the notes, the latest first. -/
def answer {n : Nat} (name : String) (argument : Cell) (head : Fin n) (cells : Vector Cell n)
    (notes : List CommandNote) : Vector Cell n × List CommandNote :=
  if name = "\x7bincrement\x7d" then
    let c := cells[head]
    (cells.set head (c + argument), notes)
  else if name = "\x7bpower\x7d" then
    let c := cells[head]
    (cells.set head (c.power (exponent argument)), notes)
  else if name = "\x7bmemory\x7d" then
    let shown := cells.toList.take (shownCells argument n)
    (cells, .dump shown :: notes)
  else (cells, .unknown name argument :: notes)

/-- The host that knows the built-in commands. -/
def host : Host (List CommandNote) where
  answer := answer
  events notes := notes.reverse.flatMap CommandNote.logged

/-- All that was shown, in the order of the calls. -/
def shownText (notes : List CommandNote) : String :=
  String.join (notes.reverse.map CommandNote.shown)

end Commands

end TapeMachine
