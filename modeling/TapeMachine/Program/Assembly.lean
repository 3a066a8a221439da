import TapeMachine.Source.Brackets
import TapeMachine.Source.Lexeme
import TapeMachine.Program.Basic

/-!
# Assembly

A program is put together lexeme by lexeme. The start of a loop is written before the index of its
end is known; the end, when it comes, fills that index in. An argument too large for a cell does not
stop the assembly: the call gets 0 and a diagnostic is kept.
-/

namespace TapeMachine

/-- The digits behind a call that no cell can hold, with the place of the call. -/
structure ArgumentError where
  name : String
  literal : String
  position : Position
  deriving DecidableEq, Repr

namespace ArgumentError

/-- What is wrong with the digits themselves. -/
def cause : String := "number too large to fit in target type"

def message (e : ArgumentError) : String :=
  s!"[{e.position.text}] argument `{e.literal}` of {e.name} is not a valid integer: {cause}"

end ArgumentError

/-- The largest argument that a call can be given. -/
def maxArgument : Nat := 0x7fffffffffffffff

/-- The argument that a run of digits gives to a call, if it is not too large. No digits give 0. -/
def argument? (digits : List Char) : Option Cell :=
  let value := decimalValue digits
  if value ≤ maxArgument then some (Int64.ofNat value) else none

structure Assembly where
  instructions : Array Instruction := #[]
  /-- The indices of the loops that have no end yet, with the innermost on top. -/
  opened : Stack Nat := []
  /-- The place in the source that has been reached. -/
  position : Position := .start
  diagnostics : Array ArgumentError := #[]
  deriving DecidableEq, Repr

namespace Assembly

def push (a : Assembly) (i : Instruction) : Assembly :=
  { a with instructions := a.instructions.push i }

/-- Starts a loop whose end is not known. -/
def openLoop (a : Assembly) : Assembly :=
  { a.push (.loopOpen 0) with opened := a.opened.push a.instructions.size }

/-- Ends the innermost loop and tells its start about the end. -/
def closeLoop (a : Assembly) : Except BracketError Assembly :=
  match a.opened.pop with
  | (none, _) => .error (.unmatchedClose a.position)
  | (some start, outer) =>
    let close := a.instructions.size
    let patched := a.instructions.setIfInBounds start (.loopOpen close)
    .ok { a with instructions := patched.push (.loopClose start), opened := outer }

/-- Adds a call. -/
def call (a : Assembly) (letters digits : List Char) : Assembly :=
  let name := String.ofList (Lexeme.bracedName letters)
  match argument? digits with
  | some argument => a.push (.call name argument)
  | none =>
    let e : ArgumentError := ⟨name, String.ofList digits, a.position⟩
    { a.push (.call name 0) with diagnostics := a.diagnostics.push e }

/-- Adds what a lexeme stands for at the place that has been reached. -/
def place (a : Assembly) : Lexeme → Except BracketError Assembly
  | .run op n => .ok (a.push (.run op n))
  | .opening => .ok a.openLoop
  | .closing => a.closeLoop
  | .call letters digits => .ok (a.call letters digits)
  | .comment _ => .ok a

/-- Adds what a lexeme stands for and moves behind it. -/
def add (a : Assembly) (l : Lexeme) : Except BracketError Assembly :=
  (a.place l).map fun b => { b with position := b.position.advanceAll l.text }

def addAll (a : Assembly) : List Lexeme → Except BracketError Assembly
  | [] => .ok a
  | l :: ls =>
    match a.add l with
    | .ok b => b.addAll ls
    | .error e => .error e

end Assembly

end TapeMachine
