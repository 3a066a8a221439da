/-!
# Operators

Six characters of a source are operators: they change a cell, move the head, or use the streams.
`Operator.ofSymbol?` reads exactly what `Operator.symbol` writes.
-/

namespace TapeMachine

/-- The operators that are one character each and are counted when repeated. -/
inductive Operator where
  | increment | decrement | moveRight | moveLeft | output | input
  deriving DecidableEq, Repr

namespace Operator

/-- The character that stands for an operator in a source. -/
def symbol : Operator → Char
  | increment => '+'
  | decrement => '-'
  | moveRight => '>'
  | moveLeft => '<'
  | output => '.'
  | input => ','

def ofSymbol? : Char → Option Operator
  | '+' => some increment
  | '-' => some decrement
  | '>' => some moveRight
  | '<' => some moveLeft
  | '.' => some output
  | ',' => some input
  | _ => none

def name : Operator → String
  | increment => "Increment"
  | decrement => "Decrement"
  | moveRight => "MoveRight"
  | moveLeft => "MoveLeft"
  | output => "Output"
  | input => "Input"

@[simp] theorem ofSymbol?_symbol (op : Operator) : ofSymbol? op.symbol = some op := by
  cases op <;> rfl

theorem ofSymbol?_eq_some_iff {c : Char} {op : Operator} :
    ofSymbol? c = some op ↔ c = op.symbol := by
  refine ⟨fun h => ?_, fun h => h ▸ ofSymbol?_symbol op⟩
  unfold ofSymbol? at h
  split at h <;> simp_all [symbol]
  all_goals subst h; rfl

end Operator

end TapeMachine
