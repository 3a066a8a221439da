/-!
# Stacks

A stack is a list whose first element is the top.
-/

namespace TapeMachine

abbrev Stack (α : Type) := List α

namespace Stack

variable {α : Type}

def push (s : Stack α) (a : α) : Stack α := a :: s

/-- The top, if the stack is not empty, and the stack without it. -/
def pop (s : Stack α) : Option α × Stack α := (s.head?, s.tail)

def peek? (s : Stack α) : Option α := s.head?

@[simp] theorem pop_push (s : Stack α) (a : α) : (s.push a).pop = (some a, s) := rfl

@[simp] theorem pop_nil : pop ([] : Stack α) = (none, []) := rfl

@[simp] theorem peek?_push (s : Stack α) (a : α) : (s.push a).peek? = some a := rfl

@[simp] theorem length_push (s : Stack α) (a : α) : (s.push a).length = s.length + 1 := rfl

end Stack

end TapeMachine
