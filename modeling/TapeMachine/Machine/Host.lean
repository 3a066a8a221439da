import TapeMachine.Log.Event
import TapeMachine.Machine.Tape

/-!
# Hosts

A program can call its host by name. The host keeps a state of its own from call to call, sees the
head, and may change any cell; the type of `answer` leaves it no way to move the head or to change
the length of the tape.
-/

namespace TapeMachine

/-- Who answers the calls of a program, with states of type `σ`. -/
structure Host (σ : Type) where
  /-- The cells and the state after the call of `name` with an argument. -/
  answer : {n : Nat} → (name : String) → (argument : Cell) → (head : Fin n) → Vector Cell n → σ →
    Vector Cell n × σ
  /-- What the host has logged on the way to a state. -/
  events : σ → List Log.Event := fun _ => []

namespace Host

/-- The host that answers no call: nothing happens. -/
def silent : Host Unit := { answer := fun _ _ _ cells state => (cells, state) }

variable {σ : Type}

def call {n : Nat} (host : Host σ) (name : String) (argument : Cell) (t : Tape n) (state : σ) :
    Tape n × σ :=
  match t with
  | ⟨cells, head⟩ =>
    match host.answer name argument head cells state with
    | (cells, state) => (⟨cells, head⟩, state)

@[simp] theorem head_call {n : Nat} (host : Host σ) (name : String) (argument : Cell) (t : Tape n)
    (state : σ) : (host.call name argument t state).1.head = t.head := rfl

@[simp] theorem call_silent {n : Nat} (name : String) (argument : Cell) (t : Tape n)
    (state : Unit) : silent.call name argument t state = (t, ()) := rfl

end Host

end TapeMachine
