import TapeMachine.Machine.Basic

/-!
# One step of a machine

A step carries out the next instruction. A machine that has halted or was aborted answers every
further step in the same way, without change. The end of the program is noticed before the step
limit, and the limit before the instruction is counted.
-/

namespace TapeMachine

/-- The answer to a step: an error, the halt that was reached, or `none` if the run goes on. -/
abbrev StepResult := Except RuntimeError (Option Halt)

namespace Machine

variable {n : Nat} {σ : Type}

def advance (m : Machine n σ) : Machine n σ := { m with next := m.next + 1 }

def write (m : Machine n σ) (c : Cell) : Machine n σ := { m with tape := m.tape.write c }

/-- Gives up because the streams failed at the next instruction. -/
def abort (m : Machine n σ) (cause : StreamError) : StepResult × Machine n σ :=
  (.error (.stream m.next cause), { m with status := .aborted m.next })

/-- Moves the head by `offset` cells. Leaving the tape ends the run behind the instruction; the
policy decides whether that is an error. -/
def moveBy (bounds : BoundsPolicy) (m : Machine n σ) (offset : Int) : StepResult × Machine n σ :=
  let target := m.tape.target offset
  match m.tape.moveTo? target with
  | some tape => (.ok none, { m with tape }.advance)
  | none =>
    let halt := Halt.outOfBounds m.next target
    let result := match bounds with
      | .halt => .ok (some halt)
      | .error => .error (.outOfBounds m.next target n)
    (result, { m with status := .halted halt }.advance)

/-- Writes the low byte of the current cell `count` times. -/
def output (m : Machine n σ) (count : Nat) : StepResult × Machine n σ :=
  match m.streams.writeTimes m.tape.current.toUInt64.toUInt8 count with
  | (none, streams) => (.ok none, { m with streams }.advance)
  | (some fault, streams) => { m with streams }.abort (.ofWrite fault)

/-- Reads `count` bytes, the latest of which stays in the current cell. The output is flushed
first, so that all of it can be seen before the input is waited for. -/
def input (m : Machine n σ) (count : Nat) : StepResult × Machine n σ :=
  match m.streams.flush with
  | (some fault, streams) => { m with streams }.abort (.ofWrite fault)
  | (none, streams) =>
    match streams.readTimes none count with
    | (fault?, latest, streams) =>
      let m := { m with streams }
      let m := match latest with
        | some b => m.write (Int64.ofNat b.toNat)
        | none => m
      match fault? with
      | none => (.ok none, m.advance)
      | some fault => m.abort (.ofRead fault)

/-- Carries out `count` operators of one kind. -/
def operate (bounds : BoundsPolicy) (m : Machine n σ) (op : Operator) (count : Nat) :
    StepResult × Machine n σ :=
  match op with
  | .increment => (.ok none, (m.write (m.tape.current + Int64.ofNat count)).advance)
  | .decrement => (.ok none, (m.write (m.tape.current - Int64.ofNat count)).advance)
  | .moveRight => m.moveBy bounds count
  | .moveLeft => m.moveBy bounds (-count)
  | .output => m.output count
  | .input => m.input count

/-- Carries out an instruction. The start of a loop goes behind the end if the current cell is zero,
and the end of a loop goes behind the start if it is not. -/
def perform (job : Job σ) (m : Machine n σ) : Instruction → StepResult × Machine n σ
  | .run op count => m.operate job.bounds op count
  | .loopOpen close =>
    (.ok none, if m.tape.current = 0 then { m with next := close + 1 } else m.advance)
  | .loopClose opening =>
    (.ok none, if m.tape.current = 0 then m.advance else { m with next := opening + 1 })
  | .call name argument =>
    match m with
    | ⟨next, tape, steps, status, streams, state⟩ =>
      match job.host.call name argument tape state with
      | (tape, state) => (.ok none, ⟨next + 1, tape, steps, status, streams, state⟩)

def limitReached? (job : Job σ) (m : Machine n σ) : Option Nat :=
  job.maxSteps.filter (· ≤ m.steps)

def step (job : Job σ) (m : Machine n σ) : StepResult × Machine n σ :=
  match m.status with
  | .halted halt => (.ok (some halt), m)
  | .aborted i => (.error (.aborted i), m)
  | .running =>
    match job.program.instructions[m.next]? with
    | none => (.ok (some .completed), { m with status := .halted .completed })
    | some instruction =>
      match m.limitReached? job with
      | some limit => (.error (.stepLimitExceeded limit), m)
      | none => { m with steps := m.steps + 1 }.perform job instruction

end Machine

end TapeMachine
