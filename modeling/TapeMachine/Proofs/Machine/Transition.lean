import TapeMachine.Machine.Execute

/-!
# What a step can do

Every step of a machine comes to one of seven things, and `Transition` lists them with what they
leave of the machine. Facts about runs are proved by cases on it (`transition_step`), and no
proof needs to open `Machine.step` again to know how a run goes on or ends.
-/

namespace TapeMachine

/-- By how many cells a block of operators would move the head, if it moves it. -/
def Operator.offset? (op : Operator) (count : Nat) : Option Int :=
  match op with
  | .moveRight => some count
  | .moveLeft => some (-count)
  | _ => none

namespace Machine

variable {n : Nat} {σ : Type} {job : Job σ} {m m' : Machine n σ}

/-- The index of the instruction that follows if `i` is carried out and the run goes on. -/
def successor (m : Machine n σ) (i : Instruction) : Nat :=
  match i with
  | .loopOpen close => if m.tape.current = 0 then close + 1 else m.next + 1
  | .loopClose opening => if m.tape.current = 0 then m.next + 1 else opening + 1
  | _ => m.next + 1

/-- What a step can answer and leave behind. -/
inductive Transition (job : Job σ) (m : Machine n σ) : StepResult → Machine n σ → Prop
  | halted {halt : Halt} (rest : m.status = .halted halt) : Transition job m (.ok (some halt)) m
  | aborted {i : Nat} (rest : m.status = .aborted i) : Transition job m (.error (.aborted i)) m
  | completes (running : m.status = .running) (last : job.program.instructions[m.next]? = none) :
      Transition job m (.ok (some .completed)) { m with status := .halted .completed }
  | exceeds {i : Instruction} {limit : Nat} (running : m.status = .running)
      (here : job.program.instructions[m.next]? = some i)
      (reached : m.limitReached? job = some limit) :
      Transition job m (.error (.stepLimitExceeded limit)) m
  | goesOn {i : Instruction} {m' : Machine n σ} (running : m.status = .running)
      (here : job.program.instructions[m.next]? = some i) (allowed : m.limitReached? job = none)
      (next : m'.next = m.successor i) (steps : m'.steps = m.steps + 1)
      (status : m'.status = .running) : Transition job m (.ok none) m'
  /-- The head was to leave the tape and stays where it is. -/
  | leaves {op : Operator} {count : Nat} {offset : Int} {result : StepResult}
      (running : m.status = .running)
      (here : job.program.instructions[m.next]? = some (.run op count))
      (allowed : m.limitReached? job = none) (move : op.offset? count = some offset)
      (off : m.tape.moveTo? (m.tape.target offset) = none)
      (answer : result = match job.bounds with
        | .halt => .ok (some (.outOfBounds m.next (m.tape.target offset)))
        | .error => .error (.outOfBounds m.next (m.tape.target offset) n)) :
      Transition job m result
        { m with
          next := m.next + 1
          steps := m.steps + 1
          status := .halted (.outOfBounds m.next (m.tape.target offset)) }
  /-- A stream failed at an operator that uses it; output can only fail to be written. -/
  | fails {op : Operator} {count : Nat} {cause : StreamError} {m' : Machine n σ}
      (running : m.status = .running)
      (here : job.program.instructions[m.next]? = some (.run op count))
      (allowed : m.limitReached? job = none)
      (uses : op = .input ∨ op = .output ∧ ∃ message, cause = .write message)
      (next : m'.next = m.next) (steps : m'.steps = m.steps + 1)
      (status : m'.status = .aborted m.next) :
      Transition job m (.error (.stream m.next cause)) m'

/-! ## The steps of a machine that is at rest -/

theorem step_of_halted {halt : Halt} (h : m.status = .halted halt) :
    m.step job = (.ok (some halt), m) := by
  unfold step
  rw [h]

theorem step_of_aborted {i : Nat} (h : m.status = .aborted i) :
    m.step job = (.error (.aborted i), m) := by
  unfold step
  rw [h]

/-! ## The steps of a machine that is running -/

theorem step_of_end (h : m.status = .running) (last : job.program.instructions[m.next]? = none) :
    m.step job = (.ok (some .completed), { m with status := .halted .completed }) := by
  unfold step
  rw [h]
  simp only [last]

theorem step_of_limit (h : m.status = .running) {i : Instruction}
    (here : job.program.instructions[m.next]? = some i) {limit : Nat}
    (reached : m.limitReached? job = some limit) :
    m.step job = (.error (.stepLimitExceeded limit), m) := by
  unfold step
  rw [h]
  simp only [here, reached]

theorem step_of_instruction (h : m.status = .running) {i : Instruction}
    (here : job.program.instructions[m.next]? = some i) (allowed : m.limitReached? job = none) :
    m.step job = { m with steps := m.steps + 1 }.perform job i := by
  unfold step
  rw [h]
  simp only [here, allowed]

theorem moveBy_of_moveTo? {offset : Int} {tape : Tape n}
    (inside : m.tape.moveTo? (m.tape.target offset) = some tape) (bounds : BoundsPolicy) :
    m.moveBy bounds offset = (.ok none, { m with tape }.advance) := by
  simp only [moveBy, inside]

theorem moveBy_of_off {offset : Int} (off : m.tape.moveTo? (m.tape.target offset) = none)
    (bounds : BoundsPolicy) :
    m.moveBy bounds offset =
      (match bounds with
        | .halt => .ok (some (.outOfBounds m.next (m.tape.target offset)))
        | .error => .error (.outOfBounds m.next (m.tape.target offset) n),
      { m with status := .halted (.outOfBounds m.next (m.tape.target offset)) }.advance) := by
  cases bounds with
  | halt => simp only [moveBy, off]
  | error => simp only [moveBy, off]

theorem transition_moveBy (running : m.status = .running) {op : Operator} {count : Nat}
    (here : job.program.instructions[m.next]? = some (.run op count))
    (allowed : m.limitReached? job = none) {offset : Int} (move : op.offset? count = some offset) :
    Transition job m ({ m with steps := m.steps + 1 }.moveBy job.bounds offset).1
      ({ m with steps := m.steps + 1 }.moveBy job.bounds offset).2 := by
  cases inside : m.tape.moveTo? (m.tape.target offset) with
  | some tape =>
    rw [moveBy_of_moveTo? (m := { m with steps := m.steps + 1 }) inside]
    exact .goesOn running here allowed rfl rfl running
  | none =>
    rw [moveBy_of_off (m := { m with steps := m.steps + 1 }) inside]
    exact .leaves running here allowed move inside rfl

theorem transition_output (running : m.status = .running) {count : Nat}
    (here : job.program.instructions[m.next]? = some (.run .output count))
    (allowed : m.limitReached? job = none) :
    Transition job m ({ m with steps := m.steps + 1 }.output count).1
      ({ m with steps := m.steps + 1 }.output count).2 := by
  unfold output
  rcases hwrite : m.streams.writeTimes m.tape.current.toUInt64.toUInt8 count with
    ⟨_ | fault, streams⟩
  · simp only
    exact .goesOn running here allowed rfl rfl running
  · simp only
    exact .fails running here allowed (.inr ⟨rfl, _, rfl⟩) rfl rfl rfl

theorem transition_input (running : m.status = .running) {count : Nat}
    (here : job.program.instructions[m.next]? = some (.run .input count))
    (allowed : m.limitReached? job = none) :
    Transition job m ({ m with steps := m.steps + 1 }.input count).1
      ({ m with steps := m.steps + 1 }.input count).2 := by
  unfold input
  rcases hflush : m.streams.flush with ⟨_ | fault, streams⟩
  · simp only
    rcases hread : streams.readTimes none count with ⟨_ | fault, latest, streams'⟩
    · simp only
      cases latest <;> exact .goesOn running here allowed rfl rfl running
    · simp only
      cases latest <;> exact .fails running here allowed (.inl rfl) rfl rfl rfl
  · simp only
    exact .fails running here allowed (.inl rfl) rfl rfl rfl

/-- Every step is one of the transitions. -/
theorem transition_step (job : Job σ) (m : Machine n σ) :
    Transition job m (m.step job).1 (m.step job).2 := by
  cases hstatus : m.status with
  | halted halt =>
    rw [step_of_halted hstatus]
    exact .halted hstatus
  | aborted i =>
    rw [step_of_aborted hstatus]
    exact .aborted hstatus
  | running =>
    cases here : job.program.instructions[m.next]? with
    | none =>
      rw [step_of_end hstatus here]
      exact .completes hstatus here
    | some i =>
      cases allowed : m.limitReached? job with
      | some limit =>
        rw [step_of_limit hstatus here allowed]
        exact .exceeds hstatus here allowed
      | none =>
        rw [step_of_instruction hstatus here allowed]
        cases i with
        | run op count =>
          cases op with
          | increment => exact .goesOn hstatus here allowed rfl rfl hstatus
          | decrement => exact .goesOn hstatus here allowed rfl rfl hstatus
          | moveRight => exact transition_moveBy hstatus here allowed rfl
          | moveLeft => exact transition_moveBy hstatus here allowed rfl
          | output => exact transition_output hstatus here allowed
          | input => exact transition_input hstatus here allowed
        | loopOpen close =>
          by_cases hzero : m.tape.current = 0 <;>
            exact .goesOn hstatus here allowed (by simp [perform, successor, advance, hzero])
              (by simp [perform, advance, hzero]) (by simpa [perform, advance, hzero] using hstatus)
        | loopClose opening =>
          by_cases hzero : m.tape.current = 0 <;>
            exact .goesOn hstatus here allowed (by simp [perform, successor, advance, hzero])
              (by simp [perform, advance, hzero]) (by simpa [perform, advance, hzero] using hstatus)
        | call name argument => exact .goesOn hstatus here allowed rfl rfl hstatus

/-! ## What follows from the answer -/

theorem Transition.status_of_halt {halt : Halt} (h : Transition job m (.ok (some halt)) m') :
    m'.status = .halted halt := by
  cases h with
  | halted rest => exact rest
  | completes => rfl
  | leaves _ _ _ _ _ answer =>
    cases hbounds : job.bounds with
    | halt =>
      simp only [hbounds, Except.ok.injEq, Option.some.injEq] at answer
      rw [answer]
    | error => simp [hbounds] at answer

theorem Transition.status_of_stream_error {i : Nat} {cause : StreamError}
    (h : Transition job m (.error (.stream i cause)) m') : m'.status = .aborted i := by
  cases h with
  | leaves _ _ _ _ _ answer => cases hbounds : job.bounds <;> simp [hbounds] at answer
  | fails _ _ _ _ _ _ status => exact status

/-- A step stays at its instruction, or carries it out. -/
theorem next_step_cases (job : Job σ) (m : Machine n σ) :
    (m.step job).2.next = m.next ∨
      ∃ x, m.status = .running ∧ job.program.instructions[m.next]? = some x ∧
        m.limitReached? job = none ∧ (m.step job).2.next = m.successor x := by
  have ht := transition_step job m
  generalize (m.step job).1 = answer, (m.step job).2 = m' at ht ⊢
  cases ht with
  | halted => exact .inl rfl
  | aborted => exact .inl rfl
  | completes => exact .inl rfl
  | exceeds => exact .inl rfl
  | goesOn running here allowed next => exact .inr ⟨_, running, here, allowed, next⟩
  | leaves running here allowed => exact .inr ⟨_, running, here, allowed, rfl⟩
  | fails _ _ _ _ next => exact .inl next

theorem limitReached?_eq_none (nolimit : job.maxSteps = none) (m : Machine n σ) :
    m.limitReached? job = none := by
  rw [limitReached?, nolimit]
  rfl

theorem lt_of_limitReached?_eq_none (h : m.limitReached? job = none) {limit : Nat}
    (hlimit : job.maxSteps = some limit) : m.steps < limit := by
  unfold limitReached? at h
  rw [hlimit] at h
  simpa using h

end Machine

end TapeMachine
