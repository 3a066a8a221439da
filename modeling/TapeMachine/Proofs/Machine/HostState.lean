import TapeMachine.Proofs.Machine.Steps

/-!
# What a host keeps to itself

A run sees of its host only what calls do to the cells. Operators and loops do not touch the host's
state (`operate_withState`), so a host can be replaced by one that keeps less, if that one does the
same to the cells: all steps and runs are the same but for what the hosts keep (`step_mapState`,
`execute_mapState`).
-/

namespace TapeMachine

/-- The second host does to the cells what the first does, and keeps what `f` leaves of the state of
the first. -/
def Host.Keeps {σ τ : Type} (host : Host σ) (host' : Host τ) (f : σ → τ) : Prop :=
  ∀ {n : Nat} (name : String) (argument : Cell) (t : Tape n) (state : σ),
    host'.call name argument t (f state) =
      ((host.call name argument t state).1, f (host.call name argument t state).2)

/-- The job with another host. -/
def Job.withHost {σ τ : Type} (job : Job σ) (host : Host τ) : Job τ :=
  { program := job.program, bounds := job.bounds, maxSteps := job.maxSteps, host }

namespace Machine

variable {n : Nat} {σ τ : Type} {m : Machine n σ} {s : τ}

/-- The machine with another state of the host. -/
def withState (m : Machine n σ) (s : τ) : Machine n τ :=
  { next := m.next, tape := m.tape, steps := m.steps, status := m.status, streams := m.streams
    state := s }

/-! ## Instructions that are no calls -/

theorem moveBy_withState (bounds : BoundsPolicy) (offset : Int) :
    (m.withState s).moveBy bounds offset =
      ((m.moveBy bounds offset).1, (m.moveBy bounds offset).2.withState s) := by
  simp only [moveBy, withState]
  cases m.tape.moveTo? (m.tape.target offset) <;> rfl

theorem output_withState (count : Nat) :
    (m.withState s).output count = ((m.output count).1, (m.output count).2.withState s) := by
  simp only [output, withState]
  rcases m.streams.writeTimes m.tape.current.toUInt64.toUInt8 count with ⟨_ | fault, streams⟩ <;>
    rfl

theorem input_withState (count : Nat) :
    (m.withState s).input count = ((m.input count).1, (m.input count).2.withState s) := by
  simp only [input, withState]
  rcases m.streams.flush with ⟨_ | fault, streams⟩
  · dsimp only
    rcases streams.readTimes none count with ⟨_ | fault, _ | latest, streams⟩ <;> rfl
  · rfl

/-- Operators neither use nor change the state of the host. -/
theorem operate_withState (bounds : BoundsPolicy) (op : Operator) (count : Nat) :
    (m.withState s).operate bounds op count =
      ((m.operate bounds op count).1, (m.operate bounds op count).2.withState s) := by
  cases op with
  | increment => rfl
  | decrement => rfl
  | moveRight => exact moveBy_withState bounds count
  | moveLeft => exact moveBy_withState bounds (-count)
  | output => exact output_withState count
  | input => exact input_withState count

theorem state_operate (m : Machine n σ) (bounds : BoundsPolicy) (op : Operator) (count : Nat) :
    (m.operate bounds op count).2.state = m.state := by
  have hsame := operate_withState (m := m) (s := m.state) bounds op count
  exact congrArg (fun a : StepResult × Machine n σ => a.2.state) hsame

/-! ## Steps and runs -/

/-- The machine with what `f` leaves of the host's state. -/
def mapState (f : σ → τ) (m : Machine n σ) : Machine n τ := m.withState (f m.state)

section

variable {job : Job σ} {host : Host τ} {f : σ → τ} (keeps : job.host.Keeps host f)

include keeps

theorem perform_mapState (x : Instruction) :
    (m.mapState f).perform (job.withHost host) x =
      ((m.perform job x).1, (m.perform job x).2.mapState f) := by
  cases x with
  | run op count =>
    simp only [perform, mapState, Job.withHost, operate_withState, state_operate]
  | loopOpen close =>
    by_cases hzero : m.tape.current = 0 <;> simp [perform, mapState, withState, advance, hzero]
  | loopClose opening =>
    by_cases hzero : m.tape.current = 0 <;> simp [perform, mapState, withState, advance, hzero]
  | call name argument =>
    simp only [perform, mapState, withState, Job.withHost, keeps name argument]

/-- A host that keeps less makes no difference to a step. -/
theorem step_mapState (m : Machine n σ) :
    (m.mapState f).step (job.withHost host) = ((m.step job).1, (m.step job).2.mapState f) := by
  cases hstatus : m.status with
  | halted halt =>
    have hother : (m.mapState f).status = .halted halt := hstatus
    rw [step_of_halted hstatus, step_of_halted hother]
  | aborted i =>
    have hother : (m.mapState f).status = .aborted i := hstatus
    rw [step_of_aborted hstatus, step_of_aborted hother]
  | running =>
    have hother : (m.mapState f).status = .running := hstatus
    cases here : job.program.instructions[m.next]? with
    | none =>
      have hthere : (job.withHost host).program.instructions[(m.mapState f).next]? = none := here
      rw [step_of_end hstatus here, step_of_end hother hthere]
      rfl
    | some x =>
      have hthere : (job.withHost host).program.instructions[(m.mapState f).next]? = some x := here
      cases allowed : m.limitReached? job with
      | some limit =>
        have hreached : (m.mapState f).limitReached? (job.withHost host) = some limit := allowed
        rw [step_of_limit hstatus here allowed, step_of_limit hother hthere hreached]
      | none =>
        have hallowed : (m.mapState f).limitReached? (job.withHost host) = none := allowed
        rw [step_of_instruction hstatus here allowed, step_of_instruction hother hthere hallowed]
        exact perform_mapState (m := { m with steps := m.steps + 1 }) keeps x

theorem Steps.mapState {k : Nat} {m' : Machine n σ} (h : Steps job k m m') :
    Steps (job.withHost host) k (m.mapState f) (m'.mapState f) := by
  induction h with
  | nil => exact .nil
  | cons step _ ih => exact .cons (by rw [step_mapState keeps, step]) ih

theorem Steps.of_mapState {k : Nat} {m' : Machine n τ}
    (h : Steps (job.withHost host) k (m.mapState f) m') :
    ∃ m₁, Steps job k m m₁ ∧ m' = m₁.mapState f := by
  generalize hm : m.mapState f = start at h
  induction h generalizing m with
  | nil => exact ⟨m, .nil, hm.symm⟩
  | @cons k _ m₂ _ step _ ih =>
    subst hm
    rw [step_mapState keeps] at step
    obtain ⟨hanswer, rfl⟩ := Prod.mk.inj step
    obtain ⟨m₁, hsteps, rfl⟩ := ih rfl
    exact ⟨m₁, .cons (Prod.ext hanswer rfl) hsteps, rfl⟩

theorem execute_mapState (fuel : Nat) (m : Machine n σ) :
    (m.mapState f).execute (job.withHost host) fuel =
      (m.execute job fuel).map fun x => (x.1, x.2.mapState f) := by
  induction fuel generalizing m with
  | zero => rfl
  | succ fuel ih =>
    rw [execute, execute, step_mapState keeps]
    rcases m.step job with ⟨error | _ | halt, m₁⟩
    · rfl
    · exact ih m₁
    · simp only [finish, mapState, withState, Option.map_some]
      rcases m₁.streams.flush with ⟨_ | fault, streams⟩ <;> rfl

end

end Machine

end TapeMachine
