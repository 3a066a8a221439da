import TapeMachine.Proofs.Machine.Transition

/-!
# What a step asks of the streams

A step uses the streams in one place: an operator for output or input asks them for something, and
all other steps leave them alone (`Demand`). The rest of the step depends on nothing of the streams
but their answer (`Supply`). So two machines that differ only in their streams take the same step if
the streams answer alike (`step_withStreams`), and what two runs on different streams have in common
can be read off the streams.
-/

namespace TapeMachine

/-- What a step asks of the streams. -/
inductive Demand where
  | nothing
  /-- To take a byte `count` times. -/
  | write (byte : UInt8) (count : Nat)
  /-- To show what was written, and then to give `count` bytes. -/
  | read (count : Nat)
  deriving DecidableEq, Repr

/-- What the streams answer: how they failed, if they did, and the latest of the bytes they gave. -/
structure Supply where
  failure? : Option StreamError := none
  latest? : Option UInt8 := none
  deriving DecidableEq, Repr

def Streams.serve (s : Streams) : Demand → Supply × Streams
  | .nothing => ({}, s)
  | .write b count =>
    match s.writeTimes b count with
    | (fault?, s) => ({ failure? := fault?.map .ofWrite }, s)
  | .read count =>
    match s.flush with
    | (some fault, s) => ({ failure? := some (.ofWrite fault) }, s)
    | (none, s) =>
      match s.readTimes none count with
      | (fault?, latest?, s) => ({ failure? := fault?.map .ofRead, latest? }, s)

namespace Streams

variable {s s₁ : Streams} {count : Nat}

theorem serve_write (s : Streams) (b : UInt8) (count : Nat) :
    s.serve (.write b count) =
      ({ failure? := (s.writeTimes b count).1.map .ofWrite }, (s.writeTimes b count).2) := rfl

theorem serve_read_of_flush (h : s.flush = (none, s₁)) :
    s.serve (.read count) =
      ({ failure? := (s₁.readTimes none count).1.map .ofRead
         latest? := (s₁.readTimes none count).2.1 }, (s₁.readTimes none count).2.2) := by
  unfold serve
  rw [h]

theorem serve_read_of_failed_flush {fault : Fault} (h : s.flush = (some fault, s₁)) :
    s.serve (.read count) = ({ failure? := some (.ofWrite fault) }, s₁) := by
  unfold serve
  rw [h]

end Streams

namespace Machine

variable {n : Nat} {σ : Type} {job : Job σ} {m : Machine n σ}

/-- The machine on other streams. -/
def withStreams (m : Machine n σ) (t : Streams) : Machine n σ := { m with streams := t }

/-- What the next step asks of the streams. -/
def demand (job : Job σ) (m : Machine n σ) : Demand :=
  match m.status, job.program.instructions[m.next]?, m.limitReached? job with
  | .running, some (.run .output count), none => .write m.tape.current.toUInt64.toUInt8 count
  | .running, some (.run .input count), none => .read count
  | _, _, _ => .nothing

/-- The step of an operator whose demand was met with `supply`, by streams that are now `streams`.
-/
def settle (m : Machine n σ) (supply : Supply) (streams : Streams) : StepResult × Machine n σ :=
  let m := { m with streams }
  let m := match supply.latest? with
    | some b => m.write (Int64.ofNat b.toNat)
    | none => m
  match supply.failure? with
  | none => (.ok none, m.advance)
  | some cause => m.abort cause

theorem output_eq_settle (m : Machine n σ) (count : Nat) :
    m.output count =
      m.settle (m.streams.serve (.write m.tape.current.toUInt64.toUInt8 count)).1
        (m.streams.serve (.write m.tape.current.toUInt64.toUInt8 count)).2 := by
  rw [Streams.serve_write, output]
  rcases m.streams.writeTimes m.tape.current.toUInt64.toUInt8 count with ⟨_ | fault, streams⟩ <;>
    rfl

theorem input_eq_settle (m : Machine n σ) (count : Nat) :
    m.input count =
      m.settle (m.streams.serve (.read count)).1 (m.streams.serve (.read count)).2 := by
  rcases hflush : m.streams.flush with ⟨_ | fault, streams⟩
  · rw [Streams.serve_read_of_flush hflush, input, hflush]
    rcases hread : streams.readTimes none count with ⟨_ | fault, _ | latest, streams'⟩
    all_goals
      simp only [hread]
      rfl
  · rw [Streams.serve_read_of_failed_flush hflush, input, hflush]
    rfl

theorem settle_withStreams (m : Machine n σ) (s s' t t' : Streams) (supply : Supply) :
    (m.withStreams t).settle supply t' =
      (((m.withStreams s).settle supply s').1,
        ((m.withStreams s).settle supply s').2.withStreams t') := by
  rcases supply with ⟨_ | cause, _ | latest⟩ <;> rfl

/-! ## Steps -/

theorem demand_eq_write {b : UInt8} {count : Nat} (h : m.demand job = .write b count) :
    m.status = .running ∧ m.limitReached? job = none ∧
      job.program.instructions[m.next]? = some (.run .output count) ∧
      b = m.tape.current.toUInt64.toUInt8 := by
  unfold demand at h
  split at h
  · next running here allowed =>
    obtain ⟨rfl, rfl⟩ := Demand.write.inj h
    exact ⟨running, allowed, here, rfl⟩
  · contradiction
  · contradiction

theorem demand_eq_read {count : Nat} (h : m.demand job = .read count) :
    m.status = .running ∧ m.limitReached? job = none ∧
      job.program.instructions[m.next]? = some (.run .input count) := by
  unfold demand at h
  split at h
  · contradiction
  · next running here allowed =>
    obtain rfl := Demand.read.inj h
    exact ⟨running, allowed, here⟩
  · contradiction

/-- A step that asks for something is an operator that depends on the answer. -/
theorem step_of_demand (h : m.demand job ≠ .nothing) :
    m.step job = { m with steps := m.steps + 1 }.settle (m.streams.serve (m.demand job)).1
      (m.streams.serve (m.demand job)).2 := by
  cases hdemand : m.demand job with
  | nothing => exact absurd hdemand h
  | write b count =>
    obtain ⟨running, allowed, here, rfl⟩ := demand_eq_write hdemand
    rw [step_of_instruction running here allowed]
    exact output_eq_settle _ count
  | read count =>
    obtain ⟨running, allowed, here⟩ := demand_eq_read hdemand
    rw [step_of_instruction running here allowed]
    exact input_eq_settle _ count

/-- If the streams fail before they have given anything, only they have changed. -/
theorem step_of_failure {cause : StreamError} {s' : Streams} (hdemand : m.demand job ≠ .nothing)
    (h : m.streams.serve (m.demand job) = ({ failure? := some cause }, s')) :
    m.step job =
      (.error (.stream m.next cause),
        { m with steps := m.steps + 1, status := .aborted m.next, streams := s' }) := by
  rw [step_of_demand hdemand, h]
  rfl

theorem moveBy_withStreams (bounds : BoundsPolicy) (m : Machine n σ) (offset : Int)
    (t : Streams) :
    (m.withStreams t).moveBy bounds offset =
      ((m.moveBy bounds offset).1, (m.moveBy bounds offset).2.withStreams t) := by
  cases inside : m.tape.moveTo? (m.tape.target offset) with
  | some tape =>
    rw [moveBy_of_moveTo? inside]
    exact moveBy_of_moveTo? (m := m.withStreams t) inside bounds
  | none =>
    rw [moveBy_of_off inside]
    exact moveBy_of_off (m := m.withStreams t) inside bounds

/-- Only two operators use the streams. -/
theorem perform_withStreams (job : Job σ) (m : Machine n σ) (t : Streams) {i : Instruction}
    (h : ∀ op count, i = .run op count → op ≠ .output ∧ op ≠ .input) :
    (m.withStreams t).perform job i =
      ((m.perform job i).1, (m.perform job i).2.withStreams t) := by
  cases i with
  | run op count =>
    cases op with
    | increment => rfl
    | decrement => rfl
    | moveRight => exact moveBy_withStreams ..
    | moveLeft => exact moveBy_withStreams ..
    | output => exact absurd rfl (h _ _ rfl).1
    | input => exact absurd rfl (h _ _ rfl).2
  | loopOpen close =>
    by_cases hzero : m.tape.current = 0 <;> simp [perform, advance, withStreams, hzero]
  | loopClose opening =>
    by_cases hzero : m.tape.current = 0 <;> simp [perform, advance, withStreams, hzero]
  | call name argument => rfl

/-- A step that asks for nothing is the same on all streams. -/
theorem step_of_no_demand (h : m.demand job = .nothing) (t : Streams) :
    (m.withStreams t).step job = ((m.step job).1, (m.step job).2.withStreams t) := by
  cases hstatus : m.status with
  | halted halt =>
    rw [step_of_halted hstatus]
    exact step_of_halted hstatus
  | aborted i =>
    rw [step_of_aborted hstatus]
    exact step_of_aborted hstatus
  | running =>
    cases here : job.program.instructions[m.next]? with
    | none =>
      rw [step_of_end hstatus here]
      exact step_of_end hstatus here
    | some i =>
      cases allowed : m.limitReached? job with
      | some limit =>
        rw [step_of_limit hstatus here allowed]
        exact step_of_limit (m := m.withStreams t) hstatus here allowed
      | none =>
        rw [step_of_instruction hstatus here allowed]
        refine (step_of_instruction (m := m.withStreams t) hstatus here allowed).trans
          (perform_withStreams job { m with steps := m.steps + 1 } t fun op count hop => ?_)
        simp only [demand, hstatus, here, allowed, hop] at h
        constructor <;> rintro rfl <;> contradiction

/-- Streams that answer alike lead to the same step. -/
theorem step_withStreams {t : Streams}
    (h : (t.serve (m.demand job)).1 = (m.streams.serve (m.demand job)).1) :
    (m.withStreams t).step job =
      ((m.step job).1, (m.step job).2.withStreams (t.serve (m.demand job)).2) := by
  by_cases hdemand : m.demand job = .nothing
  · rw [step_of_no_demand hdemand, hdemand]
    rfl
  · have hother : (m.withStreams t).demand job ≠ .nothing := hdemand
    rw [step_of_demand hdemand, step_of_demand hother]
    change settle _ (t.serve (m.demand job)).1 (t.serve (m.demand job)).2 = _
    rw [h]
    exact settle_withStreams { m with steps := m.steps + 1 } m.streams ..

/-- A step does nothing to the streams but to be served. -/
theorem streams_step (job : Job σ) (m : Machine n σ) :
    (m.step job).2.streams = (m.streams.serve (m.demand job)).2 :=
  congrArg (·.2.streams) (step_withStreams (m := m) (t := m.streams) rfl)

/-- The streams are at fault if a step says so. -/
theorem failure_of_stream_error {i : Nat} {cause : StreamError} {m' : Machine n σ}
    (h : m.step job = (.error (.stream i cause), m')) :
    (m.streams.serve (m.demand job)).1.failure? = some cause := by
  have hdemand : m.demand job ≠ .nothing := by
    have ht := transition_step job m
    rw [h] at ht
    cases ht with
    | leaves _ _ _ _ _ answer => cases hbounds : job.bounds <;> simp [hbounds] at answer
    | fails running here allowed uses =>
      rcases uses with rfl | ⟨rfl, -⟩ <;> simp [demand, running, here, allowed]
  rw [step_of_demand hdemand] at h
  unfold settle at h
  cases hfailure : (m.streams.serve (m.demand job)).1.failure? with
  | none => simp [hfailure] at h
  | some cause' =>
    simp only [hfailure, abort, Prod.mk.injEq, Except.error.injEq, RuntimeError.stream.injEq] at h
    rw [h.1.2]

/-! ## The last flush of a run -/

theorem finish_of_flush {streams : Streams} (h : m.streams.flush = (none, streams)) (halt : Halt) :
    m.finish halt = (.ok halt, m.withStreams streams) := by
  unfold finish
  rw [h]
  rfl

theorem finish_of_failed_flush {streams : Streams} {fault : Fault}
    (h : m.streams.flush = (some fault, streams)) (halt : Halt) :
    m.finish halt = (.error (.stream m.next (.ofWrite fault)), m.withStreams streams) := by
  unfold finish
  rw [h]
  rfl

end Machine

end TapeMachine
