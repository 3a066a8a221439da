import TapeMachine.Machine.Step
import TapeMachine.Proofs.Program.Code

/-!
# Machines with other indices

What a machine does depends on the indices of its program only in so far as they lead from one
instruction to another. Under other indices that do this alike it does the same, and its answers and
its record name the instructions by their other indices (`perform_renumber`).
-/

namespace TapeMachine

def Halt.renumber (r : Nat → Nat) : Halt → Halt
  | completed => completed
  | outOfBounds i target => outOfBounds (r i) target

def RuntimeError.renumber (r : Nat → Nat) : RuntimeError → RuntimeError
  | stream i cause => stream (r i) cause
  | outOfBounds i target cells => outOfBounds (r i) target cells
  | stepLimitExceeded limit => stepLimitExceeded limit
  | aborted i => aborted (r i)

def Status.renumber (r : Nat → Nat) : Status → Status
  | running => running
  | halted halt => halted (halt.renumber r)
  | aborted i => aborted (r i)

namespace Machine

variable {n : Nat} {σ : Type} {r : Nat → Nat} {steps : Nat}

/-- The machine with other indices and another count of its steps. -/
def renumber (r : Nat → Nat) (steps : Nat) (m : Machine n σ) : Machine n σ :=
  { m with next := r m.next, steps, status := m.status.renumber r }

@[simp] theorem tape_renumber (m : Machine n σ) : (m.renumber r steps).tape = m.tape := rfl

@[simp] theorem streams_renumber (m : Machine n σ) :
    (m.renumber r steps).streams = m.streams := rfl

@[simp] theorem status_renumber (m : Machine n σ) :
    (m.renumber r steps).status = m.status.renumber r := rfl

theorem running_renumber {m : Machine n σ} (running : m.status = .running) :
    (m.renumber r steps).status = .running := by
  rw [status_renumber, running]
  rfl

/-- What a step comes to, with other indices. -/
def renumberStep (r : Nat → Nat) (steps : Nat) (a : StepResult × Machine n σ) :
    StepResult × Machine n σ :=
  ((a.1.map (·.map (.renumber r))).mapError (.renumber r), a.2.renumber r steps)

/-! ## Instructions -/

section

variable {m : Machine n σ} (hnext : r (m.next + 1) = r m.next + 1)

include hnext

theorem advance_renumber : (m.renumber r steps).advance = m.advance.renumber r steps := by
  simp [advance, renumber, hnext]

theorem moveBy_renumber (bounds : BoundsPolicy) (offset : Int) :
    (m.renumber r steps).moveBy bounds offset =
      renumberStep r steps (m.moveBy bounds offset) := by
  unfold moveBy
  cases hmove : m.tape.moveTo? (m.tape.target offset) with
  | some tape =>
    simp only [tape_renumber, hmove]
    exact Prod.ext rfl (advance_renumber (m := { m with tape }) hnext)
  | none =>
    simp only [tape_renumber, hmove]
    let halted := { m with status := .halted (.outOfBounds m.next (m.tape.target offset)) }
    refine Prod.ext ?_ (advance_renumber (m := halted) hnext)
    cases bounds <;> rfl

theorem output_renumber (count : Nat) :
    (m.renumber r steps).output count = renumberStep r steps (m.output count) := by
  unfold output
  simp only [streams_renumber, tape_renumber]
  rcases m.streams.writeTimes m.tape.current.toUInt64.toUInt8 count with ⟨_ | fault, streams⟩
  · exact Prod.ext rfl (advance_renumber (m := { m with streams }) hnext)
  · rfl

theorem input_renumber (count : Nat) :
    (m.renumber r steps).input count = renumberStep r steps (m.input count) := by
  unfold input
  simp only [streams_renumber]
  rcases m.streams.flush with ⟨_ | fault, streams⟩
  · simp only
    rcases streams.readTimes none count with ⟨_ | fault, _ | latest, streams⟩
    · exact Prod.ext rfl (advance_renumber (m := { m with streams }) hnext)
    · exact Prod.ext rfl (advance_renumber (m := { m with streams, tape := _ }) hnext)
    · rfl
    · rfl
  · rfl

theorem operate_renumber (bounds : BoundsPolicy) (op : Operator) (count : Nat) :
    (m.renumber r steps).operate bounds op count =
      renumberStep r steps (m.operate bounds op count) := by
  cases op with
  | increment => exact Prod.ext rfl (advance_renumber (m := m.write _) hnext)
  | decrement => exact Prod.ext rfl (advance_renumber (m := m.write _) hnext)
  | moveRight => exact moveBy_renumber hnext bounds count
  | moveLeft => exact moveBy_renumber hnext bounds (-count)
  | output => exact output_renumber hnext count
  | input => exact input_renumber hnext count

/-- An instruction does the same under other indices, if these keep what is next to it and to its
partner. -/
theorem perform_renumber {job job' : Job σ} (hbounds : job'.bounds = job.bounds)
    (hhost : job'.host = job.host) {i : Instruction}
    (hpartner : ∀ j, i = .loopOpen j ∨ i = .loopClose j → r (j + 1) = r j + 1) :
    (m.renumber r steps).perform job' (i.renumber r) = renumberStep r steps (m.perform job i) := by
  cases i with
  | run op count =>
    simp only [perform, Instruction.renumber, hbounds]
    exact operate_renumber hnext job.bounds op count
  | loopOpen close =>
    have hclose := hpartner close (.inl rfl)
    refine Prod.ext rfl ?_
    by_cases hzero : m.tape.current = 0
    · simp [perform, Instruction.renumber, hzero, renumberStep, renumber, hclose]
    · simp only [perform, Instruction.renumber, tape_renumber, hzero, if_false]
      exact advance_renumber hnext
  | loopClose opening =>
    have hopening := hpartner opening (.inr rfl)
    refine Prod.ext rfl ?_
    by_cases hzero : m.tape.current = 0
    · simp only [perform, Instruction.renumber, tape_renumber, hzero, if_true]
      exact advance_renumber hnext
    · simp [perform, Instruction.renumber, hzero, renumberStep, renumber, hopening]
  | call name argument =>
    simp only [perform, Instruction.renumber, hhost]
    refine Prod.ext rfl ?_
    simp [renumberStep, renumber, hnext]

end

end Machine

end TapeMachine
