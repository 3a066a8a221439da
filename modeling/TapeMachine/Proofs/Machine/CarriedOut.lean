import TapeMachine.Proofs.Machine.Rest

/-!
# The instructions that a run carries out

A machine that is running and has not reached its limit carries out the instruction that is next
(`pending?`), and counts it; any other step leaves the tape, the streams and the host alone. What a
run has done up to some step is told by the instructions that it has carried out (`carriedOut`).
-/

namespace TapeMachine

namespace Machine

variable {n : Nat} {σ : Type} {job : Job σ} {m : Machine n σ}

/-- The instruction that the next step carries out. -/
def pending? (job : Job σ) (m : Machine n σ) : Option Instruction :=
  match m.status, m.limitReached? job with
  | .running, none => job.program.instructions[m.next]?
  | _, _ => none

/-- The instructions that the next `k` steps carry out, in their order. -/
def carriedOut (job : Job σ) : Nat → Machine n σ → List Instruction
  | 0, _ => []
  | k + 1, m => (m.pending? job).toList ++ carriedOut job k (m.step job).2

theorem pending?_eq_some {x : Instruction} (h : m.pending? job = some x) :
    m.status = .running ∧ job.program.instructions[m.next]? = some x ∧
      m.limitReached? job = none := by
  unfold pending? at h
  split at h
  · next running allowed => exact ⟨running, h, allowed⟩
  · contradiction

theorem step_of_pending? {x : Instruction} (h : m.pending? job = some x) :
    m.step job = { m with steps := m.steps + 1 }.perform job x := by
  obtain ⟨running, here, allowed⟩ := pending?_eq_some h
  exact step_of_instruction running here allowed

/-- A step that carries out nothing tells the host nothing. -/
theorem state_step_of_pending?_eq_none (h : m.pending? job = none) :
    (m.step job).2.state = m.state := by
  cases hstatus : m.status with
  | halted halt => rw [step_of_halted hstatus]
  | aborted i => rw [step_of_aborted hstatus]
  | running =>
    cases here : job.program.instructions[m.next]? with
    | none => rw [step_of_end hstatus here]
    | some x =>
      cases allowed : m.limitReached? job with
      | some limit => rw [step_of_limit hstatus here allowed]
      | none => simp [pending?, hstatus, allowed, here] at h

/-- An instruction that is carried out is counted as a step, and nothing else is. -/
theorem steps_step (job : Job σ) (m : Machine n σ) :
    (m.step job).2.steps = m.steps + (m.pending? job).toList.length := by
  have ht := transition_step job m
  generalize (m.step job).1 = answer, (m.step job).2 = m' at ht
  cases ht with
  | halted rest => simp [pending?, rest]
  | aborted rest => simp [pending?, rest]
  | completes running last =>
    cases allowed : m.limitReached? job <;> simp [pending?, running, last, allowed]
  | exceeds running here reached => simp [pending?, running, reached]
  | goesOn running here allowed next steps => simp [pending?, running, here, allowed, steps]
  | leaves running here allowed => simp [pending?, running, here, allowed]
  | fails running here allowed uses next steps =>
    simp [pending?, running, here, allowed, steps]

/-- A machine at rest carries out nothing. -/
theorem AtRest.pending?_eq_none {answer : StepResult} (h : AtRest job m answer) :
    m.pending? job = none := by
  have hsteps := steps_step job m
  rw [h.step_eq] at hsteps
  cases hpending : m.pending? job with
  | none => rfl
  | some i => simp [hpending] at hsteps

theorem AtRest.carriedOut_eq_nil {answer : StepResult} (h : AtRest job m answer) (k : Nat) :
    carriedOut job k m = [] := by
  induction k with
  | zero => rfl
  | succ k ih => rw [carriedOut, h.pending?_eq_none, h.step_eq, ih]; rfl

end Machine

end TapeMachine
