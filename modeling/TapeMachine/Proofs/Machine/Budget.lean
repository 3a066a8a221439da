import TapeMachine.Run
import TapeMachine.Proofs.Machine.Steps

/-!
# Step limits

A limit is looked at only when an instruction is about to be carried out, after the end of the
program has been looked for (`Ready`). Below the limit a machine therefore steps as if there were
none (`step_limited_of_lt`), at the limit it comes to rest as if there were none
(`step_of_not_ready`), and all the limit can do is to refuse the instruction that would go beyond it
(`step_limited_of_ready`). `execute_limited_of_le` and `execute_limited_of_lt` carry this over to
runs.
-/

namespace TapeMachine

/-- The job under another step limit. -/
def Job.withLimit {σ : Type} (job : Job σ) (limit : Option Nat) : Job σ :=
  { job with maxSteps := limit }

namespace Machine

variable {n : Nat} {σ : Type} {job : Job σ} {j k : Nat} {m m' : Machine n σ}

/-- The machine is about to carry out an instruction, if no limit forbids it. -/
def Ready (job : Job σ) (m : Machine n σ) : Prop :=
  m.status = .running ∧ ∃ i, job.program.instructions[m.next]? = some i

/-! ## One step under a limit -/

theorem perform_limited (m : Machine n σ) (i : Instruction) (limit : Option Nat) :
    m.perform (job.withLimit limit) i = m.perform job i := by
  cases i <;> rfl

/-- A machine with nothing to carry out does not feel a limit. -/
theorem step_of_not_ready (h : ¬Ready job m) (limit : Option Nat) :
    m.step (job.withLimit limit) = m.step job ∧ (m.step job).2.steps = m.steps := by
  cases hstatus : m.status with
  | halted halt =>
    rw [step_of_halted hstatus, step_of_halted hstatus]
    exact ⟨rfl, rfl⟩
  | aborted i =>
    rw [step_of_aborted hstatus, step_of_aborted hstatus]
    exact ⟨rfl, rfl⟩
  | running =>
    have last : job.program.instructions[m.next]? = none := by
      cases here : job.program.instructions[m.next]? with
      | none => rfl
      | some i => exact absurd ⟨hstatus, i, here⟩ h
    have hlimited : m.step (job.withLimit limit) = _ := step_of_end hstatus last
    rw [hlimited, step_of_end hstatus last]
    exact ⟨rfl, rfl⟩

/-- At the limit no further instruction is carried out. -/
theorem step_limited_of_ready (h : Ready job m) (hk : k ≤ m.steps) :
    m.step (job.withLimit (some k)) = (.error (.stepLimitExceeded k), m) := by
  obtain ⟨running, i, here⟩ := h
  have there : (job.withLimit (some k)).program.instructions[m.next]? = some i := here
  have reached : m.limitReached? (job.withLimit (some k)) = some k := by
    simp [limitReached?, Job.withLimit, hk]
  exact step_of_limit running there reached

section

variable (nolimit : job.maxSteps = none)

include nolimit

/-- Without a limit an instruction that is about to be carried out is carried out, and counted. -/
theorem steps_of_ready (h : Ready job m) : (m.step job).2.steps = m.steps + 1 := by
  obtain ⟨running, i, here⟩ := h
  have ht := transition_step job m
  generalize (m.step job).1 = answer, (m.step job).2 = m' at ht
  cases ht with
  | halted rest => simp [rest] at running
  | aborted rest => simp [rest] at running
  | completes _ last => simp [last] at here
  | exceeds _ _ reached => simp [limitReached?_eq_none nolimit m] at reached
  | goesOn _ _ _ _ steps => exact steps
  | leaves => rfl
  | fails _ _ _ _ _ steps => exact steps

/-- Below the limit a machine steps as if there were none. -/
theorem step_limited_of_lt (hk : m.steps < k) :
    m.step (job.withLimit (some k)) = m.step job := by
  by_cases hready : Ready job m
  · obtain ⟨running, i, here⟩ := hready
    have hlimited : m.step (job.withLimit (some k)) = _ :=
      step_of_instruction running here (by simp [limitReached?, Job.withLimit, hk])
    have hfree : m.step job = _ :=
      step_of_instruction running here (limitReached?_eq_none nolimit m)
    rw [hlimited, hfree, perform_limited]
  · exact (step_of_not_ready hready _).1

/-! ## Runs under a limit -/

theorem Steps.limited (h : Steps job j m m') (hk : m.steps + j ≤ k) :
    Steps (job.withLimit (some k)) j m m' := by
  induction h with
  | nil => exact .nil
  | cons step _ ih =>
    have hcount := steps_of_goesOn step
    refine .cons ?_ (ih (by omega))
    rw [step_limited_of_lt nolimit (by omega), step]

omit nolimit in
/-- What a run returns after its last step has that step's count. -/
theorem steps_of_execute_one {result : Except RuntimeError Halt}
    (h : m.execute job 1 = some (result, m')) : m'.steps = (m.step job).2.steps := by
  rcases execute_cases h with ⟨-, hrest⟩ | ⟨halt, -, hfinish⟩ | ⟨e, herror, -⟩
  · contradiction
  · have hmachine := finish_machine (m.step job).2 halt
    rw [hfinish] at hmachine
    have hcount := congrArg Machine.steps hmachine
    exact hcount
  · rw [herror]

/-- A run that ends by its next step and stays within the limit ends in the same way under it. -/
theorem execute_one_limited {result : Except RuntimeError Halt}
    (h : m.execute job 1 = some (result, m')) (hk : m'.steps ≤ k) :
    m.execute (job.withLimit (some k)) 1 = some (result, m') := by
  have hstep : m.step (job.withLimit (some k)) = m.step job := by
    by_cases hready : Ready job m
    · have hcount := steps_of_ready nolimit hready
      rw [← steps_of_execute_one h] at hcount
      exact step_limited_of_lt nolimit (by omega)
    · exact (step_of_not_ready hready _).1
  rw [execute, hstep, ← h]
  rfl

/-- A run that stays within the limit ends in the same way under it. -/
theorem execute_limited_of_le {fuel : Nat} {result : Except RuntimeError Halt}
    (h : m.execute job fuel = some (result, m')) (hk : m'.steps ≤ k) :
    m.execute (job.withLimit (some k)) (k - m.steps + 1) = some (result, m') := by
  obtain ⟨j, -, m₁, hsteps, hlast⟩ := execute_eq_some_iff.mp h
  have hcount := hsteps.steps_eq
  have hle : m₁.steps ≤ m'.steps := by
    rw [steps_of_execute_one hlast]
    by_cases hready : Ready job m₁
    · exact (steps_of_ready nolimit hready).symm ▸ Nat.le_succ _
    · exact Nat.le_of_eq (step_of_not_ready hready none).2.symm
  exact execute_eq_some_iff.mpr
    ⟨j, by omega, m₁, hsteps.limited nolimit (by omega), execute_one_limited nolimit hlast hk⟩

/-- A run that does not stay within the limit is about to go beyond it when it has come to it. -/
theorem exists_ready_of_lt (hm : m.steps ≤ k)
    (h : ∀ fuel result m', m.execute job fuel = some (result, m') → k < m'.steps) :
    ∃ m₁, Steps job (k - m.steps) m m₁ ∧ Ready job m₁ := by
  rcases steps_or_ends job (k - m.steps + 1) m with
    ⟨-, m₂, hsteps⟩ | ⟨⟨result, m'⟩, hends, j, hj, m₁, hsteps, hlast⟩
  · obtain ⟨m₁, hsteps, hstep⟩ := hsteps.exists_last
    refine ⟨m₁, hsteps, Classical.byContradiction fun hready => ?_⟩
    have hcount := steps_of_goesOn hstep
    have hsame : m₂.steps = m₁.steps := by
      have hstay := (step_of_not_ready hready none).2
      rwa [hstep] at hstay
    omega
  · have hlong := h _ _ _ hends
    have hcount := hsteps.steps_eq
    rw [steps_of_execute_one hlast] at hlong
    by_cases hready : Ready job m₁
    · rw [steps_of_ready nolimit hready] at hlong
      obtain rfl : j = k - m.steps := by omega
      exact ⟨m₁, hsteps, hready⟩
    · rw [(step_of_not_ready hready none).2] at hlong
      omega

/-- A run that does not stay within the limit is stopped when it has come to it. -/
theorem execute_limited_of_lt (hm : m.steps ≤ k)
    (h : ∀ fuel result m', m.execute job fuel = some (result, m') → k < m'.steps) :
    ∃ m₁, Steps job (k - m.steps) m m₁ ∧ m₁.steps = k ∧
      m.execute (job.withLimit (some k)) (k - m.steps + 1) =
        some (.error (.stepLimitExceeded k), m₁) := by
  obtain ⟨m₁, hsteps, hready⟩ := exists_ready_of_lt nolimit hm h
  have hcount : m₁.steps = k := by
    rw [hsteps.steps_eq]
    omega
  refine ⟨m₁, hsteps, hcount, ?_⟩
  rw [execute_of_steps (hsteps.limited nolimit (by omega)), execute,
    step_limited_of_ready hready (Nat.le_of_eq hcount.symm)]

end

end Machine

open Machine (Steps)

variable {σ : Type}

theorem Program.run_eq_some_iff {p : Program} {settings : MachineSettings} {host : Host σ}
    {state : σ} {streams : Streams} {fuel : Nat} {e : Ending settings.cells σ} :
    p.run settings host state streams fuel = some e ↔
      (Machine.start settings streams state).execute (.ofSettings settings p host) fuel =
        some (e.result, e.machine) := by
  unfold Program.run
  rw [Option.map_eq_some_iff]
  constructor
  · rintro ⟨⟨result, machine⟩, hrun, rfl⟩
    exact hrun
  · intro hrun
    exact ⟨_, hrun, rfl⟩

/-- A step limit only cuts runs short. A run that ends within `k` instructions without a limit ends
in the same way under the limit `k`, with the same machine left. Any other run is stopped with an
error after its first `k` instructions, and what is left is the machine that the run without a limit
had come to by then. So under a limit of `k` every run ends by its step `k + 1`. -/
theorem run_under_limit (p : Program) (settings : MachineSettings) (host : Host σ) (state : σ)
    (streams : Streams) (k : Nat) :
    (∀ fuel e, p.run { settings with maxSteps := none } host state streams fuel = some e →
      e.machine.steps ≤ k →
      p.run { settings with maxSteps := some k } host state streams (k + 1) = some e) ∧
    ((∀ fuel e, p.run { settings with maxSteps := none } host state streams fuel = some e →
      k < e.machine.steps) →
      ∃ m, Steps (.ofSettings { settings with maxSteps := none } p host) k
          (.start settings streams state) m ∧
        m.steps = k ∧
        p.run { settings with maxSteps := some k } host state streams (k + 1) =
          some ⟨.error (.stepLimitExceeded k), m⟩) ∧
    (p.run { settings with maxSteps := some k } host state streams (k + 1)).isSome := by
  let job : Job σ := .ofSettings { settings with maxSteps := none } p host
  have nolimit : job.maxSteps = none := rfl
  have hshort : ∀ fuel e,
      p.run { settings with maxSteps := none } host state streams fuel = some e →
      e.machine.steps ≤ k →
      p.run { settings with maxSteps := some k } host state streams (k + 1) = some e :=
    fun fuel e hrun hk => Program.run_eq_some_iff.mpr
      (Machine.execute_limited_of_le nolimit (Program.run_eq_some_iff.mp hrun) hk)
  have hlong : (∀ fuel e,
      p.run { settings with maxSteps := none } host state streams fuel = some e →
      k < e.machine.steps) →
      ∃ m, Steps job k (.start settings streams state) m ∧ m.steps = k ∧
        p.run { settings with maxSteps := some k } host state streams (k + 1) =
          some ⟨.error (.stepLimitExceeded k), m⟩ := by
    intro h
    obtain ⟨m, hsteps, hcount, hstop⟩ := Machine.execute_limited_of_lt nolimit (Nat.zero_le k)
      fun fuel result m hrun => h fuel ⟨result, m⟩ (Program.run_eq_some_iff.mpr hrun)
    exact ⟨m, hsteps, hcount, Program.run_eq_some_iff.mpr hstop⟩
  refine ⟨hshort, hlong, ?_⟩
  by_cases hends : ∃ fuel e,
      p.run { settings with maxSteps := none } host state streams fuel = some e ∧
        e.machine.steps ≤ k
  · obtain ⟨fuel, e, hrun, hk⟩ := hends
    rw [hshort fuel e hrun hk]
    rfl
  · have h : ∀ fuel e,
        p.run { settings with maxSteps := none } host state streams fuel = some e →
        k < e.machine.steps :=
      fun fuel e hrun => Nat.lt_of_not_le fun hk => hends ⟨fuel, e, hrun, hk⟩
    obtain ⟨m, -, -, hstop⟩ := hlong h
    rw [hstop]
    rfl

/-- Two instructions complete under a limit of two; under a limit of one the first is all. -/
theorem run_under_limit_of_two_and_of_one :
    ∃ c, compile {} "+." = .ok c ∧
      (∃ e, c.program.run { memorySize := 1, maxSteps := some 2 } .silent () {} 3 = some e ∧
        e.result = .ok .completed ∧ e.machine.steps = 2) ∧
      ∃ e, c.program.run { memorySize := 1, maxSteps := some 1 } .silent () {} 2 = some e ∧
        e.result = .error (.stepLimitExceeded 1) ∧ e.machine.steps = 1 := by
  have hcompile : compile {} "+." = .ok ⟨⟨#[.run .increment 1, .run .output 1]⟩, []⟩ := by
    with_unfolding_all rfl
  have hrun : Program.run ⟨#[.run .increment 1, .run .output 1]⟩ { memorySize := 1 } .silent ()
      {} 3 = some _ := rfl
  refine ⟨_, hcompile, ⟨_, (run_under_limit _ { memorySize := 1 } .silent () {} 2).1 3 _ hrun
    (Nat.le_refl 2), rfl, rfl⟩, ?_⟩
  obtain ⟨m, -, hsteps, hstop⟩ :=
    (run_under_limit ⟨#[.run .increment 1, .run .output 1]⟩ { memorySize := 1 } .silent () {} 1).2.1
      fun fuel e h => by
        have hsame := Machine.execute_unique (Program.run_eq_some_iff.mp h)
          (Program.run_eq_some_iff.mp hrun)
        rw [congrArg (·.2.steps) hsame]
        decide
  exact ⟨_, hstop, rfl, hsteps⟩

end TapeMachine
