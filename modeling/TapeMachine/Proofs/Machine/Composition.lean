import TapeMachine.Proofs.Machine.Budget
import TapeMachine.Proofs.Machine.Renumbering
import TapeMachine.Proofs.Machine.Rest
import TapeMachine.Proofs.Machine.Soundness
import TapeMachine.Proofs.Program.Concatenation

/-!
# One program after the other

A program with a second one behind it does what it does on its own until it has come to its end
(`after_andThen`), where it does not halt but goes on with the second one. That does what it does on
its own from the same tape, streams and state of the host; only the instructions have other indices,
and the steps of the first program have been counted already (`after_shift`). Put together, this is
what the two sources come to when they are compiled as one text (`steps_of_concatenation`).
-/

namespace TapeMachine

/-- The job of another program, under the same limits and for the same host. -/
def Job.withProgram {σ : Type} (job : Job σ) (program : Program) : Job σ := { job with program }

/-- The answer of the same step of a program that was moved by `d` instructions. -/
def StepResult.shift (d : Nat) (answer : StepResult) : StepResult :=
  (answer.map (·.map (.renumber (· + d)))).mapError (.renumber (· + d))

namespace Machine

variable {n : Nat} {σ : Type} {job : Job σ} {p q : Program} {k : Nat} {m m' : Machine n σ}

/-- The machine with a program that was moved by `d` instructions, after `s` steps more. -/
def shift (d s : Nat) (m : Machine n σ) : Machine n σ := m.renumber (· + d) (m.steps + s)

theorem status_shift (d s : Nat) (m : Machine n σ) :
    (m.shift d s).status = m.status.renumber (· + d) := rfl

/-- A new run from the same tape, streams and state of the host. -/
def restarted (m : Machine n σ) : Machine n σ :=
  { tape := m.tape, streams := m.streams, state := m.state }

theorem perform_withProgram (m : Machine n σ) (i : Instruction) :
    m.perform (job.withProgram p) i = m.perform job i := by
  cases i <;> rfl

/-! ## The first program -/

/-- In front of its end a program does not see what comes behind it. -/
theorem step_andThen (q : Program) (h : m.status = .running → m.next < p.size) :
    m.step (job.withProgram (p.andThen q)) = m.step (job.withProgram p) := by
  cases hstatus : m.status with
  | halted halt => rw [step_of_halted hstatus, step_of_halted hstatus]
  | aborted i => rw [step_of_aborted hstatus, step_of_aborted hstatus]
  | running =>
    have hlt := h hstatus
    have here : p.instructions[m.next]? = some p.instructions[m.next] :=
      Array.getElem?_eq_getElem hlt
    have there : (p.andThen q).instructions[m.next]? = some p.instructions[m.next] :=
      (Program.andThen_getElem?_left q hlt).trans here
    cases allowed : m.limitReached? job with
    | some limit =>
      have hfirst : m.step (job.withProgram p) = _ := step_of_limit hstatus here allowed
      rw [hfirst]
      exact step_of_limit hstatus there allowed
    | none =>
      have hfirst : m.step (job.withProgram p) = _ := step_of_instruction hstatus here allowed
      have hboth : m.step (job.withProgram (p.andThen q)) = _ :=
        step_of_instruction hstatus there allowed
      rw [hfirst, hboth, perform_withProgram, perform_withProgram]

theorem step_andThen_of_not_completed (q : Program)
    (h : (m.step (job.withProgram p)).2.status ≠ .halted .completed) :
    m.step (job.withProgram (p.andThen q)) = m.step (job.withProgram p) := by
  apply step_andThen q
  intro running
  apply Nat.lt_of_not_le
  intro hle
  have last : (job.withProgram p).program.instructions[m.next]? = none :=
    Array.getElem?_eq_none hle
  rw [step_of_end running last] at h
  contradiction

theorem not_completed_of_step (h : (m.step job).2.status ≠ .halted .completed) :
    m.status ≠ .halted .completed := by
  intro hcompleted
  rw [step_of_halted hcompleted] at h
  exact h hcompleted

/-- Until the first program has come to its end, both come to the same machines. -/
theorem after_andThen (q : Program)
    (h : (after (job.withProgram p) k m).status ≠ .halted .completed) :
    after (job.withProgram (p.andThen q)) k m = after (job.withProgram p) k m := by
  induction k with
  | zero => rfl
  | succ k ih =>
    rw [after_succ] at h
    rw [after_succ, after_succ, ih (not_completed_of_step h), step_andThen_of_not_completed q h]

/-- Until the first program has come to its end, both answer alike. -/
theorem step_after_andThen (q : Program)
    (h : (after (job.withProgram p) (k + 1) m).status ≠ .halted .completed) :
    (after (job.withProgram (p.andThen q)) k m).step (job.withProgram (p.andThen q)) =
      (after (job.withProgram p) k m).step (job.withProgram p) := by
  rw [after_succ] at h
  rw [after_andThen q (not_completed_of_step h), step_andThen_of_not_completed q h]

theorem Steps.andThen (h : Steps (job.withProgram p) k m m') (q : Program) :
    Steps (job.withProgram (p.andThen q)) k m m' := by
  induction h with
  | nil => exact .nil
  | cons step _ ih =>
    refine .cons ?_ ih
    rw [step_andThen_of_not_completed q, step]
    rw [step, status_of_goesOn step]
    exact Status.noConfusion

/-! ## The second program -/

/-- An instruction does behind the first program what it does on its own. -/
theorem step_shift_of_instruction (nolimit : job.maxSteps = none) (p : Program) (s : Nat)
    (running : m.status = .running) {i : Instruction}
    (here : q.instructions[m.next]? = some i) :
    (m.shift p.size s).step (job.withProgram (p.andThen q)) =
      (StepResult.shift p.size (m.step (job.withProgram q)).1,
        (m.step (job.withProgram q)).2.shift p.size s) := by
  have hmoved : (m.shift p.size s).status = .running := by
    rw [status_shift, running]
    rfl
  have there : (p.andThen q).instructions[m.next + p.size]? = some (i.renumber (· + p.size)) := by
    rw [Program.andThen_getElem?_right, here]
    rfl
  have hstep : m.step (job.withProgram q) = _ :=
    step_of_instruction running here (limitReached?_eq_none nolimit m)
  have hmovedStep : (m.shift p.size s).step (job.withProgram (p.andThen q)) = _ :=
    step_of_instruction hmoved there (limitReached?_eq_none nolimit _)
  -- The instruction was counted with the steps of the second program, behind those of the first.
  have hcount : (m.step (job.withProgram q)).2.steps = m.steps + 1 :=
    steps_of_ready nolimit ⟨running, i, here⟩
  have hmachine : (m.step (job.withProgram q)).2.shift p.size s =
      (m.step (job.withProgram q)).2.renumber (· + p.size) (m.steps + s + 1) := by
    rw [shift, hcount, Nat.add_right_comm]
  have hnext : m.next + 1 + p.size = m.next + p.size + 1 := Nat.add_right_comm ..
  have hperform :
      ({ m with steps := m.steps + 1 }.renumber (· + p.size) (m.steps + s + 1)).perform
          (job.withProgram (p.andThen q)) (i.renumber (· + p.size)) =
        renumberStep (· + p.size) (m.steps + s + 1)
          ({ m with steps := m.steps + 1 }.perform (job.withProgram q) i) :=
    perform_renumber hnext rfl rfl fun j _ => Nat.add_right_comm ..
  rw [hmovedStep, hmachine, hstep]
  exact hperform

/-- A program that was moved does what it does elsewhere. -/
theorem step_shift (nolimit : job.maxSteps = none) (p : Program) (s : Nat) (m : Machine n σ) :
    (m.shift p.size s).step (job.withProgram (p.andThen q)) =
      (StepResult.shift p.size (m.step (job.withProgram q)).1,
        (m.step (job.withProgram q)).2.shift p.size s) := by
  have hstatus := status_shift p.size s m
  cases hm : m.status with
  | halted halt =>
    rw [hm] at hstatus
    rw [step_of_halted hm, step_of_halted hstatus]
    rfl
  | aborted i =>
    rw [hm] at hstatus
    rw [step_of_aborted hm, step_of_aborted hstatus]
    rfl
  | running =>
    cases here : q.instructions[m.next]? with
    | none =>
      have last : (p.andThen q).instructions[m.next + p.size]? = none := by
        rw [Program.andThen_getElem?_right, here]
        rfl
      rw [hm] at hstatus
      rw [step_of_end hm here, step_of_end hstatus last]
      rfl
    | some i => exact step_shift_of_instruction nolimit p s hm here

/-- From its own beginning on, the second program runs as it does on its own. -/
theorem after_shift (nolimit : job.maxSteps = none) (p : Program) (s j : Nat) (m : Machine n σ) :
    after (job.withProgram (p.andThen q)) j (m.shift p.size s) =
      (after (job.withProgram q) j m).shift p.size s := by
  induction j generalizing m with
  | zero => rfl
  | succ j ih => rw [after, step_shift nolimit, ih, after]

/-! ## From one to the other -/

theorem next_step_le (linked : job.program.WellLinked) (h : m.next ≤ job.program.size) :
    (m.step job).2.next ≤ job.program.size := by
  rcases next_step_cases job m with hstays | ⟨i, -, here, -, hnext⟩
  · rw [hstays]
    exact h
  · rw [hnext]
    exact successor_le linked here

/-- A running machine whose step completes has no instruction left. -/
theorem last_of_completes (running : m.status = .running)
    (h : (m.step job).1 = .ok (some .completed)) : job.program.instructions[m.next]? = none := by
  have ht := transition_step job m
  rw [h] at ht
  generalize (m.step job).2 = m' at ht
  cases ht with
  | halted rest => simp [rest] at running
  | completes _ last => exact last
  | leaves _ _ _ _ _ answer => cases hbounds : job.bounds <;> simp [hbounds] at answer

/-- A run that completes is at the end of its program. -/
theorem Steps.next_eq_size (h : Steps job k m m') (linked : job.program.WellLinked)
    (hm : m.next ≤ job.program.size) (running : m.status = .running)
    (completes : (m'.step job).1 = .ok (some .completed)) :
    m'.next = job.program.size ∧ m'.status = .running := by
  have ⟨hle, hrunning⟩ : m'.next ≤ job.program.size ∧ m'.status = .running := by
    refine h.preserves (P := fun m => m.next ≤ job.program.size ∧ m.status = .running) ?_
      ⟨hm, running⟩
    intro m m' hstep hinv
    refine ⟨?_, status_of_goesOn hstep⟩
    have hnext := next_step_le linked hinv.1
    rwa [hstep] at hnext
  have last := last_of_completes hrunning completes
  exact ⟨Nat.le_antisymm hle (Array.getElem?_eq_none_iff.mp last), hrunning⟩

/-- Where the first program would complete, the second one begins. -/
theorem eq_shift_restarted (next : m.next = p.size) (running : m.status = .running) :
    m = m.restarted.shift p.size m.steps := by
  rcases m with ⟨_, tape, steps, _, streams, state⟩
  subst next running
  simp [restarted, shift, renumber, Status.renumber]

theorem Steps.after_andThen (h : Steps (job.withProgram p) k m m')
    (nolimit : job.maxSteps = none) (linked : p.WellLinked) (hm : m.next ≤ p.size)
    (running : m.status = .running)
    (completes : (m'.step (job.withProgram p)).1 = .ok (some .completed)) (q : Program) (j : Nat) :
    after (job.withProgram (p.andThen q)) (k + j) m =
      (after (job.withProgram q) j m'.restarted).shift p.size m'.steps := by
  obtain ⟨hnext, hrunning⟩ := h.next_eq_size linked hm running completes
  calc after (job.withProgram (p.andThen q)) (k + j) m
      = after (job.withProgram (p.andThen q)) j m' := by rw [after_add, (h.andThen q).after_eq]
    _ = after (job.withProgram (p.andThen q)) j (m'.restarted.shift p.size m'.steps) :=
        congrArg _ (eq_shift_restarted hnext hrunning)
    _ = (after (job.withProgram q) j m'.restarted).shift p.size m'.steps :=
        after_shift nolimit p m'.steps j m'.restarted

/-- Two sources with a newline between them run one after the other.

Up to the end of the first program the whole one answers every step as the first one does and is
left with the same machine. If the first one completes after `k` instructions, the whole one is then
at the index `p.program.size`, and from there on it answers as the second one does from that tape,
those streams and that state of the host, with its instructions `p.program.size` further on and `k`
steps counted before. -/
theorem steps_of_concatenation {a b : String} (ha : checkBrackets a = .ok ())
    (hb : checkBrackets b = .ok ()) (settings : CompilerSettings) :
    ∃ p q r, compile settings a = .ok p ∧ compile settings b = .ok q ∧
      compile settings (a ++ "\n" ++ b) = .ok r ∧
      ∀ {n : Nat} {σ : Type} (bounds : BoundsPolicy) (host : Host σ) (tape : Tape n)
        (streams : Streams) (state : σ),
        let job (c : Compiled) : Job σ := { program := c.program, bounds, host }
        let m₀ : Machine n σ := { tape, streams, state }
        (∀ k, (after (job p) (k + 1) m₀).status ≠ .halted .completed →
          after (job r) (k + 1) m₀ = after (job p) (k + 1) m₀ ∧
            ((after (job r) k m₀).step (job r)).1 = ((after (job p) k m₀).step (job p)).1) ∧
        ∀ k m₁, Steps (job p) k m₀ m₁ → (m₁.step (job p)).1 = .ok (some .completed) →
          m₁.next = p.program.size ∧ m₁.steps = k ∧ Steps (job r) k m₀ m₁ ∧
          ∀ j, after (job r) (k + j) m₀ =
              (after (job q) j m₁.restarted).shift p.program.size k ∧
            ((after (job r) (k + j) m₀).step (job r)).1 =
              StepResult.shift p.program.size ((after (job q) j m₁.restarted).step (job q)).1 := by
  have ⟨p, hp⟩ : ∃ p, compile settings a = .ok p := by
    obtain ⟨_, -, hp⟩ := compile_of_checkBrackets ha settings
    exact ⟨_, hp⟩
  have ⟨q, hq⟩ : ∃ q, compile settings b = .ok q := by
    obtain ⟨_, -, hq⟩ := compile_of_checkBrackets hb settings
    exact ⟨_, hq⟩
  obtain ⟨r, hr, hprogram⟩ := compile_append hp hq
  refine ⟨p, q, r, hp, hq, hr, ?_⟩
  intro n σ bounds host tape streams state job m₀
  have linked : p.program.WellLinked := wellLinked_of_compile hp
  have hboth : job r = (job p).withProgram (p.program.andThen q.program) :=
    congrArg (fun program : Program => ({ program, bounds, host } : Job σ)) hprogram
  rw [hboth]
  constructor
  · intro k hk
    exact ⟨after_andThen q.program hk, congrArg Prod.fst (step_after_andThen q.program hk)⟩
  · intro k m₁ hsteps hcompletes
    have hstart : m₀.next ≤ p.program.size := Nat.zero_le _
    have hfirst : Steps ((job p).withProgram p.program) k m₀ m₁ := hsteps
    obtain ⟨hnext, -⟩ := hfirst.next_eq_size linked hstart rfl hcompletes
    have hcount : m₁.steps = k := hsteps.steps_eq.trans (Nat.zero_add k)
    refine ⟨hnext, hcount, hfirst.andThen q.program, ?_⟩
    intro j
    have hmachine := hfirst.after_andThen rfl linked hstart rfl hcompletes q.program j
    rw [hcount] at hmachine
    refine ⟨hmachine, ?_⟩
    rw [hmachine, step_shift rfl]
    rfl

/-- The second program leaves the tape with its last instruction, which is the fourth of its own and
the fifth of all. -/
theorem steps_of_concatenation_off_tape :
    ∃ p q r, compile {} "+" = .ok p ∧ compile {} "[-]<" = .ok q ∧ compile {} "+\n[-]<" = .ok r ∧
      let job (c : Compiled) : Job Unit := { program := c.program, host := .silent }
      let m₀ : Machine 1 Unit := { tape := ⟨#v[0], 0⟩, streams := {}, state := () }
      after (job r) 1 m₀ = after (job p) 1 m₀ ∧
      ∃ m₁, Steps (job p) 1 m₀ m₁ ∧ (m₁.step (job p)).1 = .ok (some .completed) ∧
        m₁.next = 1 ∧
        (after (job q) 4 m₁.restarted).status = .halted (.outOfBounds 3 (-1)) ∧
        (after (job r) 5 m₀).status = .halted (.outOfBounds 4 (-1)) := by
  let p : Compiled := ⟨⟨#[.run .increment 1]⟩, []⟩
  let q : Compiled :=
    ⟨⟨#[.loopOpen 2, .run .decrement 1, .loopClose 0, .run .moveLeft 1]⟩, []⟩
  have hp : compile {} "+" = .ok p := by with_unfolding_all rfl
  have hq : compile {} "[-]<" = .ok q := by with_unfolding_all rfl
  obtain ⟨p', q', r, hp', hq', hr, hruns⟩ := steps_of_concatenation
    (checkBrackets_of_compile hp) (checkBrackets_of_compile hq) {}
  obtain rfl : p' = p := Except.ok.inj (hp'.symm.trans hp)
  obtain rfl : q' = q := Except.ok.inj (hq'.symm.trans hq)
  refine ⟨p, q, r, hp, hq, hr, ?_⟩
  intro job m₀
  obtain ⟨hfirst, hsecond⟩ := hruns .halt Host.silent m₀.tape {} ()
  let m₁ : Machine 1 Unit := { m₀ with next := 1, steps := 1, tape := ⟨#v[1], 0⟩ }
  have hsteps : Steps (job p) 1 m₀ m₁ := .cons rfl .nil
  obtain ⟨hnext, -, -, hlater⟩ := hsecond 1 m₁ hsteps rfl
  have hleaves : (after (job q) 4 m₁.restarted).status = .halted (.outOfBounds 3 (-1)) := by
    decide +zetaReduce +kernel
  refine ⟨(hfirst 0 (by decide +zetaReduce +kernel)).1, m₁, hsteps, rfl, hnext, hleaves, ?_⟩
  rw [(hlater 4).1]
  exact congrArg (Status.renumber (· + 1)) hleaves

end Machine

end TapeMachine
