import TapeMachine.Proofs.Machine.Bounds
import TapeMachine.Proofs.Machine.CutShort

/-!
# The two policies

Under both policies a machine does the same at every step, and only what it answers to the step that
leaves the tape is different (`step_of_leavesTape`, `step_of_not_leavesTape`). There is one such
step at most, since the machine has halted behind it. So two runs to the end are the same too, if
they do not leave the tape; if they do, one flushes the output and succeeds while the other fails
(`execute_policies`).
-/

namespace TapeMachine

/-- The job under another policy. -/
def Job.withBounds {σ : Type} (job : Job σ) (bounds : BoundsPolicy) : Job σ := { job with bounds }

namespace Machine

variable {n : Nat} {σ : Type} {job : Job σ} {m m' : Machine n σ} {i : Nat} {target : Int}

/-- The next step brings the running machine to a halt off the tape, at the instruction `i` that
would have moved the head to `target`. -/
def LeavesTape (job : Job σ) (m : Machine n σ) (i : Nat) (target : Int) : Prop :=
  m.status = .running ∧ (m.step job).2.status = .halted (.outOfBounds i target)

/-! ## One step -/

/-- A move off the tape, under either policy. -/
theorem step_of_move_off {op : Operator} {count : Nat} {offset : Int}
    (running : m.status = .running)
    (here : job.program.instructions[m.next]? = some (.run op count))
    (allowed : m.limitReached? job = none) (move : op.offset? count = some offset)
    (off : m.tape.moveTo? (m.tape.target offset) = none) (bounds : BoundsPolicy) :
    m.step (job.withBounds bounds) =
      (match bounds with
        | .halt => .ok (some (.outOfBounds m.next (m.tape.target offset)))
        | .error => .error (.outOfBounds m.next (m.tape.target offset) n),
      { m with
        next := m.next + 1
        steps := m.steps + 1
        status := .halted (.outOfBounds m.next (m.tape.target offset)) }) := by
  have hstep : m.step (job.withBounds bounds) = _ := step_of_instruction running here allowed
  rw [hstep]
  have hmove : { m with steps := m.steps + 1 }.moveBy bounds offset = _ :=
    moveBy_of_off (m := { m with steps := m.steps + 1 }) off bounds
  cases op with
  | moveRight =>
    obtain rfl := Option.some.inj move
    exact hmove
  | moveLeft =>
    obtain rfl := Option.some.inj move
    exact hmove
  | increment => contradiction
  | decrement => contradiction
  | output => contradiction
  | input => contradiction

/-- An instruction that does not move the head off the tape does not depend on the policy. -/
theorem perform_withBounds {x : Instruction} (bounds : BoundsPolicy)
    (stays : ∀ op count offset, x = .run op count → op.offset? count = some offset →
      m.tape.moveTo? (m.tape.target offset) ≠ none) :
    m.perform (job.withBounds bounds) x = m.perform job x := by
  have hmove : ∀ op count offset, x = .run op count → op.offset? count = some offset →
      m.moveBy bounds offset = m.moveBy job.bounds offset := by
    intro op count offset hx hoffset
    obtain ⟨tape, inside⟩ := Option.ne_none_iff_exists'.mp (stays op count offset hx hoffset)
    rw [moveBy_of_moveTo? inside, moveBy_of_moveTo? inside]
  cases x with
  | run op count =>
    cases op with
    | moveRight => exact hmove _ count _ rfl rfl
    | moveLeft => exact hmove _ count _ rfl rfl
    | increment => rfl
    | decrement => rfl
    | output => rfl
    | input => rfl
  | loopOpen close => rfl
  | loopClose opening => rfl
  | call name argument => rfl

/-- The step that leaves the tape is a success under one policy and an error under the other, and
what it leaves of the machine is the same. -/
theorem step_of_leavesTape (h : LeavesTape (job.withBounds .halt) m i target) :
    m.step (job.withBounds .halt) =
        (.ok (some (.outOfBounds i target)), (m.step (job.withBounds .halt)).2) ∧
      m.step (job.withBounds .error) =
        (.error (.outOfBounds i target n), (m.step (job.withBounds .halt)).2) := by
  obtain ⟨running, hstatus⟩ := h
  have ht := transition_step (job.withBounds .halt) m
  generalize hanswer : (m.step (job.withBounds .halt)).1 = answer at ht
  generalize hafter : (m.step (job.withBounds .halt)).2 = m' at ht hstatus ⊢
  cases ht with
  | halted rest => simp [rest] at running
  | aborted rest => simp [rest] at running
  | completes => simp at hstatus
  | exceeds => simp [running] at hstatus
  | goesOn _ _ _ _ _ status => simp [status] at hstatus
  | fails _ _ _ _ _ _ status => simp [status] at hstatus
  | leaves _ here allowed move off =>
    simp only [Status.halted.injEq, Halt.outOfBounds.injEq] at hstatus
    obtain ⟨rfl, rfl⟩ := hstatus
    exact ⟨step_of_move_off running here allowed move off .halt,
      step_of_move_off running here allowed move off .error⟩

/-- A step that does not leave the tape is the same under both policies. -/
theorem step_of_not_leavesTape (h : ∀ i target, ¬LeavesTape (job.withBounds .halt) m i target) :
    m.step (job.withBounds .error) = m.step (job.withBounds .halt) := by
  cases hstatus : m.status with
  | halted halt => rw [step_of_halted hstatus, step_of_halted hstatus]
  | aborted i => rw [step_of_aborted hstatus, step_of_aborted hstatus]
  | running =>
    cases here : job.program.instructions[m.next]? with
    | none =>
      have hend : ∀ bounds, m.step (job.withBounds bounds) = _ :=
        fun bounds => step_of_end hstatus here
      rw [hend, hend]
    | some x =>
      cases allowed : m.limitReached? job with
      | some limit =>
        have hstop : ∀ bounds, m.step (job.withBounds bounds) =
            (.error (.stepLimitExceeded limit), m) := by
          intro bounds
          have here' : (job.withBounds bounds).program.instructions[m.next]? = some x := here
          exact step_of_limit hstatus here' allowed
        rw [hstop, hstop]
      | none =>
        have hinstruction : ∀ bounds, m.step (job.withBounds bounds) = m.step job := by
          intro bounds
          have hstep : m.step (job.withBounds bounds) = _ :=
            step_of_instruction hstatus here allowed
          rw [hstep, step_of_instruction hstatus here allowed]
          apply perform_withBounds
          intro op count offset hx move off
          subst hx
          have hleaves := step_of_move_off hstatus here allowed move off .halt
          exact h _ _ ⟨hstatus, by rw [hleaves]⟩
        rw [hinstruction, hinstruction]

/-- Both policies leave the same machine after every step. -/
theorem step_policies (job : Job σ) (m : Machine n σ) :
    (m.step (job.withBounds .error)).2 = (m.step (job.withBounds .halt)).2 := by
  by_cases h : ∃ i target, LeavesTape (job.withBounds .halt) m i target
  · obtain ⟨i, target, hleaves⟩ := h
    rw [(step_of_leavesTape hleaves).2]
  · rw [step_of_not_leavesTape fun i target hleaves => h ⟨i, target, hleaves⟩]

/-! ## Any number of steps -/

theorem after_policies (job : Job σ) (k : Nat) (m : Machine n σ) :
    after (job.withBounds .error) k m = after (job.withBounds .halt) k m := by
  induction k generalizing m with
  | zero => rfl
  | succ k ih => rw [after, after, step_policies, ih]

/-- A machine that has left the tape does not leave it again. -/
theorem not_leavesTape_after (h : LeavesTape job m i target) (k j : Nat) (target' : Int) :
    ¬LeavesTape job (after job (k + 1) m) j target' := by
  intro hagain
  have hrest : AtRest job (m.step job).2 _ := .halted h.2
  rw [after, hrest.after_eq, LeavesTape, h.2] at hagain
  exact absurd hagain.1 (by simp)

/-- No two of the calls leave the tape. -/
theorem leavesTape_unique {j k i' : Nat} {target' : Int}
    (hj : LeavesTape job (after job j m) i target)
    (hk : LeavesTape job (after job k m) i' target') : j = k := by
  rcases Nat.lt_trichotomy j k with hlt | rfl | hlt
  · obtain ⟨d, rfl⟩ := Nat.exists_eq_add_of_lt hlt
    rw [Nat.add_assoc, after_add] at hk
    exact absurd hk (not_leavesTape_after hj d _ _)
  · rfl
  · obtain ⟨d, rfl⟩ := Nat.exists_eq_add_of_lt hlt
    rw [Nat.add_assoc, after_add] at hj
    exact absurd hj (not_leavesTape_after hk d _ _)

/-! ## Runs to the end -/

theorem onTape_step (hm : OnTape m) (h : ∀ i target, ¬LeavesTape job m i target) :
    OnTape (m.step job).2 := by
  intro i target hafter
  cases hstatus : m.status with
  | running => exact h i target ⟨hstatus, hafter⟩
  | halted halt =>
    rw [step_of_halted hstatus] at hafter
    exact hm i target hafter
  | aborted j =>
    rw [step_of_aborted hstatus, hstatus] at hafter
    contradiction

/-- An output without failures in store does not come to have any. -/
theorem faultsAhead_step_of_calm (job : Job σ) (h : m.streams.faultsAhead = 0) :
    (m.step job).2.streams.faultsAhead = 0 := by
  rcases step_calm_cases job m with ⟨-, hahead, -⟩ | ⟨-, hahead, -⟩
  · exact hahead.trans h
  · rw [h] at hahead
    contradiction

theorem finish_of_calm (h : m.streams.faultsAhead = 0) (halt : Halt) :
    ∃ m', m.finish halt = (.ok halt, m') := by
  rcases finish_calm_cases m halt with ⟨hresult, -, -⟩ | ⟨-, hahead, -⟩
  · exact ⟨_, Prod.ext hresult rfl⟩
  · rw [h] at hahead
    contradiction

/-- A policy that halts knows no error off the tape. -/
theorem step_ne_outOfBounds (job : Job σ) (m : Machine n σ) (i : Nat) (target : Int)
    (cells : Nat) : (m.step (job.withBounds .halt)).1 ≠ .error (.outOfBounds i target cells) := by
  intro h
  have ht := transition_step (job.withBounds .halt) m
  generalize (m.step (job.withBounds .halt)).2 = m' at ht
  rw [h] at ht
  cases ht with
  | leaves _ _ _ _ _ answer => contradiction

/-- Two runs on an output that does not fail are the same, or both leave the tape. -/
theorem execute_policies (job : Job σ) (hcalm : m.streams.faultsAhead = 0) (hm : OnTape m)
    (fuel : Nat) :
    (m.execute (job.withBounds .error) fuel = m.execute (job.withBounds .halt) fuel ∧
      ∀ r m', m.execute (job.withBounds .halt) fuel = some (r, m') →
        ∀ i target cells, r ≠ .ok (.outOfBounds i target) ∧
          r ≠ .error (.outOfBounds i target cells)) ∨
    ∃ i target m₁ m₂,
      m.execute (job.withBounds .halt) fuel = some (.ok (.outOfBounds i target), m₁) ∧
      m.execute (job.withBounds .error) fuel = some (.error (.outOfBounds i target n), m₂) := by
  induction fuel generalizing m with
  | zero => exact .inl ⟨rfl, nofun⟩
  | succ fuel ih =>
    have hcalm' := faultsAhead_step_of_calm (job.withBounds .halt) hcalm
    by_cases h : ∃ i target, LeavesTape (job.withBounds .halt) m i target
    · -- Only here the runs part: one goes on to flush the output, which succeeds.
      obtain ⟨i, target, hleaves⟩ := h
      obtain ⟨hhalting, hfailing⟩ := step_of_leavesTape hleaves
      obtain ⟨m', hfinish⟩ := finish_of_calm hcalm' (.outOfBounds i target)
      refine .inr ⟨i, target, m', (m.step (job.withBounds .halt)).2, ?_, ?_⟩
      · rw [execute, hhalting]
        exact congrArg some hfinish
      · rw [execute, hfailing]
    · have hstays : ∀ i target, ¬LeavesTape (job.withBounds .halt) m i target :=
        fun i target hleaves => h ⟨i, target, hleaves⟩
      have hsame := step_of_not_leavesTape hstays
      have hm' := onTape_step hm hstays
      have ht := transition_step (job.withBounds .halt) m
      have herror := step_ne_outOfBounds job m
      rw [execute, execute, hsame]
      generalize m.step (job.withBounds .halt) = x at hcalm' hm' ht herror ⊢
      rcases x with ⟨e | _ | halt, m₁⟩
      · refine .inl ⟨rfl, ?_⟩
        intro r m' hr i target cells
        obtain ⟨rfl, rfl⟩ := Prod.mk.inj (Option.some.inj hr)
        exact ⟨by simp, fun he => herror i target cells (by rw [Except.error.inj he])⟩
      · exact ih hcalm' hm'
      · obtain ⟨m', hfinish⟩ := finish_of_calm hcalm' halt
        refine .inl ⟨rfl, ?_⟩
        intro r m'' hr i target cells
        obtain ⟨rfl, rfl⟩ := Prod.mk.inj (hfinish.symm.trans (Option.some.inj hr))
        refine ⟨?_, by simp⟩
        -- What the run returns is recorded in the machine, which is still on the tape.
        intro hoff
        apply hm' i target
        rw [ht.status_of_halt, Except.ok.inj hoff]

/-- The two policies describe one execution.

After every number of steps the machines are the same, and so is what the next step answers, unless
it leaves the tape; that one step succeeds with a halt under one policy and fails with the error
that names the same instruction and the same target under the other. It is the only such step. Of
two runs to the end, on an output that does not fail, one returns this halt if and only if the other
returns this error, and if neither does they return the same. -/
theorem run_under_either_policy (program : Program) (settings : MachineSettings) (host : Host σ)
    (state : σ) (streams : Streams) :
    let job : Job σ := .ofSettings settings program host
    let halting := job.withBounds .halt
    let failing := job.withBounds .error
    let m₀ := start settings streams state
    (∀ k, after failing k m₀ = after halting k m₀) ∧
    (∀ k i target, LeavesTape halting (after halting k m₀) i target →
      ((after halting k m₀).step halting).1 = .ok (some (.outOfBounds i target)) ∧
      ((after failing k m₀).step failing).1 =
        .error (.outOfBounds i target settings.cells)) ∧
    (∀ k, (∀ i target, ¬LeavesTape halting (after halting k m₀) i target) →
      ((after failing k m₀).step failing).1 = ((after halting k m₀).step halting).1) ∧
    (∀ j k i target i' target', LeavesTape halting (after halting j m₀) i target →
      LeavesTape halting (after halting k m₀) i' target' → j = k) ∧
    (streams.faultsAhead = 0 → ∀ fuel,
      (∀ i target,
        (∃ m, m₀.execute halting fuel = some (.ok (.outOfBounds i target), m)) ↔
          ∃ m, m₀.execute failing fuel =
            some (.error (.outOfBounds i target settings.cells), m)) ∧
      ((∀ i target m, m₀.execute halting fuel ≠ some (.ok (.outOfBounds i target), m)) →
        m₀.execute failing fuel = m₀.execute halting fuel)) := by
  intro job halting failing m₀
  refine ⟨fun k => after_policies job k m₀, ?_, ?_, ?_, ?_⟩
  · intro k i target hleaves
    obtain ⟨hhalting, hfailing⟩ := step_of_leavesTape hleaves
    rw [after_policies]
    exact ⟨congrArg Prod.fst hhalting, congrArg Prod.fst hfailing⟩
  · intro k hstays
    rw [after_policies]
    exact congrArg Prod.fst (step_of_not_leavesTape hstays)
  · intro j k i target i' target' hj hk
    exact leavesTape_unique hj hk
  · intro hcalm fuel
    have hstart : OnTape m₀ := onTape_of_running rfl
    rcases execute_policies job hcalm hstart fuel with
      ⟨hsame, hstays⟩ | ⟨i, target, m₁, m₂, hhalting, hfailing⟩
    · refine ⟨?_, fun _ => hsame⟩
      intro i target
      constructor
      · rintro ⟨m, hm⟩
        exact absurd rfl (hstays _ m hm i target 0).1
      · rintro ⟨m, hm⟩
        rw [hsame] at hm
        exact absurd rfl (hstays _ m hm i target settings.cells).2
    · refine ⟨?_, fun hnone => absurd hhalting (hnone i target m₁)⟩
      intro i' target'
      constructor
      · rintro ⟨m, hm⟩
        have hsame := Option.some.inj (hm.symm.trans hhalting)
        simp only [Prod.mk.injEq, Except.ok.injEq, Halt.outOfBounds.injEq] at hsame
        obtain ⟨⟨rfl, rfl⟩, -⟩ := hsame
        exact ⟨m₂, hfailing⟩
      · rintro ⟨m, hm⟩
        have hsame := Option.some.inj (hm.symm.trans hfailing)
        simp only [Prod.mk.injEq, Except.error.injEq, RuntimeError.outOfBounds.injEq] at hsame
        obtain ⟨⟨rfl, rfl, -⟩, -⟩ := hsame
        exact ⟨m₁, hhalting⟩

/-- The second instruction leaves a tape of one cell. -/
theorem run_under_either_policy_second_instruction :
    ∃ c, compile {} "+<" = .ok c ∧
      let job : Job Unit := .ofSettings { memorySize := 1 } c.program .silent
      let m₀ := start { memorySize := 1 } {} ()
      LeavesTape (job.withBounds .halt) (after (job.withBounds .halt) 1 m₀) 1 (-1) ∧
      ((after (job.withBounds .error) 1 m₀).step (job.withBounds .error)).1 =
        .error (.outOfBounds 1 (-1) 1) ∧
      ((after (job.withBounds .error) 0 m₀).step (job.withBounds .error)).1 = .ok none ∧
      ((after (job.withBounds .error) 2 m₀).step (job.withBounds .error)).1 =
        .ok (some (.outOfBounds 1 (-1))) ∧
      (∃ m, m₀.execute (job.withBounds .error) 2 = some (.error (.outOfBounds 1 (-1) 1), m)) ∧
      m₀.execute (job.withBounds .error) 1 = m₀.execute (job.withBounds .halt) 1 := by
  have hcompile : compile {} "+<" = .ok ⟨⟨#[.run .increment 1, .run .moveLeft 1]⟩, []⟩ := by
    with_unfolding_all rfl
  refine ⟨_, hcompile, ?_⟩
  intro job m₀
  obtain ⟨-, hleaving, hstaying, honce, hruns⟩ :=
    run_under_either_policy ⟨#[.run .increment 1, .run .moveLeft 1]⟩ { memorySize := 1 } .silent ()
      {}
  have hleaves : LeavesTape (job.withBounds .halt) (after (job.withBounds .halt) 1 m₀) 1 (-1) :=
    ⟨rfl, rfl⟩
  refine ⟨hleaves, (hleaving 1 1 (-1) hleaves).2, ?_, ?_, ?_, ?_⟩
  · refine hstaying 0 ?_
    intro i target hother
    exact absurd (honce 0 1 i target 1 (-1) hother hleaves) (by decide)
  · refine hstaying 2 ?_
    intro i target hother
    exact absurd (honce 2 1 i target 1 (-1) hother hleaves) (by decide)
  · exact ((hruns rfl 2).1 1 (-1)).mp ⟨_, rfl⟩
  · refine (hruns rfl 1).2 ?_
    intro i target m hm
    contradiction

end Machine

end TapeMachine
