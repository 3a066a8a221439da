import TapeMachine.Proofs.Machine.Following
import TapeMachine.Proofs.Machine.Renumbering
import TapeMachine.Proofs.Program.Expansion
import TapeMachine.Proofs.Program.Links

/-!
# Runs of expanded programs

In a program some instructions are replaced by others, or by none, that together do the same. Then a
machine with the expanded program follows one with the program (`follows_expand`): where an
instruction was kept both take the same step, but for indices, and where it was replaced the second
machine takes as many steps as there are instructions in its place.
-/

namespace TapeMachine

/-- The job with other instructions in the place of those of its program. -/
def Job.expand {σ : Type} (X : Instruction → List Instruction) (job : Job σ) : Job σ :=
  { job with program := job.program.expand X }

namespace Machine

variable {n : Nat} {σ α : Type} {job job' : Job σ} {r : Nat → Nat} {steps : Nat}
  {m m' : Machine n σ}

/-! ## The end of a run under other indices -/

/-- What a run comes to, with other indices. -/
def renumberEnd (r : Nat → Nat) (steps : Nat) (x : Except RuntimeError Halt × Machine n σ) :
    Except RuntimeError Halt × Machine n σ :=
  ((x.1.map (.renumber r)).mapError (.renumber r), x.2.renumber r steps)

theorem finish_renumber (m : Machine n σ) (halt : Halt) :
    (m.renumber r steps).finish (halt.renumber r) = renumberEnd r steps (m.finish halt) := by
  unfold finish
  simp only [streams_renumber]
  rcases m.streams.flush with ⟨_ | fault, streams⟩ <;> rfl

/-- If two machines take the same step, but for indices, both go on or both end. -/
theorem goesOn_or_ends_of_renumberStep (h : m'.step job' = renumberStep r steps (m.step job)) :
    (∃ m₁, m.step job = (.ok none, m₁) ∧ m'.step job' = (.ok none, m₁.renumber r steps)) ∨
      ∃ x, m.execute job 1 = some x ∧ m'.execute job' 1 = some (renumberEnd r steps x) := by
  rcases hstep : m.step job with ⟨error | _ | halt, m₁⟩
  · rw [hstep] at h
    refine .inr ⟨(.error error, m₁), ?_, ?_⟩
    · rw [execute, hstep]
    · rw [execute, h]
      rfl
  · rw [hstep] at h
    exact .inl ⟨m₁, rfl, h⟩
  · rw [hstep] at h
    refine .inr ⟨m₁.finish halt, ?_, ?_⟩
    · rw [execute, hstep]
    · rw [execute, h, ← finish_renumber]
      rfl

/-! ## Instructions in the place of others -/

/-- What stands in the place of an instruction does what the instruction does: it is the same
instruction, or it goes on, as the instruction does, to what is next. -/
def Replaces (X : Instruction → List Instruction) (job : Job σ) (n : Nat) : Prop :=
  ∀ ⦃m : Machine n σ⦄ ⦃x : Instruction⦄, m.status = .running →
    job.program.instructions[m.next]? = some x →
    x.expand X (job.program.place X) = [x.renumber (job.program.place X)] ∨
      ∃ m₁, m.step job = (.ok none, m₁) ∧ m₁.next = m.next + 1 ∧ ∀ steps, ∃ steps',
        Steps (job.expand X) (x.width X) (m.renumber (job.program.place X) steps)
          (m₁.renumber (job.program.place X) steps')

variable {X : Instruction → List Instruction}

/-- Nothing need stand in the place of an instruction that is passed over. -/
theorem replaces_of_passedOver (h : ∀ ⦃m : Machine n σ⦄ ⦃x : Instruction⦄, m.status = .running →
    job.program.instructions[m.next]? = some x →
      x.expand X (job.program.place X) = [x.renumber (job.program.place X)] ∨
        x.expand X (job.program.place X) = [] ∧
          m.step job = (.ok none, { m with next := m.next + 1, steps := m.steps + 1 })) :
    Replaces X job n := by
  intro m x running here
  rcases h running here with hkept | ⟨hnone, hstep⟩
  · exact .inl hkept
  · have hwidth : x.width X = 0 := by
      rw [← Instruction.length_expand, hnone]
      rfl
    have hplace := Program.place_succ (X := X) here
    rw [hwidth, Nat.add_zero] at hplace
    refine .inr ⟨_, hstep, rfl, fun steps => ⟨steps, ?_⟩⟩
    rw [hwidth, renumber, renumber, hplace]
    exact .nil

/-- Behind an instruction that was kept is the place of the next one. -/
theorem place_succ_of_kept {p : Program} {i : Nat} {x : Instruction}
    (here : p.instructions[i]? = some x) (kept : x.expand X r = [x.renumber r]) :
    p.place X (i + 1) = p.place X i + 1 := by
  rw [p.place_succ here, ← Instruction.length_expand (r := r), kept]
  rfl

/-- An instruction that was kept is carried out in the same way by both machines. -/
theorem step_expand_of_kept (linked : job.program.WellLinked) (nolimit : job.maxSteps = none)
    {x : Instruction} (running : m.status = .running)
    (here : job.program.instructions[m.next]? = some x)
    (kept : x.expand X (job.program.place X) = [x.renumber (job.program.place X)]) :
    (m.renumber (job.program.place X) steps).step (job.expand X) =
      renumberStep (job.program.place X) (steps + 1) (m.step job) := by
  have hwidth : x.width X = 1 := by
    rw [← Instruction.length_expand (r := job.program.place X), kept]
    rfl
  have hthere : (job.expand X).program.instructions[job.program.place X m.next]? =
      some (x.renumber (job.program.place X)) := by
    have hfirst := Program.expand_getElem? here (hwidth ▸ Nat.one_pos : 0 < x.width X)
    rwa [kept] at hfirst
  have hother : (m.renumber (job.program.place X) steps).status = .running :=
    running_renumber running
  rw [step_of_instruction running here (limitReached?_eq_none nolimit m),
    step_of_instruction hother hthere (limitReached?_eq_none nolimit _)]
  refine perform_renumber (m := { m with steps := m.steps + 1 })
    (place_succ_of_kept here kept) rfl rfl ?_
  -- The ends of a loop are kept, whatever is put in the place of other instructions.
  rintro j (rfl | rfl)
  · exact place_succ_of_kept (linked.opening m.next j here).2.2 (r := job.program.place X) rfl
  · exact place_succ_of_kept (linked.closing m.next j here).2 (r := job.program.place X) rfl

/-- The two machines take the same step, but for indices, or the first carries out an instruction
that was replaced and the second what stands in its place. -/
theorem step_expand_cases (linked : job.program.WellLinked) (nolimit : job.maxSteps = none)
    (replaces : Replaces X job n) (m : Machine n σ) (steps : Nat) :
    (∃ steps', (m.renumber (job.program.place X) steps).step (job.expand X) =
      renumberStep (job.program.place X) steps' (m.step job)) ∨
    ∃ (m₁ : Machine n σ) (x : Instruction) (steps' : Nat), m.step job = (.ok none, m₁) ∧
      job.program.size - m₁.next < job.program.size - m.next ∧
      Steps (job.expand X) (x.width X) (m.renumber (job.program.place X) steps)
        (m₁.renumber (job.program.place X) steps') := by
  cases hstatus : m.status with
  | halted halt =>
    have hother : (m.renumber (job.program.place X) steps).status =
        .halted (halt.renumber (job.program.place X)) := by rw [status_renumber, hstatus]; rfl
    rw [step_of_halted hstatus, step_of_halted hother]
    exact .inl ⟨steps, rfl⟩
  | aborted i =>
    have hother : (m.renumber (job.program.place X) steps).status =
        .aborted (job.program.place X i) := by rw [status_renumber, hstatus]; rfl
    rw [step_of_aborted hstatus, step_of_aborted hother]
    exact .inl ⟨steps, rfl⟩
  | running =>
    cases here : job.program.instructions[m.next]? with
    | none =>
      have hother : (m.renumber (job.program.place X) steps).status = .running :=
        running_renumber hstatus
      have hend : (job.expand X).program.instructions[job.program.place X m.next]? = none :=
        Program.expand_getElem?_end here
      rw [step_of_end hstatus here, step_of_end hother hend]
      exact .inl ⟨steps, rfl⟩
    | some x =>
      rcases replaces hstatus here with hkept | ⟨m₁, hstep, hnext, hsteps⟩
      · exact .inl ⟨steps + 1, step_expand_of_kept linked nolimit hstatus here hkept⟩
      · obtain ⟨steps', hsteps⟩ := hsteps steps
        have hlt := job.program.lt_size_of_getElem? here
        exact .inr ⟨m₁, x, steps', hstep, by omega, hsteps⟩

/-- A machine with the expanded program follows the machine with the program. -/
theorem follows_expand (linked : job.program.WellLinked) (nolimit : job.maxSteps = none)
    (replaces : Replaces X job n) {f g : Except RuntimeError Halt × Machine n σ → α}
    (observed : ∀ steps x, f x = g (renumberEnd (job.program.place X) steps x)) :
    Follows job (job.expand X)
      (fun m m' : Machine n σ => ∃ steps, m' = m.renumber (job.program.place X) steps)
      (fun m => job.program.size - m.next) f g := by
  rintro m _ ⟨steps, rfl⟩
  rcases step_expand_cases linked nolimit replaces m steps with
    ⟨steps', halike⟩ | ⟨m₁, x, steps', hstep, hleft, hsteps⟩
  · rcases goesOn_or_ends_of_renumberStep halike with
      ⟨m₁, hfirst, hsecond⟩ | ⟨x, hfirst, hsecond⟩
    · exact .inl ⟨m₁, 1, _, hfirst, .cons hsecond .nil, ⟨steps', rfl⟩, .inl Nat.one_pos⟩
    · exact .inr ⟨x, _, hfirst, hsecond, observed steps' x⟩
  · exact .inl ⟨m₁, x.width X, _, hstep, hsteps, ⟨steps', rfl⟩, .inr hleft⟩

/-- A run of the program is one of the expanded program, with more steps or fewer. -/
theorem Steps.expand (linked : job.program.WellLinked) (nolimit : job.maxSteps = none)
    (replaces : Replaces X job n) {k : Nat} {m₁ : Machine n σ} (h : Steps job k m m₁)
    (steps : Nat) :
    ∃ k' steps', Steps (job.expand X) k' (m.renumber (job.program.place X) steps)
      (m₁.renumber (job.program.place X) steps') := by
  induction h generalizing steps with
  | nil => exact ⟨0, steps, .nil⟩
  | @cons k m m₂ m₁ step _ ih =>
    rcases step_expand_cases linked nolimit replaces m steps with
      ⟨steps', halike⟩ | ⟨m', x, steps', hstep, -, hsteps⟩
    · obtain ⟨k', steps₁, hrest⟩ := ih steps'
      rw [step] at halike
      exact ⟨k' + 1, steps₁, .cons halike hrest⟩
    · obtain ⟨k', steps₁, hrest⟩ := ih steps'
      obtain rfl := (Prod.mk.inj (step.symm.trans hstep)).2
      exact ⟨x.width X + k', steps₁, hsteps.append hrest⟩

/-- If no instruction is replaced by more than one, a run of the expanded program is one of the
program. -/
theorem Steps.of_expand (linked : job.program.WellLinked) (nolimit : job.maxSteps = none)
    (replaces : Replaces X job n) (narrow : ∀ x : Instruction, x.width X ≤ 1) {k steps : Nat}
    (h : Steps (job.expand X) k (m.renumber (job.program.place X) steps) m') :
    ∃ k' m₁ steps', Steps job k' m m₁ ∧ m' = m₁.renumber (job.program.place X) steps' := by
  induction k generalizing m steps with
  | zero =>
    cases h
    exact ⟨0, m, steps, .nil, rfl⟩
  | succ k ih =>
    -- An instruction that was taken out brings the machine nearer to the end of its program.
    induction hleft : job.program.size - m.next using Nat.strongRecOn generalizing m steps with
    | ind left ihleft =>
      cases h with
      | @cons _ _ m₂ _ step rest =>
        rcases step_expand_cases linked nolimit replaces m steps with
          ⟨steps', halike⟩ | ⟨m₁, x, steps', hstep, hless, hsteps⟩
        · rcases goesOn_or_ends_of_renumberStep halike with
            ⟨m₁, hstep, hsecond⟩ | ⟨_, -, hends⟩
          · obtain rfl := (Prod.mk.inj (step.symm.trans hsecond)).2
            obtain ⟨k', m₃, steps₁, hrest, rfl⟩ := ih rest
            exact ⟨k' + 1, m₃, steps₁, .cons hstep hrest, rfl⟩
          · rw [execute_of_goesOn step] at hends
            contradiction
        · have hafter := hsteps.after_eq
          rcases Nat.le_one_iff_eq_zero_or_eq_one.mp (narrow x) with hzero | hone
          · have hsame : m.renumber (job.program.place X) steps =
                m₁.renumber (job.program.place X) steps' := by rwa [hzero] at hafter
            have hfrom := Steps.cons step rest
            rw [hsame] at hfrom
            obtain ⟨k', m₃, steps₁, hrest, rfl⟩ := ihleft _ (hleft ▸ hless) hfrom rfl
            exact ⟨k' + 1, m₃, steps₁, .cons hstep hrest, rfl⟩
          · rw [hone, after, step] at hafter
            obtain rfl : m₂ = m₁.renumber (job.program.place X) steps' := hafter
            obtain ⟨k', m₃, steps₁, hrest, rfl⟩ := ih rest
            exact ⟨k' + 1, m₃, steps₁, .cons hstep hrest, rfl⟩

end Machine

end TapeMachine
