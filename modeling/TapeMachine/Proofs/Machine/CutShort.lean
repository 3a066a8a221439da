import TapeMachine.Program.Compile
import TapeMachine.Proofs.Machine.Rest
import TapeMachine.Proofs.Machine.StreamFaults

/-!
# Runs that a fault cuts short

A machine whose output may fail is compared with the same machine on an output that takes everything
(`Machine.calm`). As long as nothing fails the two go on alike, and the first failure stops the one
within the operator that the other is about to carry out (`CutShort`, `step_calm_cases`). So what
was written is at all times a prefix of what the other writes (`output_after_calm`), and
`run_on_failing_output` says how a run can end.
-/

namespace TapeMachine

namespace Machine

variable {n : Nat} {σ : Type} {job : Job σ} {k fuel : Nat} {m m' m₁ : Machine n σ}
  {r : Except RuntimeError Halt}

/-- The machine on streams whose output never fails. -/
def calm (m : Machine n σ) : Machine n σ := m.withStreams m.streams.calm

/-- The machine `m` was given up in the middle of the operator that `m₁` is about to carry out: some
of the copies were not written, or the output could not be shown before a read. All else is as it
was. -/
structure CutShort (job : Job σ) (m₁ m : Machine n σ) : Prop where
  running : m₁.status = .running
  allowed : m₁.limitReached? job = none
  status : m.status = .aborted m₁.next
  next : m.next = m₁.next
  tape : m.tape = m₁.tape
  state : m.state = m₁.state
  reads : m.streams.reads = m₁.streams.reads
  output :
    (∃ count, job.program.instructions[m₁.next]? = some (.run .output count) ∧
      ∃ k < count, m.streams.output =
        m₁.streams.output ++ List.replicate k m₁.tape.current.toUInt64.toUInt8) ∨
    (∃ count, job.program.instructions[m₁.next]? = some (.run .input count)) ∧
      m.streams.output = m₁.streams.output

/-! ## One step -/

/-- A step does what it does on an output that never fails, or a fault cuts it short. -/
theorem step_calm_cases (job : Job σ) (m : Machine n σ) :
    (m.calm.step job = ((m.step job).1, (m.step job).2.calm) ∧
      (m.step job).2.streams.faultsAhead = m.streams.faultsAhead ∧
      ∀ i message, (m.step job).1 ≠ .error (.stream i (.write message))) ∨
    (∃ message, (m.step job).1 = .error (.stream m.next (.write message))) ∧
      (m.step job).2.streams.faultsAhead + 1 = m.streams.faultsAhead ∧
      CutShort job m.calm (m.step job).2 := by
  have hserved := m.streams.served_serve (m.demand job)
  rcases hserve : m.streams.serve (m.demand job) with ⟨supply, s'⟩
  have hstreams : (m.step job).2.streams = s' := by rw [streams_step, hserve]
  rw [hserve] at hserved
  generalize hdemand : m.demand job = d at hserved
  cases hserved with
  | met hcalm ahead noFault =>
    -- The same answer on both sides, hence the same step.
    subst hdemand
    refine .inl ⟨?_, by rw [hstreams, ahead], fun i message herror => ?_⟩
    · have hstep := step_withStreams (m := m) (t := m.streams.calm) (by rw [hcalm, hserve])
      rw [hcalm, ← hstreams] at hstep
      exact hstep
    · have hfailure := failure_of_stream_error (Prod.ext herror rfl)
      rw [hserve] at hfailure
      exact noFault message hfailure
  | @cutWrite b count k fault _ short hcalm ahead =>
    obtain ⟨running, allowed, here, rfl⟩ := demand_eq_write hdemand
    rw [step_of_failure (by simp [hdemand]) hserve]
    have hreads := Streams.reads_of_calm_eq hcalm
    have houtput := (Streams.output_of_calm_eq hcalm).trans (Streams.output_wrote ..)
    exact .inr ⟨⟨_, rfl⟩, ahead, running, allowed, rfl, rfl, rfl, rfl, hreads,
      .inl ⟨count, here, k, short, houtput⟩⟩
  | @cutRead count fault _ hcalm ahead =>
    obtain ⟨running, allowed, here⟩ := demand_eq_read hdemand
    rw [step_of_failure (by simp [hdemand]) hserve]
    have hreads := Streams.reads_of_calm_eq hcalm
    have houtput := Streams.output_of_calm_eq hcalm
    exact .inr ⟨⟨_, rfl⟩, ahead, running, allowed, rfl, rfl, rfl, rfl, hreads,
      .inr ⟨⟨count, here⟩, houtput⟩⟩

theorem output_step (job : Job σ) (m : Machine n σ) :
    m.streams.output <+: (m.step job).2.streams.output := by
  rw [streams_step]
  exact m.streams.output_serve _

theorem output_step_calm (job : Job σ) (m : Machine n σ) :
    (m.step job).2.streams.output <+: (m.calm.step job).2.streams.output := by
  rw [streams_step, streams_step]
  exact (m.streams.served_serve _).prefix_output

/-! ## Runs -/

theorem output_after (job : Job σ) (k : Nat) (m : Machine n σ) :
    m.streams.output <+: (after job k m).streams.output := by
  induction k generalizing m with
  | zero => exact List.prefix_rfl
  | succ k ih => exact (output_step job m).trans (ih _)

/-- At all times the same has been written as on an output that never fails, or less. -/
theorem output_after_calm (job : Job σ) (k : Nat) (m : Machine n σ) :
    (after job k m).streams.output <+: (after job k m.calm).streams.output := by
  induction k generalizing m with
  | zero => exact List.prefix_rfl
  | succ k ih =>
    rcases step_calm_cases job m with ⟨hsame, -, -⟩ | ⟨-, -, hcut⟩
    · rw [after, after, hsame]
      exact ih _
    · -- The machine stays as it was given up, the other one goes on to write.
      rw [after, after, (AtRest.aborted hcut.status).after_eq]
      exact (output_step_calm job m).trans (output_after job k _)

/-- What a run has written when it returns is what its steps have written. -/
theorem output_execute (h : m.execute job fuel = some (r, m')) :
    m'.streams.output = (after job fuel m).streams.output :=
  (onlyFlushed_execute h).output

/-- As long as the run goes on, it goes on alike. -/
theorem Steps.calm (h : Steps job k m m') :
    Steps job k m.calm m'.calm ∧ m'.streams.faultsAhead = m.streams.faultsAhead := by
  induction h with
  | nil => exact ⟨.nil, rfl⟩
  | @cons k m m₁ m₂ step rest ih =>
    rcases step_calm_cases job m with ⟨hsame, hahead, -⟩ | ⟨⟨message, herror⟩, -⟩
    · rw [step] at hsame hahead
      exact ⟨.cons hsame ih.1, ih.2.trans hahead⟩
    · rw [step] at herror
      contradiction

/-- The last flush is the same, or a fault of it is reported in place of the halt. -/
theorem finish_calm_cases (m : Machine n σ) (halt : Halt) :
    ((m.finish halt).1 = .ok halt ∧
      m.calm.finish halt = (.ok halt, (m.finish halt).2.calm) ∧
      (m.finish halt).2.streams.faultsAhead = m.streams.faultsAhead) ∨
    (∃ message, (m.finish halt).1 = .error (.stream m.next (.write message))) ∧
      (m.finish halt).2.streams.faultsAhead + 1 = m.streams.faultsAhead ∧
      (m.finish halt).2.calm = m.calm := by
  have hahead := m.streams.faultsAhead_flush
  have hspec := m.streams.flush_spec
  rcases hflush : m.streams.flush with ⟨fault?, streams⟩
  rw [hflush] at hahead hspec
  rcases hspec with ⟨rfl, hcalm⟩ | ⟨fault, rfl, hcalm⟩
  · rw [finish_of_flush hflush]
    exact .inl ⟨rfl, finish_of_flush hcalm halt, hahead⟩
  · rw [finish_of_failed_flush hflush]
    exact .inr ⟨⟨_, rfl⟩, hahead, congrArg m.withStreams hcalm⟩

/-- How the last step of a run compares, together with the flush that may follow it. -/
theorem execute_one_calm_cases (h : m.execute job 1 = some (r, m')) :
    (m'.streams.faultsAhead = m.streams.faultsAhead ∧
      (∀ i message, r ≠ .error (.stream i (.write message))) ∧
      m.calm.execute job 1 = some (r, m'.calm)) ∨
    m'.streams.faultsAhead + 1 = m.streams.faultsAhead ∧
      (∃ message, r = .error (.stream m'.next (.write message))) ∧
      (CutShort job m.calm m' ∨
        ∃ halt m₁, m.calm.execute job 1 = some (.ok halt, m₁) ∧ OnlyFlushed m'.calm m₁) := by
  have hcases := step_calm_cases job m
  rcases execute_cases h with ⟨-, hrest⟩ | ⟨halt, hhalt, hfinish⟩ | ⟨e, hstep, rfl⟩
  · contradiction
  · rw [hhalt] at hcases
    rcases hcases with ⟨hsame, hahead, -⟩ | ⟨⟨message, hfault⟩, -⟩
    · -- The step is the same, and what may fail is the flush behind it.
      have hclean : m.calm.execute job 1 = some ((m.step job).2.calm.finish halt) := by
        rw [execute, hsame]
      rw [← hahead]
      rcases finish_calm_cases (m.step job).2 halt with
        ⟨hresult, hfinished, hahead'⟩ | ⟨⟨message, hresult⟩, hahead', hunchanged⟩
      · rw [hfinish] at hresult hfinished hahead'
        obtain rfl : r = .ok halt := hresult
        exact .inl ⟨hahead', by simp, hclean.trans (congrArg some hfinished)⟩
      · obtain ⟨rfl, -⟩ := finish_spec hfinish
        rw [hfinish] at hresult hahead' hunchanged
        refine .inr ⟨hahead', ⟨message, hresult⟩, .inr ⟨halt, _, hclean, ?_⟩⟩
        rw [hunchanged]
        exact onlyFlushed_flush _
    · contradiction
  · rw [hstep] at hcases
    rcases hcases with ⟨hsame, hahead, hnoFault⟩ | ⟨⟨message, hfault⟩, hahead, hcut⟩
    · refine .inl ⟨hahead, fun i message hr => ?_, by rw [execute, hsame]⟩
      exact hnoFault i message (by rw [Except.error.inj hr])
    · obtain rfl := Except.error.inj hfault
      have hnext : m'.next = m.next := hcut.next
      rw [hnext]
      exact .inr ⟨hahead, ⟨message, rfl⟩, .inl hcut⟩

/-- How a run that returned compares with the run on an output that never fails. -/
theorem execute_calm_cases (h : m.execute job fuel = some (r, m')) :
    (m'.streams.faultsAhead = m.streams.faultsAhead ∧
      (∀ i message, r ≠ .error (.stream i (.write message))) ∧
      m.calm.execute job fuel = some (r, m'.calm)) ∨
    m'.streams.faultsAhead + 1 = m.streams.faultsAhead ∧
      (∃ message, r = .error (.stream m'.next (.write message))) ∧
      ((∃ k m₁, Steps job k m.calm m₁ ∧ CutShort job m₁ m') ∨
        ∃ halt m₁, m.calm.execute job fuel = some (.ok halt, m₁) ∧ OnlyFlushed m'.calm m₁) := by
  obtain ⟨k, hk, m₁, hsteps, hlast⟩ := execute_eq_some_iff.mp h
  obtain ⟨hcalm, hahead⟩ := hsteps.calm
  have hends : ∀ x, m₁.calm.execute job 1 = some x → m.calm.execute job fuel = some x :=
    fun x hx => execute_eq_some_iff.mpr ⟨k, hk, m₁.calm, hcalm, hx⟩
  rw [← hahead]
  rcases execute_one_calm_cases hlast with
    ⟨hsame, hnoFault, hclean⟩ | ⟨hused, hfault, hcut | ⟨halt, m₂, hclean, hflushed⟩⟩
  · exact .inl ⟨hsame, hnoFault, hends _ hclean⟩
  · exact .inr ⟨hused, hfault, .inl ⟨k, m₁.calm, hcalm, hcut⟩⟩
  · exact .inr ⟨hused, hfault, .inr ⟨halt, m₂, hends _ hclean, hflushed⟩⟩

/-- A failure to write or to flush only cuts a run short, when it is compared with the run of the
same program from the same input on an output that never fails.

At all times, and when it returns, it has written a prefix of what that run writes. Its steps are
the steps of that run, up to the one that reports the failure; that one stops within the operator
that the other run is about to carry out. A run that has met no failure returns what the other run
returns; one that has met a failure returns it, and has stopped within an operator or failed to
flush the output at the end. -/
theorem run_on_failing_output (program : Program) (settings : MachineSettings) (host : Host σ)
    (state : σ) (reads : List ReadEvent) (writes : List WriteEvent) (flushes : List FlushEvent) :
    let job : Job σ := .ofSettings settings program host
    let failing := start settings { reads, writes, flushes } state
    let clean := start settings { reads } state
    (∀ k, (after job k failing).streams.output <+: (after job k clean).streams.output) ∧
    (∀ fuel r m, failing.execute job fuel = some (r, m) →
      m.streams.output <+: (after job fuel clean).streams.output ∧
      ∀ fuel' r' m', clean.execute job fuel' = some (r', m') →
        m.streams.output <+: m'.streams.output) ∧
    (∀ k m, Steps job k failing m → Steps job k clean m.calm ∧
      ∀ r m', m.step job = (r, m') →
        (∀ i message, r = .error (.stream i (.write message)) →
          m.calm.next = i ∧ CutShort job m.calm m') ∧
        ((∀ i message, r ≠ .error (.stream i (.write message))) →
          m.calm.step job = (r, m'.calm))) ∧
    ∀ fuel r m, failing.execute job fuel = some (r, m) →
      (m.streams.faultsAhead = failing.streams.faultsAhead ∧
        (∀ i message, r ≠ .error (.stream i (.write message))) ∧
        clean.execute job fuel = some (r, m.calm)) ∨
      m.streams.faultsAhead + 1 = failing.streams.faultsAhead ∧
        (∃ message, r = .error (.stream m.next (.write message))) ∧
        ((∃ k m₁, Steps job k clean m₁ ∧ CutShort job m₁ m) ∨
          ∃ halt m₁, clean.execute job fuel = some (.ok halt, m₁) ∧ OnlyFlushed m.calm m₁) := by
  intro job failing clean
  refine ⟨fun k => output_after_calm job k failing, fun fuel r m hrun => ?_, fun k m hsteps => ?_,
    fun fuel r m hrun => execute_calm_cases hrun⟩
  · have hwritten := output_after_calm job fuel failing
    rw [← output_execute hrun] at hwritten
    refine ⟨hwritten, fun fuel' r' m' hclean => ?_⟩
    -- With enough fuel for both runs, each has written what its steps have written.
    have hrun' := execute_mono hrun (Nat.le_max_left fuel fuel')
    have hclean' := execute_mono hclean (Nat.le_max_right fuel fuel')
    rw [output_execute hrun', output_execute hclean']
    exact output_after_calm job _ failing
  · refine ⟨hsteps.calm.1, fun r m' hstep => ?_⟩
    have hcases := step_calm_cases job m
    rw [hstep] at hcases
    rcases hcases with ⟨hsame, -, hnoFault⟩ | ⟨⟨message, herror⟩, -, hcut⟩
    · exact ⟨fun i message hr => absurd hr (hnoFault i message), fun _ => hsame⟩
    · refine ⟨fun i message' hr => ⟨?_, hcut⟩, fun hnoFault => absurd herror (hnoFault _ message)⟩
      have hi := herror.symm.trans hr
      simp only [Except.error.injEq, RuntimeError.stream.injEq] at hi
      exact hi.1

/-- The second of two copies of a byte is refused. -/
theorem run_on_failing_output_second_copy :
    ∃ c, compile {} "+.." = .ok c ∧ ∃ m m' : Machine 1 Unit,
      Steps (.ofSettings { memorySize := 1 } c.program .silent) 1
        (start { memorySize := 1 } { writes := [.accept, .refuse] } ()) m ∧
      m.step (.ofSettings { memorySize := 1 } c.program .silent) =
        (.error (.stream 1 (.write "failed to write whole buffer")), m') ∧
      Steps (.ofSettings { memorySize := 1 } c.program .silent) 1
        (start { memorySize := 1 } {} ()) m.calm ∧
      CutShort (.ofSettings { memorySize := 1 } c.program .silent) m.calm m' ∧
      m'.streams.output = [1] := by
  have hcompile : compile {} "+.." = .ok ⟨⟨#[.run .increment 1, .run .output 2]⟩, []⟩ := by
    with_unfolding_all rfl
  let job : Job Unit :=
    .ofSettings { memorySize := 1 } ⟨#[.run .increment 1, .run .output 2]⟩ .silent
  have hsteps : Steps job 1 (start { memorySize := 1 } { writes := [.accept, .refuse] } ()) _ :=
    .cons rfl .nil
  obtain ⟨hclean, hcases⟩ :=
    (run_on_failing_output ⟨#[.run .increment 1, .run .output 2]⟩ { memorySize := 1 } .silent ()
      [] [.accept, .refuse] []).2.2.1 1 _ hsteps
  exact ⟨_, hcompile, _, _, hsteps, rfl, hclean, ((hcases _ _ rfl).1 1 _ rfl).2, rfl⟩

end Machine

end TapeMachine
