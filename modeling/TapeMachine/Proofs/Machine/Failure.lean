import TapeMachine.Program.Compile
import TapeMachine.Proofs.Machine.Calls

/-!
# After a stream has failed

A stream that fails while an instruction uses it aborts the machine, and an aborted machine says so
to every later call. The flush at the end of a run is different: the machine has halted by then
and stays halted, so that later calls report the halt as if nothing had failed.
-/

namespace TapeMachine

namespace Machine

variable {n : Nat} {σ : Type} {job : Job σ} {m m' : Machine n σ}

/-- A run that ends with the failure of a stream was aborted, or had halted before. -/
theorem status_of_execute {fuel i : Nat} {cause : StreamError}
    (h : m.execute job fuel = some (.error (.stream i cause), m')) :
    m'.status = .aborted i ∨ ∃ halt, m'.status = .halted halt := by
  induction fuel generalizing m with
  | zero => contradiction
  | succ fuel ih =>
    have ht := transition_step job m
    rcases execute_cases h with ⟨-, hrest⟩ | ⟨halt, hhalt, hfinish⟩ | ⟨e, herror, he⟩
    · exact ih hrest
    · rw [hhalt] at ht
      have hmachine := finish_machine (m.step job).2 halt
      rw [hfinish] at hmachine
      subst hmachine
      exact .inr ⟨halt, ht.status_of_halt⟩
    · obtain rfl := Except.error.inj he
      rw [herror] at ht
      exact .inl ht.status_of_stream_error

theorem Call.status_of_stream_error {a : Answer} {i : Nat} {cause : StreamError}
    (h : Call job m a m') (ha : a.error? = some (.stream i cause)) :
    m'.status = .aborted i ∨
      (∃ halt, m'.status = .halted halt) ∧ ∃ result, a = .execute result := by
  cases h with
  | step =>
    have ht := transition_step job m
    cases hanswer : (m.step job).1 with
    | ok result => simp [hanswer, Answer.error?] at ha
    | error e =>
      simp only [hanswer, Answer.error?, Option.some.injEq] at ha
      rw [hanswer, ha] at ht
      exact .inl ht.status_of_stream_error
  | @execute _ fuel result h =>
    cases result with
    | ok halt => simp [Answer.error?] at ha
    | error e =>
      simp only [Answer.error?, Option.some.injEq] at ha
      subst ha
      rcases status_of_execute h with habort | hhalt
      · exact .inl habort
      · exact .inr ⟨hhalt, _, rfl⟩

/-- After the failure of a stream every later call reports that the run was aborted if and only if
the machine had not halted. If it had, the call was a run whose last flush failed, and no later call
is told: each gets the halt, or the failure of its own flush. -/
theorem calls_after_stream_error {a : Answer} {i : Nat} {cause : StreamError}
    (h : Call job m a m') (ha : a.error? = some (.stream i cause)) :
    ((∀ as m₂, Calls job m' as m₂ → ∀ b ∈ as, b.error? = some (.aborted i)) ↔
      m'.halted? = none) ∧
    ∀ halt, m'.halted? = some halt → (∃ result, a = .execute result) ∧
      ∀ as m₂, Calls job m' as m₂ → ∀ b ∈ as,
        b = .step (.ok (some halt)) ∨ b = .execute (.ok halt) ∨
          ∃ message, b = .execute (.error (.stream m'.next (.write message))) := by
  rcases h.status_of_stream_error ha with habort | ⟨⟨halt, hhalt⟩, hexecute⟩
  · have hnone : m'.halted? = none := by
      unfold halted?
      rw [habort]
    constructor
    · exact ⟨fun _ => hnone, fun _ as m₂ hcalls => (hcalls.of_aborted habort).1⟩
    · intro halt hsome
      rw [hnone] at hsome
      contradiction
  · have hsome : m'.halted? = some halt := by
      unfold halted?
      rw [hhalt]
    refine ⟨⟨fun hall => ?_, fun hnone => ?_⟩, fun halt' hsome' => ⟨hexecute, ?_⟩⟩
    · -- The next step answers with the halt, which is no error.
      have hstep := hall _ _ (.cons (.step m') .nil) _ List.mem_cons_self
      rw [step_of_halted hhalt] at hstep
      contradiction
    · rw [hsome] at hnone
      contradiction
    · obtain rfl := Option.some.inj (hsome.symm.trans hsome')
      exact fun as m₂ hcalls => hcalls.of_halted hhalt

/-- The input ends at a read, and the machine is lost for good. -/
theorem calls_after_stream_error_read :
    ∃ c, compile {} "," = .ok c ∧ ∃ m₁ : Machine 1 Unit,
      Call (.ofSettings { memorySize := 1 } c.program .silent) (start { memorySize := 1 } {} ())
        (.execute (.error (.stream 0 .unexpectedEof))) m₁ ∧
      m₁.halted? = none ∧
      ∀ as m₂, Calls (.ofSettings { memorySize := 1 } c.program .silent) m₁ as m₂ →
        ∀ b ∈ as, b.error? = some (.aborted 0) := by
  have hcompile : compile {} "," = .ok ⟨⟨#[.run .input 1]⟩, []⟩ := by with_unfolding_all rfl
  have hrun : execute (.ofSettings { memorySize := 1 } ⟨#[.run .input 1]⟩ .silent) 1
      (start { memorySize := 1 } {} ()) = some (.error (.stream 0 .unexpectedEof), _) := rfl
  exact ⟨_, hcompile, _, .execute hrun, rfl,
    (calls_after_stream_error (.execute hrun) rfl).1.mpr rfl⟩

/-- The last flush of a run fails, and the next step reports that the run has completed. -/
theorem halt_after_failed_flush :
    ∃ c, compile {} "" = .ok c ∧ ∃ m₁ : Machine 1 Unit,
      Call (.ofSettings { memorySize := 1 } c.program .silent)
        (start { memorySize := 1 } { flushes := [.fail ⟨.other, "boom"⟩] } ())
        (.execute (.error (.stream 0 (.write "boom")))) m₁ ∧
      Call (.ofSettings { memorySize := 1 } c.program .silent) m₁
        (.step (.ok (some .completed))) m₁ := by
  have hcompile : compile {} "" = .ok ⟨⟨#[]⟩, []⟩ := by with_unfolding_all rfl
  have hrun : execute (.ofSettings { memorySize := 1 } ⟨#[]⟩ .silent) 1
      (start { memorySize := 1 } { flushes := [.fail ⟨.other, "boom"⟩] } ()) =
        some (.error (.stream 0 (.write "boom")), _) := rfl
  exact ⟨_, hcompile, _, .execute hrun, .step _⟩

end Machine

end TapeMachine
