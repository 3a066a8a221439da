import TapeMachine.Program.Compile
import TapeMachine.Proofs.Machine.Steps

/-!
# Machines at rest

Whatever ends a run leaves a machine that is at rest: it has halted, it was aborted, or it stands
before an instruction that its limit forbids. A machine at rest answers every step alike (`AtRest`),
and nothing is left for later calls to do but to flush the output of a machine that has halted
(`OnlyFlushed`). `calls_after_end` says so of all sequences of calls.
-/

namespace TapeMachine

/-- The halt that a call reported, if it did. -/
def Answer.halt? : Answer → Option Halt
  | step (.ok halt?) => halt?
  | execute (.ok halt) => some halt
  | _ => none

/-- A call that ends with a step that answers `r` can return this: a run says what the step said,
unless the machine has halted and its output cannot be flushed. -/
inductive Answer.Reports (next : Nat) : StepResult → Answer → Prop
  | step {r : StepResult} : Reports next r (.step r)
  | error {e : RuntimeError} : Reports next (.error e) (.execute (.error e))
  | halt {halt : Halt} : Reports next (.ok (some halt)) (.execute (.ok halt))
  | unflushed {halt : Halt} {message : String} :
      Reports next (.ok (some halt)) (.execute (.error (.stream next (.write message))))

namespace Answer

variable {next : Nat} {r : StepResult} {a : Answer}

/-- Only a step can leave a run going on. -/
theorem Reports.eq_step (h : Reports next (.ok none) a) : a = .step (.ok none) := by
  cases h
  rfl

/-- A call that reports a halt has ended with a step that did. -/
theorem Reports.eq_of_halt? {halt : Halt} (h : Reports next r a) (hhalt : a.halt? = some halt) :
    r = .ok (some halt) := by
  cases h with
  | @step r =>
    rcases r with e | halt?
    · contradiction
    · obtain rfl : halt? = some halt := hhalt
      rfl
  | error => contradiction
  | halt =>
    obtain rfl := Option.some.inj hhalt
    rfl
  | unflushed => contradiction

/-- A call that returns an error has ended with a step that did, or its last flush has failed. -/
theorem Reports.error_cases {e : RuntimeError} (h : Reports next r a)
    (herror : a.error? = some e) :
    r = .error e ∨ (∃ halt, r = .ok (some halt)) ∧ a = .execute (.error e) ∧
      ∃ message, e = .stream next (.write message) := by
  cases h with
  | @step r =>
    rcases r with e' | halt?
    · obtain rfl := Option.some.inj herror
      exact .inl rfl
    · contradiction
  | error =>
    obtain rfl := Option.some.inj herror
    exact .inl rfl
  | halt => contradiction
  | @unflushed halt message =>
    obtain rfl := Option.some.inj herror
    exact .inr ⟨⟨halt, rfl⟩, rfl, message, rfl⟩

/-- A call that returns an error has ended with a step that did, if it is no failure to write. -/
theorem Reports.eq_of_error? {e : RuntimeError} (h : Reports next r a)
    (herror : a.error? = some e) (hwrite : ∀ i message, e ≠ .stream i (.write message)) :
    r = .error e := by
  rcases h.error_cases herror with hstep | ⟨-, -, message, he⟩
  · exact hstep
  · exact absurd he (hwrite next message)

/-- What a call can return on a machine that rests at a halt. -/
theorem Reports.cases_halt {halt : Halt} (h : Reports next (.ok (some halt)) a) :
    a = .step (.ok (some halt)) ∨ a = .execute (.ok halt) ∨
      ∃ message, a = .execute (.error (.stream next (.write message))) := by
  cases h with
  | step => exact .inl rfl
  | halt => exact .inr (.inl rfl)
  | unflushed => exact .inr (.inr ⟨_, rfl⟩)

theorem Reports.error?_eq {e : RuntimeError} (h : Reports next (.error e) a) :
    a.error? = some e := by
  cases h <;> rfl

end Answer

open Answer (Reports)

namespace Machine

variable {n : Nat} {σ : Type} {job : Job σ} {m m' m₂ : Machine n σ} {r : StepResult}
  {a : Answer} {as : List Answer}

/-- The machine answers every step with `r` and does not change. -/
inductive AtRest (job : Job σ) (m : Machine n σ) : StepResult → Prop
  | halted {halt : Halt} (status : m.status = .halted halt) : AtRest job m (.ok (some halt))
  | aborted {i : Nat} (status : m.status = .aborted i) : AtRest job m (.error (.aborted i))
  | stopped {i : Instruction} {limit : Nat} (running : m.status = .running)
      (here : job.program.instructions[m.next]? = some i)
      (reached : m.limitReached? job = some limit) :
      AtRest job m (.error (.stepLimitExceeded limit))

/-- What a machine answers to all later steps when a step has ended its run with `r`. -/
def restingAnswer : StepResult → StepResult
  | .error (.stream i _) => .error (.aborted i)
  | .error (.outOfBounds i target _) => .ok (some (.outOfBounds i target))
  | r => r

/-- Nothing has been done but to flush the output. -/
structure OnlyFlushed (m m' : Machine n σ) : Prop where
  tape : m'.tape = m.tape
  next : m'.next = m.next
  steps : m'.steps = m.steps
  status : m'.status = m.status
  state : m'.state = m.state
  reads : m'.streams.reads = m.streams.reads
  writes : m'.streams.writes = m.streams.writes
  history : ∃ count, m'.streams.history = List.replicate count .flushed ++ m.streams.history

/-! ## Flushes -/

theorem OnlyFlushed.refl (m : Machine n σ) : OnlyFlushed m m :=
  ⟨rfl, rfl, rfl, rfl, rfl, rfl, rfl, 0, rfl⟩

theorem OnlyFlushed.trans (h : OnlyFlushed m m') (h' : OnlyFlushed m' m₂) : OnlyFlushed m m₂ := by
  obtain ⟨count, hcount⟩ := h.history
  obtain ⟨count', hcount'⟩ := h'.history
  refine ⟨h'.tape.trans h.tape, h'.next.trans h.next, h'.steps.trans h.steps,
    h'.status.trans h.status, h'.state.trans h.state, h'.reads.trans h.reads,
    h'.writes.trans h.writes, count' + count, ?_⟩
  rw [hcount', hcount, ← List.append_assoc, List.replicate_append_replicate]

theorem onlyFlushed_flush (m : Machine n σ) :
    OnlyFlushed m { m with streams := m.streams.flush.2 } := by
  unfold Streams.flush
  split
  · exact ⟨rfl, rfl, rfl, rfl, rfl, rfl, rfl, 1, rfl⟩
  · exact ⟨rfl, rfl, rfl, rfl, rfl, rfl, rfl, 1, rfl⟩
  · exact ⟨rfl, rfl, rfl, rfl, rfl, rfl, rfl, 0, rfl⟩

/-- Flushes add nothing to what was written. -/
theorem OnlyFlushed.output (h : OnlyFlushed m m') : m'.streams.output = m.streams.output := by
  obtain ⟨count, hcount⟩ := h.history
  simp [Streams.output, hcount]

/-- A run that has come to a halt reports it, or says that its output could not be flushed. -/
theorem finish_spec {halt : Halt} {result : Except RuntimeError Halt}
    (h : m.finish halt = (result, m')) :
    m' = { m with streams := m.streams.flush.2 } ∧
      Reports m.next (.ok (some halt)) (.execute result) := by
  have hmachine := finish_machine m halt
  have hresult := finish_result m halt
  rw [h] at hmachine hresult
  refine ⟨hmachine, ?_⟩
  rcases hresult with rfl | ⟨message, rfl⟩
  · exact .halt
  · exact .unflushed

/-! ## Coming to rest -/

theorem AtRest.step_eq (h : AtRest job m r) : m.step job = (r, m) := by
  cases h with
  | halted status => exact step_of_halted status
  | aborted status => exact step_of_aborted status
  | stopped running here reached => exact step_of_limit running here reached

theorem AtRest.after_eq (h : AtRest job m r) (k : Nat) : after job k m = m := by
  induction k with
  | zero => rfl
  | succ k ih => rw [after, h.step_eq, ih]

/-- Flushes do not set a machine going again. -/
theorem AtRest.of_onlyFlushed (h : AtRest job m r) (hflushed : OnlyFlushed m m') :
    AtRest job m' r := by
  cases h with
  | halted status => exact .halted (hflushed.status.trans status)
  | aborted status => exact .aborted (hflushed.status.trans status)
  | stopped running here reached =>
    refine .stopped (hflushed.status.trans running) (hflushed.next ▸ here) ?_
    rw [limitReached?, hflushed.steps]
    exact reached

/-- A step with which the run does not go on leaves the machine at rest. -/
theorem Transition.atRest (h : Transition job m r m') (ends : r ≠ .ok none) :
    AtRest job m' (restingAnswer r) := by
  cases h with
  | halted rest => exact .halted rest
  | aborted rest => exact .aborted rest
  | completes => exact .halted rfl
  | exceeds running here reached => exact .stopped running here reached
  | goesOn => exact absurd rfl ends
  | leaves _ _ _ _ _ answer =>
    -- Both policies record the same halt.
    subst answer
    cases job.bounds <;> exact .halted rfl
  | fails _ _ _ _ _ _ status => exact .aborted status

/-- A run that returns has done what its steps do, and perhaps a flush. -/
theorem onlyFlushed_execute {fuel : Nat} {result : Except RuntimeError Halt}
    (h : m.execute job fuel = some (result, m')) : OnlyFlushed (after job fuel m) m' := by
  induction fuel generalizing m with
  | zero => contradiction
  | succ fuel ih =>
    have ht := transition_step job m
    rcases execute_cases h with ⟨-, hrest⟩ | ⟨halt, hhalt, hfinish⟩ | ⟨e, herror, rfl⟩
    · exact ih hrest
    · obtain ⟨rfl, -⟩ := finish_spec hfinish
      rw [hhalt] at ht
      rw [after, (ht.atRest (by simp)).after_eq]
      exact onlyFlushed_flush _
    · rw [herror] at ht
      rw [after, herror, (ht.atRest (by simp)).after_eq]
      exact .refl _

/-- A call makes steps with which the run goes on, and then one more, and reports what that says. -/
theorem Call.exists_last (h : Call job m a m') :
    ∃ k m₁, Steps job k m m₁ ∧ Reports m'.next (m₁.step job).1 a ∧
      OnlyFlushed (m₁.step job).2 m' := by
  cases h with
  | step => exact ⟨0, m, .nil, .step, .refl _⟩
  | @execute _ fuel result h =>
    obtain ⟨k, -, m₁, hsteps, hlast⟩ := execute_eq_some_iff.mp h
    refine ⟨k, m₁, hsteps, ?_⟩
    rcases execute_cases hlast with ⟨-, hrest⟩ | ⟨halt, hhalt, hfinish⟩ | ⟨e, herror, rfl⟩
    · contradiction
    · obtain ⟨rfl, hreport⟩ := finish_spec hfinish
      rw [hhalt]
      exact ⟨hreport, onlyFlushed_flush _⟩
    · rw [herror]
      exact ⟨.error, .refl _⟩

/-- A call that returns a halt or an error leaves the machine at rest. -/
theorem Call.atRest (h : Call job m a m') (ends : a ≠ .step (.ok none)) :
    ∃ r, Reports m'.next r a ∧ AtRest job m' (restingAnswer r) := by
  obtain ⟨k, m₁, -, hreport, hflushed⟩ := h.exists_last
  have hlast : (m₁.step job).1 ≠ .ok none := by
    intro hnone
    rw [hnone] at hreport
    exact ends hreport.eq_step
  exact ⟨_, hreport, ((transition_step job m₁).atRest hlast).of_onlyFlushed hflushed⟩

/-! ## Calls on a machine at rest -/

theorem Call.of_atRest (h : Call job m a m') (hm : AtRest job m r) :
    Reports m.next r a ∧ OnlyFlushed m m' ∧ AtRest job m' r := by
  obtain ⟨k, m₁, hsteps, hreport, hflushed⟩ := h.exists_last
  cases hsteps with
  | nil =>
    rw [hm.step_eq] at hreport hflushed
    exact ⟨hflushed.next ▸ hreport, hflushed, hm.of_onlyFlushed hflushed⟩
  | cons step =>
    obtain ⟨rfl, -⟩ := Prod.mk.inj (hm.step_eq.symm.trans step)
    nomatch hm

theorem Calls.of_atRest (h : Calls job m as m') (hm : AtRest job m r) :
    (∀ a ∈ as, Reports m.next r a) ∧ OnlyFlushed m m' ∧ AtRest job m' r := by
  induction h with
  | nil => exact ⟨fun a ha => by contradiction, .refl _, hm⟩
  | cons call _ ih =>
    obtain ⟨hreport, hflushed, hrest⟩ := call.of_atRest hm
    obtain ⟨hreports, hflushed', hrest'⟩ := ih hrest
    refine ⟨fun b hb => ?_, hflushed.trans hflushed', hrest'⟩
    rcases List.mem_cons.mp hb with rfl | hb
    · exact hreport
    · exact hflushed.next ▸ hreports b hb

/-- Once a call has returned a halt or an error, nothing that is called later changes the machine,
writes, reads or calls the host; a run may only flush the output again. After a halt every later
call reports that halt, unless its own flush fails, and after the step limit was exceeded every
later call says so. -/
theorem calls_after_end (h : Call job m a m') (ends : a ≠ .step (.ok none))
    (later : Calls job m' as m₂) :
    OnlyFlushed m' m₂ ∧
    (∀ halt, a.halt? = some halt → ∀ b ∈ as,
      b = .step (.ok (some halt)) ∨ b = .execute (.ok halt) ∨
        ∃ message, b = .execute (.error (.stream m'.next (.write message)))) ∧
    ∀ limit, a.error? = some (.stepLimitExceeded limit) → ∀ b ∈ as,
      b.error? = some (.stepLimitExceeded limit) := by
  obtain ⟨r, hreport, hrest⟩ := h.atRest ends
  obtain ⟨hlater, hflushed, -⟩ := later.of_atRest hrest
  refine ⟨hflushed, fun halt hhalt b hb => ?_, fun limit hlimit b hb => ?_⟩
  · obtain rfl := hreport.eq_of_halt? hhalt
    exact (hlater b hb).cases_halt
  · obtain rfl := hreport.eq_of_error? hlimit fun i message => by simp
    exact (hlater b hb).error?_eq

/-- The head leaves the tape, which halts the run. A step and a run whose flush fails come after. -/
theorem calls_after_end_off_tape :
    ∃ c, compile {} "+<" = .ok c ∧ ∃ m₁ m₂ : Machine 1 Unit,
      Call (.ofSettings { memorySize := 1 } c.program .silent)
        (start { memorySize := 1 } { flushes := [.accept, .fail ⟨.other, "full"⟩] } ())
        (.execute (.ok (.outOfBounds 1 (-1)))) m₁ ∧
      Calls (.ofSettings { memorySize := 1 } c.program .silent) m₁
        [.step (.ok (some (.outOfBounds 1 (-1)))), .execute (.error (.stream 2 (.write "full")))]
        m₂ ∧
      OnlyFlushed m₁ m₂ := by
  have hcompile : compile {} "+<" = .ok ⟨⟨#[.run .increment 1, .run .moveLeft 1]⟩, []⟩ := by
    with_unfolding_all rfl
  let job : Job Unit :=
    .ofSettings { memorySize := 1 } ⟨#[.run .increment 1, .run .moveLeft 1]⟩ .silent
  let m₁ : Machine 1 Unit :=
    { next := 2, tape := ⟨#v[1], 0⟩, steps := 2, status := .halted (.outOfBounds 1 (-1))
      streams := { flushes := [.fail ⟨.other, "full"⟩], history := [.flushed] }, state := () }
  have hrun : execute job 2
      (start { memorySize := 1 } { flushes := [.accept, .fail ⟨.other, "full"⟩] } ()) =
        some (.ok (.outOfBounds 1 (-1)), m₁) := rfl
  have hagain : execute job 1 m₁ = some (.error (.stream 2 (.write "full")), _) := rfl
  have hlater := Calls.cons (.step m₁) (.cons (.execute hagain) .nil)
  exact ⟨_, hcompile, m₁, _, .execute hrun, hlater,
    (calls_after_end (.execute hrun) (by simp) hlater).1⟩

end Machine

end TapeMachine
