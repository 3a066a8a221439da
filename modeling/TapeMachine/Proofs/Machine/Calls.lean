import TapeMachine.Proofs.Machine.Transition

/-!
# Sequences of calls

A machine is used by steps and by runs to the end, in any order and also after it has halted or
failed. `Calls` are the sequences of those that return. What a step and a flush preserve, every
sequence of calls preserves (`Calls.preserves`), and a machine that was aborted answers all
calls alike (`Calls.of_aborted`).
-/

namespace TapeMachine

/-- What a call returned. -/
inductive Answer where
  | step (result : StepResult)
  | execute (result : Except RuntimeError Halt)

/-- The error that a call returned, if it did. -/
def Answer.error? : Answer → Option RuntimeError
  | step (.error e) | execute (.error e) => some e
  | _ => none

namespace Machine

variable {n : Nat} {σ : Type} {job : Job σ} {m m' : Machine n σ}

/-- One call that returns, with its answer and the machine after it. -/
inductive Call (job : Job σ) : Machine n σ → Answer → Machine n σ → Prop
  | step (m : Machine n σ) : Call job m (.step (m.step job).1) (m.step job).2
  | execute {m m' : Machine n σ} {fuel : Nat} {result : Except RuntimeError Halt}
      (h : m.execute job fuel = some (result, m')) : Call job m (.execute result) m'

/-- Calls one after the other, with their answers in order. -/
inductive Calls (job : Job σ) : Machine n σ → List Answer → Machine n σ → Prop
  | nil {m : Machine n σ} : Calls job m [] m
  | cons {m m₁ m₂ : Machine n σ} {a : Answer} {as : List Answer} (call : Call job m a m₁)
      (rest : Calls job m₁ as m₂) : Calls job m (a :: as) m₂

/-- Calls with the answers `pre ++ post` come through a machine that is between the two. -/
theorem Calls.exists_of_append {pre post : List Answer} (h : Calls job m (pre ++ post) m') :
    ∃ m₁, Calls job m pre m₁ ∧ Calls job m₁ post m' := by
  induction pre generalizing m with
  | nil => exact ⟨m, .nil, h⟩
  | cons a pre ih =>
    cases h with
    | cons call rest =>
      obtain ⟨m₁, hpre, hpost⟩ := ih rest
      exact ⟨m₁, .cons call hpre, hpost⟩

/-! ## Runs, by their steps -/

/-- A run that returns has come to a step that ends it, by steps that do not. -/
theorem execute_cases {fuel : Nat} {result : Except RuntimeError Halt}
    (h : m.execute job (fuel + 1) = some (result, m')) :
    ((m.step job).1 = .ok none ∧ (m.step job).2.execute job fuel = some (result, m')) ∨
    (∃ halt, (m.step job).1 = .ok (some halt) ∧ (m.step job).2.finish halt = (result, m')) ∨
    ∃ e, m.step job = (.error e, m') ∧ result = .error e := by
  unfold execute at h
  split at h
  · next m₁ hstep => exact .inl ⟨by rw [hstep], by rw [hstep]; exact h⟩
  · next halt m₁ hstep =>
    exact .inr (.inl ⟨halt, by rw [hstep], by rw [hstep]; exact Option.some.inj h⟩)
  · next e m₁ hstep =>
    simp only [Option.some.injEq, Prod.mk.injEq] at h
    obtain ⟨rfl, rfl⟩ := h
    exact .inr (.inr ⟨e, hstep, rfl⟩)

/-- The last flush of a run touches nothing but the streams. -/
theorem finish_machine (m : Machine n σ) (halt : Halt) :
    (m.finish halt).2 = { m with streams := m.streams.flush.2 } := by
  unfold finish
  rcases m.streams.flush with ⟨_ | fault, streams⟩ <;> rfl

theorem finish_result (m : Machine n σ) (halt : Halt) :
    (m.finish halt).1 = .ok halt ∨
      ∃ message, (m.finish halt).1 = .error (.stream m.next (.write message)) := by
  unfold finish
  rcases m.streams.flush with ⟨_ | fault, streams⟩
  · exact .inl rfl
  · exact .inr ⟨fault.message, rfl⟩

section Preserves

variable {P : Machine n σ → Prop} (hstep : ∀ m, P m → P (m.step job).2)
  (hflush : ∀ (m : Machine n σ) (streams : Streams), P m → P { m with streams })

include hstep hflush in
theorem execute_preserves {fuel : Nat} {result : Except RuntimeError Halt}
    (h : m.execute job fuel = some (result, m')) (hm : P m) : P m' := by
  induction fuel generalizing m with
  | zero => contradiction
  | succ fuel ih =>
    rcases execute_cases h with ⟨-, hrest⟩ | ⟨halt, -, hfinish⟩ | ⟨e, herror, -⟩
    · exact ih hrest (hstep m hm)
    · have hmachine := finish_machine (m.step job).2 halt
      rw [hfinish] at hmachine
      subst hmachine
      exact hflush _ _ (hstep m hm)
    · have hmachine := hstep m hm
      rwa [herror] at hmachine

include hstep hflush in
theorem Call.preserves {a : Answer} (h : Call job m a m') (hm : P m) : P m' := by
  cases h with
  | step => exact hstep m hm
  | execute h => exact execute_preserves hstep hflush h hm

include hstep hflush in
/-- What every step and every change of the streams keeps is kept by all calls. -/
theorem Calls.preserves {as : List Answer} (h : Calls job m as m') (hm : P m) : P m' := by
  induction h with
  | nil => exact hm
  | cons call _ ih => exact ih (call.preserves hstep hflush hm)

end Preserves

/-! ## Calls on a machine that is at rest -/

theorem Call.of_aborted {a : Answer} {i : Nat} (h : Call job m a m')
    (hm : m.status = .aborted i) : a.error? = some (.aborted i) ∧ m' = m := by
  cases h with
  | step =>
    rw [step_of_aborted hm]
    exact ⟨rfl, rfl⟩
  | @execute _ fuel result h =>
    cases fuel with
    | zero => contradiction
    | succ fuel =>
      rw [Machine.execute, step_of_aborted hm] at h
      simp only [Option.some.injEq, Prod.mk.injEq] at h
      obtain ⟨rfl, rfl⟩ := h
      exact ⟨rfl, rfl⟩

/-- Once a machine was aborted, every call says so and nothing changes. -/
theorem Calls.of_aborted {as : List Answer} {i : Nat} (h : Calls job m as m')
    (hm : m.status = .aborted i) : (∀ a ∈ as, a.error? = some (.aborted i)) ∧ m' = m := by
  induction h with
  | nil => exact ⟨fun a ha => by contradiction, rfl⟩
  | cons call _ ih =>
    obtain ⟨hanswer, rfl⟩ := call.of_aborted hm
    obtain ⟨hanswers, rfl⟩ := ih hm
    refine ⟨fun b hb => ?_, rfl⟩
    rcases List.mem_cons.mp hb with rfl | hb
    · exact hanswer
    · exact hanswers b hb

/-- A machine that has halted only flushes its output again when it is run. -/
theorem Call.of_halted {a : Answer} {halt : Halt} (h : Call job m a m')
    (hm : m.status = .halted halt) :
    (a = .step (.ok (some halt)) ∨ a = .execute (.ok halt) ∨
      ∃ message, a = .execute (.error (.stream m.next (.write message)))) ∧
    ∃ streams, m' = { m with streams } := by
  cases h with
  | step =>
    rw [step_of_halted hm]
    exact ⟨.inl rfl, m.streams, rfl⟩
  | @execute _ fuel result h =>
    cases fuel with
    | zero => contradiction
    | succ fuel =>
      rw [Machine.execute, step_of_halted hm] at h
      have hfinish : m.finish halt = (result, m') := Option.some.inj h
      have hmachine := finish_machine m halt
      have hresult := finish_result m halt
      rw [hfinish] at hmachine hresult
      rcases hresult with rfl | ⟨message, rfl⟩
      · exact ⟨.inr (.inl rfl), _, hmachine⟩
      · exact ⟨.inr (.inr ⟨message, rfl⟩), _, hmachine⟩

/-- Once a machine has halted, every call answers with that halt or with a failed flush. -/
theorem Calls.of_halted {as : List Answer} {halt : Halt} (h : Calls job m as m')
    (hm : m.status = .halted halt) : ∀ a ∈ as,
      a = .step (.ok (some halt)) ∨ a = .execute (.ok halt) ∨
        ∃ message, a = .execute (.error (.stream m.next (.write message))) := by
  induction h with
  | nil =>
    intro a ha
    contradiction
  | cons call _ ih =>
    obtain ⟨hanswer, streams, rfl⟩ := call.of_halted hm
    intro b hb
    rcases List.mem_cons.mp hb with rfl | hb
    · exact hanswer
    · exact ih hm b hb

end Machine

end TapeMachine
