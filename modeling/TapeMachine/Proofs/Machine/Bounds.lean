import TapeMachine.Proofs.Machine.Rest

/-!
# Leaving the tape as an error

Under the error policy the move that leaves the tape fails, and no call before it has succeeded with
a halt off the tape. But the machine records a halt all the same, under either policy, and later
calls are answered from the record: they report the halt as a success. So the promise that leaving
the tape is never a success (`NeverSucceedsOffTape`) holds exactly as long as no call follows the
one that failed.
-/

namespace TapeMachine

/-- No call succeeds with a halt off the tape, and when a call has failed off the tape, all later
ones fail with the same error. -/
def NeverSucceedsOffTape (as : List Answer) : Prop :=
  (∀ a ∈ as, ∀ i target, a.halt? ≠ some (.outOfBounds i target)) ∧
  ∀ pre a post i target cells, as = pre ++ a :: post →
    a.error? = some (.outOfBounds i target cells) →
    ∀ b ∈ post, b.error? = some (.outOfBounds i target cells)

namespace Machine

variable {n : Nat} {σ : Type} {job : Job σ} {m m' : Machine n σ} {r : StepResult}
  {a : Answer} {as : List Answer}

/-- The machine has not halted off the tape. -/
def OnTape (m : Machine n σ) : Prop := ∀ i target, m.status ≠ .halted (.outOfBounds i target)

theorem onTape_of_running (h : m.status = .running) : OnTape m := fun i target => by simp [h]

/-- A call that failed off the tape leaves a machine that rests at a halt off the tape. -/
theorem Call.atRest_of_outOfBounds {i cells : Nat} {target : Int} (h : Call job m a m')
    (ha : a.error? = some (.outOfBounds i target cells)) :
    AtRest job m' (.ok (some (.outOfBounds i target))) := by
  have ends : a ≠ .step (.ok none) := fun hstep => by simp [hstep, Answer.error?] at ha
  obtain ⟨r, hreport, hrest⟩ := h.atRest ends
  obtain rfl := hreport.eq_of_error? ha fun i message => by simp
  exact hrest

section

variable (strict : job.bounds = .error)

include strict

/-- A step that leaves the tape fails. -/
theorem Transition.onTape (h : Transition job m r m') (hm : OnTape m) :
    (∀ i target, r ≠ .ok (some (.outOfBounds i target))) ∧
      (OnTape m' ∨ ∃ i target, r = .error (.outOfBounds i target n)) := by
  cases h with
  | halted rest =>
    refine ⟨fun i target hr => ?_, .inl hm⟩
    simp only [Except.ok.injEq, Option.some.injEq] at hr
    exact hm i target (hr ▸ rest)
  | aborted => exact ⟨fun i target => by simp, .inl hm⟩
  | completes => exact ⟨fun i target => by simp, .inl fun i target => by simp⟩
  | exceeds => exact ⟨fun i target => by simp, .inl hm⟩
  | goesOn _ _ _ _ _ status => exact ⟨fun i target => by simp, .inl (onTape_of_running status)⟩
  | leaves _ _ _ _ _ answer =>
    rw [strict] at answer
    subst answer
    exact ⟨fun i target => by simp, .inr ⟨_, _, rfl⟩⟩
  | fails _ _ _ _ _ _ status =>
    exact ⟨fun i target => by simp, .inl fun i target => by simp [status]⟩

/-- A call that leaves the tape fails. -/
theorem Call.onTape (h : Call job m a m') (hm : OnTape m) :
    (∀ i target, a.halt? ≠ some (.outOfBounds i target)) ∧
      (OnTape m' ∨ ∃ i target, a.error? = some (.outOfBounds i target n)) := by
  obtain ⟨k, m₁, hsteps, hreport, hflushed⟩ := h.exists_last
  have hm₁ : OnTape m₁ := by
    refine hsteps.preserves (fun m m' hstep hm => ?_) hm
    have ht := transition_step job m
    rw [hstep] at ht
    exact (ht.onTape strict hm).2.resolve_right (by simp)
  obtain ⟨hhalt, htape⟩ := (transition_step job m₁).onTape strict hm₁
  refine ⟨fun i target ha => hhalt i target (hreport.eq_of_halt? ha), ?_⟩
  rcases htape with htape | ⟨i, target, herror⟩
  · refine .inl fun i target => ?_
    rw [hflushed.status]
    exact htape i target
  · rw [herror] at hreport
    exact .inr ⟨i, target, hreport.error?_eq⟩

/-- A halt off the tape is only reported after a call has failed with it. -/
theorem Calls.exists_error_of_halt (h : Calls job m as m') (hm : OnTape m)
    {pre post : List Answer} {i : Nat} {target : Int} (split : as = pre ++ a :: post)
    (ha : a.halt? = some (.outOfBounds i target)) :
    ∃ b ∈ pre, b.error? = some (.outOfBounds i target n) := by
  induction h generalizing pre with
  | nil => simp at split
  | @cons m m₁ m₂ b as call rest ih =>
    obtain ⟨hhalt, htape⟩ := call.onTape strict hm
    cases pre with
    | nil =>
      obtain ⟨rfl, -⟩ := List.cons.inj split
      exact absurd ha (hhalt i target)
    | cons b' pre =>
      obtain ⟨rfl, rfl⟩ := List.cons.inj split
      rcases htape with htape | ⟨j, target', herror⟩
      · obtain ⟨c, hc, hcerror⟩ := ih htape rfl
        exact ⟨c, List.mem_cons_of_mem _ hc, hcerror⟩
      · -- From here on the machine rests, so the halt is the one that was recorded now.
        have hreport := (rest.of_atRest (call.atRest_of_outOfBounds herror)).1 a (by simp)
        have hsame := hreport.eq_of_halt? ha
        simp only [Except.ok.injEq, Option.some.injEq, Halt.outOfBounds.injEq] at hsame
        obtain ⟨rfl, rfl⟩ := hsame
        exact ⟨b, List.mem_cons_self, herror⟩

end

/-- What calls return after one that failed off the tape. -/
theorem Calls.reports_after_error (h : Calls job m as m') {pre post : List Answer} {i cells : Nat}
    {target : Int} (split : as = pre ++ a :: post)
    (ha : a.error? = some (.outOfBounds i target cells)) :
    ∀ b ∈ post, b = .step (.ok (some (.outOfBounds i target))) ∨
      b = .execute (.ok (.outOfBounds i target)) ∨
      ∃ j message, b = .execute (.error (.stream j (.write message))) := by
  subst split
  obtain ⟨m₁, -, hrest⟩ := h.exists_of_append
  cases hrest with
  | cons call rest =>
    intro b hb
    have hreport := (rest.of_atRest (call.atRest_of_outOfBounds ha)).1 b hb
    rcases hreport.cases_halt with hb | hb | ⟨message, hb⟩
    · exact .inl hb
    · exact .inr (.inl hb)
    · exact .inr (.inr ⟨_, message, hb⟩)

/-- Under the error policy leaving the tape is never a success, if and only if no call was made
after the one that failed off the tape. A halt off the tape is reported only after a call has failed
with it, but then it is: every later step reports it as a success, and so does every later run whose
flush does not fail. -/
theorem calls_under_error_policy {settings : MachineSettings} {program : Program} {host : Host σ}
    {streams : Streams} {state : σ} {m : Machine settings.cells σ}
    (strict : settings.bounds = .error)
    (h : Calls (.ofSettings settings program host) (start settings streams state) as m) :
    (NeverSucceedsOffTape as ↔
      ∀ pre a post i target cells, as = pre ++ a :: post →
        a.error? = some (.outOfBounds i target cells) → post = []) ∧
    (∀ pre a post i target, as = pre ++ a :: post → a.halt? = some (.outOfBounds i target) →
      ∃ b ∈ pre, b.error? = some (.outOfBounds i target settings.cells)) ∧
    ∀ pre a post i target cells, as = pre ++ a :: post →
      a.error? = some (.outOfBounds i target cells) → ∀ b ∈ post,
        b = .step (.ok (some (.outOfBounds i target))) ∨
          b = .execute (.ok (.outOfBounds i target)) ∨
          ∃ j message, b = .execute (.error (.stream j (.write message))) := by
  have hstart : OnTape (start settings streams state) := onTape_of_running rfl
  refine ⟨⟨?_, ?_⟩, ?_, ?_⟩
  · rintro ⟨hhalt, herror⟩ pre a post i target cells split ha
    -- A call that comes after breaks one half of the promise or the other.
    cases post with
    | nil => rfl
    | cons b post =>
      have hb : b ∈ as := by simp [split]
      rcases h.reports_after_error split ha b List.mem_cons_self with rfl | rfl | ⟨j, message, rfl⟩
      · exact absurd rfl (hhalt _ hb i target)
      · exact absurd rfl (hhalt _ hb i target)
      · have hlater := herror pre a _ i target cells split ha _ List.mem_cons_self
        simp [Answer.error?] at hlater
  · intro hlast
    constructor
    · intro a ha i target hhalt
      obtain ⟨pre, post, split⟩ := List.append_of_mem ha
      obtain ⟨b, hb, hberror⟩ := h.exists_error_of_halt strict hstart split hhalt
      obtain ⟨front, back, rfl⟩ := List.append_of_mem hb
      have hnil := hlast front b (back ++ a :: post) i target _ (by simp [split]) hberror
      simp at hnil
    · intro pre a post i target cells split ha b hb
      rw [hlast pre a post i target cells split ha] at hb
      contradiction
  · intro pre a post i target split ha
    exact h.exists_error_of_halt strict hstart split ha
  · intro pre a post i target cells split ha
    exact h.reports_after_error split ha

/-- The last of two calls is the one that leaves the tape, and it fails. -/
theorem calls_under_error_policy_last :
    ∃ c, compile {} "+<" = .ok c ∧ ∃ m : Machine 1 Unit,
      Calls (.ofSettings { memorySize := 1, bounds := .error } c.program .silent)
        (start { memorySize := 1, bounds := .error } {} ())
        [.step (.ok none), .execute (.error (.outOfBounds 1 (-1) 1))] m ∧
      NeverSucceedsOffTape [.step (.ok none), .execute (.error (.outOfBounds 1 (-1) 1))] := by
  have hcompile : compile {} "+<" = .ok ⟨⟨#[.run .increment 1, .run .moveLeft 1]⟩, []⟩ := by
    with_unfolding_all rfl
  let settings : MachineSettings := { memorySize := 1, bounds := .error }
  let job : Job Unit := .ofSettings settings ⟨#[.run .increment 1, .run .moveLeft 1]⟩ .silent
  let m₁ : Machine 1 Unit :=
    { next := 1, tape := ⟨#v[1], 0⟩, steps := 1, streams := {}, state := () }
  have hrun : execute job 1 m₁ = some (.error (.outOfBounds 1 (-1) 1), _) := rfl
  have hcalls : Calls job (start settings {} ()) [.step (.ok none), .execute _] _ :=
    .cons (.step _) (.cons (.execute hrun) .nil)
  refine ⟨_, hcompile, _, hcalls, (calls_under_error_policy rfl hcalls).1.mpr ?_⟩
  intro pre a post i target cells split ha
  rcases pre with _ | ⟨b, _ | ⟨b', pre⟩⟩
  · obtain ⟨rfl, -⟩ := List.cons.inj split
    contradiction
  · obtain ⟨-, hrest⟩ := List.cons.inj split
    exact (List.cons.inj hrest).2.symm
  · simp at split

/-- A run that is called again after it has failed off the tape succeeds with a halt off the tape.
-/
theorem execute_after_leaving_tape :
    ∃ c, compile {} "<" = .ok c ∧ ∃ m : Machine 1 Unit,
      Calls (.ofSettings { memorySize := 1, bounds := .error } c.program .silent)
        (start { memorySize := 1, bounds := .error } {} ())
        [.execute (.error (.outOfBounds 0 (-1) 1)), .execute (.ok (.outOfBounds 0 (-1)))] m ∧
      ¬NeverSucceedsOffTape
        [.execute (.error (.outOfBounds 0 (-1) 1)), .execute (.ok (.outOfBounds 0 (-1)))] := by
  have hcompile : compile {} "<" = .ok ⟨⟨#[.run .moveLeft 1]⟩, []⟩ := by with_unfolding_all rfl
  let settings : MachineSettings := { memorySize := 1, bounds := .error }
  let job : Job Unit := .ofSettings settings ⟨#[.run .moveLeft 1]⟩ .silent
  let m₁ : Machine 1 Unit :=
    { next := 1, tape := ⟨#v[0], 0⟩, steps := 1, status := .halted (.outOfBounds 0 (-1))
      streams := {}, state := () }
  have hrun : execute job 1 (start settings {} ()) =
      some (.error (.outOfBounds 0 (-1) 1), m₁) := rfl
  have hagain : execute job 1 m₁ = some (.ok (.outOfBounds 0 (-1)), _) := rfl
  refine ⟨_, hcompile, _, .cons (.execute hrun) (.cons (.execute hagain) .nil), fun h => ?_⟩
  exact h.1 (.execute (.ok (.outOfBounds 0 (-1)))) (by simp) 0 (-1) rfl

end Machine

end TapeMachine
