import TapeMachine.Proofs.Machine.Steps
import TapeMachine.Proofs.Program.Links

/-!
# Jumps that keep to loops

A program is flat, and its jumps could lead anywhere. But the loops of a compiled program do not
cross, so no jump of one loop leads into another or out of it: the region between the two ends of a
loop is entered at its start only (`successor_enters`), and it is left for the instruction behind
its end only, when the current cell is zero (`successor_leaves`). Over a run this says what one
expects of a loop: its body is entered through its start with a cell that is not zero
(`entered_of_inBody`).
-/

namespace TapeMachine

namespace Machine

variable {n : Nat} {σ : Type} {job : Job σ} {m : Machine n σ} {x : Instruction} {o c k : Nat}

/-- The next instruction is one of the loop from `o` to `c`, its two ends included. -/
def InLoop (o c : Nat) (m : Machine n σ) : Prop := o ≤ m.next ∧ m.next ≤ c

/-- The next instruction is one behind the start of the loop from `o` to `c`. -/
def InBody (o c : Nat) (m : Machine n σ) : Prop := o < m.next ∧ m.next ≤ c

theorem InBody.inLoop (h : InBody o c m) : InLoop o c m := ⟨Nat.le_of_lt h.1, h.2⟩

theorem next_eq_of_inLoop (h : InLoop o c m) (outside : ¬InBody o c m) : m.next = o := by
  unfold InLoop at h
  unfold InBody at outside
  omega

/-! ## Where a step leads -/

/-- The ends of a loop only look at the tape. -/
theorem tape_step_of_loop {j : Nat} (running : m.status = .running)
    (here : job.program.instructions[m.next]? = some x) (allowed : m.limitReached? job = none)
    (hx : x = .loopOpen j ∨ x = .loopClose j) : (m.step job).2.tape = m.tape := by
  rw [step_of_instruction running here allowed]
  rcases hx with rfl | rfl
  · by_cases hzero : m.tape.current = 0 <;> simp [perform, advance, hzero]
  · by_cases hzero : m.tape.current = 0 <;> simp [perform, advance, hzero]

section

variable (linked : job.program.WellLinked)
  (loop : job.program.instructions[o]? = some (.loopOpen c))

include linked loop

/-- No instruction leads into a loop but to its start. -/
theorem successor_enters (here : job.program.instructions[m.next]? = some x)
    (outside : ¬InLoop o c m) (first : o ≤ m.successor x) (last : m.successor x ≤ c) :
    m.successor x = o := by
  unfold InLoop at outside
  cases x with
  | run op count =>
    simp only [successor] at first last ⊢
    omega
  | call name argument =>
    simp only [successor] at first last ⊢
    omega
  | loopOpen close =>
    obtain ⟨hclose, -, -⟩ := linked.opening _ _ here
    by_cases hzero : m.tape.current = 0
    · simp only [successor, hzero, if_true] at first last ⊢
      -- The loop that is skipped ends in front of this one, since it does not go around it.
      have hlt : m.next < o := by omega
      have hnested := linked.nested _ _ _ _ here loop hlt
      omega
    · simp only [successor, hzero, if_false] at first last ⊢
      omega
  | loopClose opening =>
    obtain ⟨hopening, hopen⟩ := linked.closing _ _ here
    by_cases hzero : m.tape.current = 0
    · simp only [successor, hzero, if_true] at first last ⊢
      omega
    · simp only [successor, hzero, if_false] at first last ⊢
      -- A loop that is repeated from outside this one does not start within it.
      have hle : opening < o := by
        apply Nat.lt_of_not_le
        intro hle
        rcases Nat.eq_or_lt_of_le hle with rfl | hlt
        · obtain rfl : c = m.next := by simpa [loop] using hopen
          omega
        · have hnested := linked.nested _ _ _ _ loop hopen hlt
          omega
      omega

/-- No instruction leads out of a loop but its two ends do, behind it, when the current cell is
zero. -/
theorem successor_leaves (here : job.program.instructions[m.next]? = some x)
    (inside : InLoop o c m) (outside : ¬(o ≤ m.successor x ∧ m.successor x ≤ c)) :
    m.successor x = c + 1 ∧ m.tape.current = 0 ∧ ∃ j, x = .loopOpen j ∨ x = .loopClose j := by
  obtain ⟨hoc, -, hend⟩ := linked.opening _ _ loop
  obtain ⟨hfirst, hlast⟩ := inside
  have hne : (∀ j, x ≠ .loopClose j) → m.next ≠ c := by
    intro hx hc
    rw [hc, hend] at here
    exact hx o (Option.some.inj here).symm
  cases x with
  | run op count =>
    have hnotEnd := hne (by simp)
    simp only [successor] at outside
    omega
  | call name argument =>
    have hnotEnd := hne (by simp)
    simp only [successor] at outside
    omega
  | loopOpen close =>
    have hnotEnd := hne (by simp)
    by_cases hzero : m.tape.current = 0
    · simp only [successor, hzero, if_true] at outside ⊢
      refine ⟨?_, trivial, close, .inl rfl⟩
      rcases Nat.eq_or_lt_of_le hfirst with ho | hlt
      · rw [← ho, loop] at here
        simpa using here.symm
      · -- A loop within this one ends in it.
        have hclose := (linked.opening _ _ here).1
        have hnested := linked.nested _ _ _ _ loop here hlt
        omega
    · simp only [successor, hzero, if_false] at outside
      omega
  | loopClose opening =>
    obtain ⟨hopening, hopen⟩ := linked.closing _ _ here
    by_cases hzero : m.tape.current = 0
    · simp only [successor, hzero, if_true] at outside ⊢
      refine ⟨?_, trivial, opening, .inr rfl⟩
      omega
    · simp only [successor, hzero, if_false] at outside
      -- A loop that ends within this one starts in it.
      have hle : o ≤ opening := by
        apply Nat.le_of_not_lt
        intro hlt
        have hnested := linked.nested _ _ _ _ hopen loop hlt
        rcases Nat.eq_or_lt_of_le hlast with hc | hc
        · rw [hc, hend] at here
          obtain rfl : o = opening := by simpa using here
          omega
        · omega
      omega

/-- A step that leads into a loop leads to its start. -/
theorem step_enters (outside : ¬InLoop o c m) (inside : InLoop o c (m.step job).2) :
    (m.step job).2.next = o := by
  rcases next_step_cases job m with hstays | ⟨x, -, here, -, hnext⟩
  · unfold InLoop at outside inside
    rw [hstays] at inside
    contradiction
  · unfold InLoop at inside
    rw [hnext] at inside ⊢
    exact successor_enters linked loop here outside inside.1 inside.2

/-- A step that leads out of a loop leads behind it, and the current cell is zero. -/
theorem step_leaves (inside : InLoop o c m) (outside : ¬InLoop o c (m.step job).2) :
    (m.step job).2.next = c + 1 ∧ m.tape.current = 0 ∧ (m.step job).2.tape.current = 0 := by
  rcases next_step_cases job m with hstays | ⟨x, running, here, allowed, hnext⟩
  · unfold InLoop at outside inside
    rw [hstays] at outside
    contradiction
  · unfold InLoop at outside
    rw [hnext] at outside ⊢
    obtain ⟨hbehind, hzero, j, hx⟩ := successor_leaves linked loop here inside outside
    refine ⟨hbehind, hzero, ?_⟩
    rwa [tape_step_of_loop running here allowed hx]

/-- A step into the body of a loop is that of its start, and the current cell is not zero. -/
theorem step_enters_body (outside : ¬InBody o c m) (inside : InBody o c (m.step job).2) :
    m.next = o ∧ m.tape.current ≠ 0 := by
  by_cases hm : InLoop o c m
  · have hnext := next_eq_of_inLoop hm outside
    refine ⟨hnext, ?_⟩
    intro hzero
    unfold InBody at inside
    rcases next_step_cases job m with hstays | ⟨x, -, here, -, hsuccessor⟩
    · omega
    · rw [hnext, loop] at here
      obtain rfl := Option.some.inj here
      simp only [successor, hzero, if_true] at hsuccessor
      omega
  · have hstart := step_enters linked loop hm inside.inLoop
    unfold InBody at inside
    omega

/-! ## Runs -/

/-- A run that is in the body of a loop has come there through its start, with a cell that was not
zero, and has stayed in the body ever since. -/
theorem entered_of_inBody (outside : ¬InBody o c m) (inside : InBody o c (after job k m)) :
    ∃ j < k, (after job j m).next = o ∧ (after job j m).tape.current ≠ 0 ∧
      ∀ i, j < i → i ≤ k → InBody o c (after job i m) := by
  induction k with
  | zero => exact absurd inside outside
  | succ k ih =>
    by_cases hbefore : InBody o c (after job k m)
    · obtain ⟨j, hj, hnext, hcurrent, hsince⟩ := ih hbefore
      refine ⟨j, by omega, hnext, hcurrent, ?_⟩
      intro i hji hik
      rcases Nat.eq_or_lt_of_le hik with rfl | hlt
      · exact inside
      · exact hsince i hji (by omega)
    · have hstep := inside
      rw [after_succ] at hstep
      obtain ⟨hnext, hcurrent⟩ := step_enters_body linked loop hbefore hstep
      refine ⟨k, Nat.lt_succ_self k, hnext, hcurrent, ?_⟩
      intro i hki hik
      obtain rfl : i = k + 1 := by omega
      exact inside

end

/-- The jumps of a compiled program keep to its loops.

A step that leads into a loop from outside leads to its start, and one that leads out of a loop
leads to the instruction behind its end, with a current cell of zero. So in every run the body of a
loop is entered only through its start, with a cell that is not zero, and what is behind a loop is
reached from within it only with a cell that is zero. -/
theorem loops_entered_and_left_at_ends {compilerSettings : CompilerSettings} {source : String}
    {compiled : Compiled} (h : compile compilerSettings source = .ok compiled)
    (loop : compiled.program.instructions[o]? = some (.loopOpen c)) (settings : MachineSettings)
    (host : Host σ) (state : σ) (streams : Streams) :
    let job : Job σ := .ofSettings settings compiled.program host
    let m₀ := start settings streams state
    (∀ m m' : Machine settings.cells σ, m.step job = (.ok none, m') →
      (¬InLoop o c m → InLoop o c m' → m'.next = o) ∧
      (InLoop o c m → ¬InLoop o c m' →
        m'.next = c + 1 ∧ m.tape.current = 0 ∧ m'.tape.current = 0)) ∧
    (∀ k, InBody o c (after job k m₀) →
      ∃ j < k, (after job j m₀).next = o ∧ (after job j m₀).tape.current ≠ 0 ∧
        ∀ i, j < i → i ≤ k → InBody o c (after job i m₀)) ∧
    ∀ k, InLoop o c (after job k m₀) → ¬InLoop o c (after job (k + 1) m₀) →
      (after job (k + 1) m₀).next = c + 1 ∧ (after job (k + 1) m₀).tape.current = 0 := by
  intro job m₀
  have linked : job.program.WellLinked := wellLinked_of_compile h
  refine ⟨?_, ?_, ?_⟩
  · intro m m' hstep
    obtain rfl : (m.step job).2 = m' := congrArg Prod.snd hstep
    exact ⟨step_enters linked loop, step_leaves linked loop⟩
  · intro k inside
    have outside : ¬InBody o c m₀ := by
      intro hstart
      exact absurd hstart.1 (Nat.not_lt_zero o)
    exact entered_of_inBody linked loop outside inside
  · intro k inside outside
    rw [after_succ] at outside ⊢
    obtain ⟨hbehind, -, hzero⟩ := step_leaves linked loop inside outside
    exact ⟨hbehind, hzero⟩

/-- The inner of two loops is entered with a one and left with a zero. -/
theorem loops_entered_and_left_at_ends_inner_loop :
    ∃ compiled, compile {} "+[[-]]" = .ok compiled ∧
      compiled.program.instructions[2]? = some (.loopOpen 4) ∧
      let job : Job Unit := .ofSettings { memorySize := 1 } compiled.program .silent
      let m₀ := start { memorySize := 1 } {} ()
      (¬InLoop 2 4 (after job 1 m₀) ∧ (after job 1 m₀).step job = (.ok none, after job 2 m₀) ∧
        InLoop 2 4 (after job 2 m₀) ∧ (after job 2 m₀).next = 2) ∧
      (InBody 2 4 (after job 3 m₀) ∧
        ∃ j < 3, (after job j m₀).next = 2 ∧ (after job j m₀).tape.current ≠ 0 ∧
          ∀ i, j < i → i ≤ 3 → InBody 2 4 (after job i m₀)) ∧
      InLoop 2 4 (after job 4 m₀) ∧ ¬InLoop 2 4 (after job 5 m₀) ∧
        (after job 5 m₀).next = 5 ∧ (after job 5 m₀).tape.current = 0 := by
  have hcompile : compile {} "+[[-]]" = .ok ⟨⟨#[.run .increment 1, .loopOpen 5, .loopOpen 4,
      .run .decrement 1, .loopClose 2, .loopClose 1]⟩, []⟩ := by with_unfolding_all rfl
  have hloop : (#[.run .increment 1, .loopOpen 5, .loopOpen 4, .run .decrement 1, .loopClose 2,
      .loopClose 1] : Array Instruction)[2]? = some (.loopOpen 4) := rfl
  refine ⟨_, hcompile, hloop, ?_⟩
  intro job m₀
  obtain ⟨hsteps, hentered, hleft⟩ :=
    loops_entered_and_left_at_ends hcompile hloop { memorySize := 1 } .silent () {}
  have hnext : (after job 1 m₀).next = 1 ∧ (after job 2 m₀).next = 2 ∧
      (after job 3 m₀).next = 3 ∧ (after job 4 m₀).next = 4 ∧ (after job 5 m₀).next = 5 := by
    decide +zetaReduce +kernel
  obtain ⟨h₁, h₂, h₃, h₄, h₅⟩ := hnext
  have hbefore : ¬InLoop 2 4 (after job 1 m₀) := by simp [InLoop, h₁]
  have hat : InLoop 2 4 (after job 2 m₀) := by simp [InLoop, h₂]
  have hbody : InBody 2 4 (after job 3 m₀) := by simp [InBody, h₃]
  have hend : InLoop 2 4 (after job 4 m₀) := by simp [InLoop, h₄]
  have hbehind : ¬InLoop 2 4 (after job 5 m₀) := by simp [InLoop, h₅]
  have hstep : (after job 1 m₀).step job = (.ok none, after job 2 m₀) :=
    Prod.ext rfl (after_succ job 1 m₀).symm
  exact ⟨⟨hbefore, hstep, hat, (hsteps _ _ hstep).1 hbefore hat⟩, ⟨hbody, hentered 3 hbody⟩, hend,
    hbehind, hleft 4 hend hbehind⟩

end Machine

end TapeMachine
