import TapeMachine.Proofs.Machine.Calls
import TapeMachine.Proofs.Program.Links

/-!
# What holds of a machine at all times

`Sound` is the invariant of a machine that runs a compiled program. The tape and the head are safe
by their types; that no jump leaves the program is due to the links of the program, and that a
recorded halt or failure names the right instruction is due to the order in which a step works.
-/

namespace TapeMachine

namespace Machine

variable {σ : Type} {settings : MachineSettings} {program : Program} {host : Host σ}
  {m m' : Machine settings.cells σ}

/-- A machine that was made with `settings` and runs `program` is in order. -/
structure Sound (settings : MachineSettings) (program : Program)
    (m : Machine settings.cells σ) : Prop where
  next_le : m.next ≤ program.size
  size_cells : m.tape.cells.toArray.size = max settings.memorySize 1
  head_lt : m.tape.head.val < m.tape.cells.toArray.size
  steps_le : ∀ limit, settings.maxSteps = some limit → m.steps ≤ limit
  /-- The head has not moved since the tape was to be left, so the target can be found again. -/
  status : match m.status with
    | .running => True
    | .halted .completed => m.next = program.size
    | .halted (.outOfBounds i target) =>
      m.next = i + 1 ∧ ¬(0 ≤ target ∧ target < m.tape.cells.toArray.size) ∧ ∃ count : Nat,
        program.instructions[i]? = some (.run .moveRight count) ∧
          target = max Int64.minValue.toInt
            (min Int64.maxValue.toInt ((m.tape.head.val : Int) + count)) ∨
        program.instructions[i]? = some (.run .moveLeft count) ∧
          target = max Int64.minValue.toInt
            (min Int64.maxValue.toInt ((m.tape.head.val : Int) - count))
    | .aborted i => m.next = i ∧ ∃ count,
        program.instructions[i]? = some (.run .output count) ∨
        program.instructions[i]? = some (.run .input count)

theorem sound_start (program : Program) (streams : Streams) (state : σ) :
    Sound settings program (start settings streams state) where
  next_le := Nat.zero_le _
  size_cells := Vector.size_toArray _
  head_lt := by simpa [start, Tape.blank] using settings.cells_pos
  steps_le _ _ := Nat.zero_le _
  status := trivial

/-- An instruction that is carried out never leads out of the program. -/
theorem successor_le {n : Nat} {m : Machine n σ} (hlinked : program.WellLinked) {i : Instruction}
    (here : program.instructions[m.next]? = some i) : m.successor i ≤ program.size := by
  have hlt := Program.lt_size_of_getElem? here
  cases i with
  | loopOpen close =>
    have := (hlinked.opening _ _ here).2.1
    simp only [successor]
    split <;> omega
  | loopClose opening =>
    have := (hlinked.closing _ _ here).1
    simp only [successor]
    split <;> omega
  | run op count => exact hlt
  | call name argument => exact hlt

theorem not_mem_of_moveTo?_eq_none {n : Nat} {t : Tape n} {target : Int}
    (h : t.moveTo? target = none) : ¬(0 ≤ target ∧ target < t.cells.toArray.size) := by
  unfold Tape.moveTo? at h
  split at h
  · contradiction
  · next hout =>
    rw [Vector.size_toArray]
    omega

theorem Transition.sound {result : StepResult} (hlinked : program.WellLinked)
    (ht : Transition (.ofSettings settings program host) m result m')
    (h : Sound settings program m) : Sound settings program m' := by
  cases ht with
  | halted => exact h
  | aborted => exact h
  | exceeds => exact h
  | completes _ last =>
    have hend : m.next = program.size :=
      Nat.le_antisymm h.next_le (Array.getElem?_eq_none_iff.mp last)
    exact ⟨h.next_le, h.size_cells, h.head_lt, h.steps_le, hend⟩
  | goesOn _ here allowed next steps status =>
    refine ⟨next ▸ successor_le hlinked here, Vector.size_toArray _, ?_, fun limit hlimit => ?_, ?_⟩
    · rw [Vector.size_toArray]
      exact m'.tape.head.isLt
    · rw [steps]
      exact lt_of_limitReached?_eq_none allowed hlimit
    · rw [status]
      trivial
  | @leaves op count offset _ _ here allowed move off _ =>
    refine ⟨Program.lt_size_of_getElem? here, h.size_cells, h.head_lt,
      fun limit hlimit => lt_of_limitReached?_eq_none allowed hlimit, rfl,
      not_mem_of_moveTo?_eq_none off, count, ?_⟩
    cases op <;> simp only [Operator.offset?, reduceCtorEq, Option.some.injEq] at move
    · subst move
      exact .inl ⟨here, rfl⟩
    · subst move
      exact .inr ⟨here, by rw [Int.sub_eq_add_neg]; rfl⟩
  | @fails op count cause m' _ here allowed uses next steps status =>
    refine ⟨next ▸ h.next_le, Vector.size_toArray _, ?_, fun limit hlimit => ?_, ?_⟩
    · rw [Vector.size_toArray]
      exact m'.tape.head.isLt
    · rw [steps]
      exact lt_of_limitReached?_eq_none allowed hlimit
    · rw [status]
      refine ⟨next, count, ?_⟩
      rcases uses with rfl | ⟨rfl, -⟩
      · exact .inr here
      · exact .inl here

/-- Other streams do not concern the invariant. -/
theorem Sound.with_streams (h : Sound settings program m) (streams : Streams) :
    Sound settings program { m with streams } :=
  ⟨h.next_le, h.size_cells, h.head_lt, h.steps_le, h.status⟩

theorem Calls.sound {as : List Answer} (hlinked : program.WellLinked)
    (h : Calls (.ofSettings settings program host) m as m') (hm : Sound settings program m) :
    Sound settings program m' :=
  h.preserves (fun m hm => (transition_step _ m).sound hlinked hm)
    (fun _ streams hm => hm.with_streams streams) hm

/-- A machine with a compiled program is in order after every sequence of calls, whatever its
streams and its host do, and what it carries out next refers to nothing outside the program. -/
theorem sound_of_calls {compilerSettings : CompilerSettings} {source : String} {c : Compiled}
    (hcompile : compile compilerSettings source = .ok c) (settings : MachineSettings)
    (host : Host σ) (state : σ) (streams : Streams) {as : List Answer}
    {m : Machine settings.cells σ}
    (h : Calls (.ofSettings settings c.program host) (start settings streams state) as m) :
    Sound settings c.program m ∧
      ∀ x, c.program.instructions[m.next]? = some x → x.partner < c.program.size := by
  have hlinked := wellLinked_of_compile hcompile
  refine ⟨h.sound hlinked (sound_start _ streams state), fun x hx => ?_⟩
  have hlt := Program.lt_size_of_getElem? hx
  cases x with
  | loopOpen close => exact (hlinked.opening _ _ hx).2.1
  | loopClose opening => exact Nat.lt_trans (hlinked.closing _ _ hx).1 hlt
  | run op count => exact Nat.zero_lt_of_lt hlt
  | call name argument => exact Nat.zero_lt_of_lt hlt

theorem sound_of_calls_off_tape :
    ∃ c, compile {} "+>>" = .ok c ∧ ∃ as m,
      Calls (.ofSettings { memorySize := 2 } c.program .silent)
        (start { memorySize := 2 } {} ()) as m ∧
      m.status = .halted (.outOfBounds 1 2) ∧ Sound { memorySize := 2 } c.program m := by
  have hcompile : compile {} "+>>" =
      .ok ⟨⟨#[.run .increment 1, .run .moveRight 2]⟩, []⟩ := by with_unfolding_all rfl
  have hcalls : Calls (.ofSettings { memorySize := 2 }
      ⟨#[.run .increment 1, .run .moveRight 2]⟩ .silent) (start { memorySize := 2 } {} ()) _ _ :=
    .cons (.step _) (.cons (.step _) .nil)
  exact ⟨_, hcompile, _, _, hcalls, rfl, (sound_of_calls hcompile _ _ _ _ hcalls).1⟩

end Machine

end TapeMachine
