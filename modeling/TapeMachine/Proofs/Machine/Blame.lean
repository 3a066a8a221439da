import TapeMachine.Proofs.Machine.Failure
import TapeMachine.Proofs.Machine.Rest
import TapeMachine.Proofs.Machine.Soundness

/-!
# Whom an error blames

An error of a run names an instruction, and one expects this to be an instruction that can have
caused it (`RuntimeError.suspects`). A step that fails names the instruction that it was to carry
out (`Transition.blames`), and a machine that was aborted remembers that index (`Calls.aborted_by`).
The flush at the end of a run names the instruction that is next, but after a halt none is: if it
fails, the error points behind the instruction that came last, and after a run that has completed it
points behind the end of the program (`blame_of_calls`).
-/

namespace TapeMachine

/-- The operators that can have caused an error. -/
def RuntimeError.suspects : RuntimeError → List Operator
  | stream _ (.write _) => [.output, .input]
  | stream _ (.read _) | stream _ .unexpectedEof => [.input]
  | outOfBounds .. => [.moveRight, .moveLeft]
  | stepLimitExceeded _ => []
  | aborted _ => [.output, .input]

/-- Instruction `i` of a program can have caused the error. -/
def RuntimeError.RightlyBlames (e : RuntimeError) (p : Program) (i : Nat) : Prop :=
  ∃ op count, p.instructions[i]? = some (.run op count) ∧ op ∈ e.suspects

theorem RuntimeError.RightlyBlames.lt_size {e : RuntimeError} {p : Program} {i : Nat}
    (h : e.RightlyBlames p i) : i < p.size := by
  obtain ⟨op, count, here, -⟩ := h
  exact Program.lt_size_of_getElem? here

namespace Machine

variable {n : Nat} {σ : Type} {job : Job σ} {k i : Nat} {m m' : Machine n σ} {e : RuntimeError}
  {a : Answer} {as : List Answer}

theorem halted?_eq_some_iff {halt : Halt} : m.halted? = some halt ↔ m.status = .halted halt := by
  unfold halted?
  cases m.status <;> simp

/-! ## Errors of a step -/

/-- An error that is new with a step names the instruction of that step. -/
theorem Transition.blames (h : Transition job m (.error e) m') (hm : ∀ j, m.status ≠ .aborted j)
    (hi : e.instruction? = some i) :
    e.RightlyBlames job.program i ∧ ∀ j, e ≠ .aborted j := by
  cases h with
  | aborted rest => exact absurd rest (hm _)
  | exceeds => contradiction
  | @leaves op count _ _ _ here _ move _ answer =>
    cases hbounds : job.bounds with
    | halt => simp [hbounds] at answer
    | error =>
      simp only [hbounds, Except.error.injEq] at answer
      subst answer
      obtain rfl := Option.some.inj hi
      refine ⟨⟨op, count, here, ?_⟩, by simp⟩
      cases op <;> simp [Operator.offset?, RuntimeError.suspects] at move ⊢
  | @fails op count cause _ _ here _ uses =>
    obtain rfl := Option.some.inj hi
    refine ⟨⟨op, count, here, ?_⟩, by simp⟩
    rcases uses with rfl | ⟨rfl, message, rfl⟩
    · cases cause <;> simp [RuntimeError.suspects]
    · simp [RuntimeError.suspects]

/-- Only a step that fails at a stream aborts a machine. -/
theorem Transition.eq_of_aborts {r : StepResult} (h : Transition job m r m')
    (hm : ∀ j, m.status ≠ .aborted j) (hm' : m'.status = .aborted i) :
    ∃ cause, r = .error (.stream i cause) := by
  cases h with
  | halted rest => simp [rest] at hm'
  | aborted rest => exact absurd rest (hm _)
  | completes => contradiction
  | exceeds => exact absurd hm' (hm i)
  | goesOn _ _ _ _ _ status => simp [status] at hm'
  | leaves => contradiction
  | @fails _ _ cause _ _ _ _ _ _ _ status =>
    obtain rfl := Status.aborted.inj (status.symm.trans hm')
    exact ⟨cause, rfl⟩

/-! ## Errors of a call -/

theorem Steps.not_aborted (h : Steps job k m m') (hm : ∀ j, m.status ≠ .aborted j) :
    ∀ j, m'.status ≠ .aborted j := by
  refine h.preserves (P := fun m => ∀ j, m.status ≠ .aborted j) ?_ hm
  intro m m' hstep _ j
  rw [status_of_goesOn hstep]
  exact Status.noConfusion

/-- An error that is new with a call names an instruction that can have caused it, or it is the
failure of the last flush of a run, which names the instruction that is next. -/
theorem Call.blames (h : Call job m a m') (hm : ∀ j, m.status ≠ .aborted j)
    (herror : a.error? = some e) (hi : e.instruction? = some i) :
    (e.RightlyBlames job.program i ∧ (∀ j, e ≠ .aborted j) ∧
      ∀ j cause, e = .stream j cause → m'.status = .aborted j) ∨
    (∃ halt, m'.status = .halted halt) ∧ a = .execute (.error e) ∧
      ∃ message, e = .stream m'.next (.write message) := by
  obtain ⟨k, m₁, hsteps, hreport, hflushed⟩ := h.exists_last
  have ht := transition_step job m₁
  rcases hreport.error_cases herror with hlast | ⟨⟨halt, hlast⟩, hexecute, hwrite⟩
  · rw [hlast] at ht
    obtain ⟨hblames, hnew⟩ := ht.blames (hsteps.not_aborted hm) hi
    refine .inl ⟨hblames, hnew, ?_⟩
    rintro j cause rfl
    exact hflushed.status.trans ht.status_of_stream_error
  · rw [hlast] at ht
    exact .inr ⟨⟨halt, hflushed.status.trans ht.status_of_halt⟩, hexecute, hwrite⟩

theorem Call.stream_error_of_aborts (h : Call job m a m') (hm : ∀ j, m.status ≠ .aborted j)
    (hm' : m'.status = .aborted i) : ∃ cause, a.error? = some (.stream i cause) := by
  obtain ⟨k, m₁, hsteps, hreport, hflushed⟩ := h.exists_last
  have hlast : (m₁.step job).2.status = .aborted i := hflushed.status.symm.trans hm'
  obtain ⟨cause, hcause⟩ :=
    (transition_step job m₁).eq_of_aborts (hsteps.not_aborted hm) hlast
  rw [hcause] at hreport
  exact ⟨cause, hreport.error?_eq⟩

/-- A machine that was aborted was so by the one stream error that was returned. -/
theorem Calls.aborted_by (h : Calls job m as m') (hm : ∀ j, m.status ≠ .aborted j)
    (hm' : m'.status = .aborted i) :
    (∃ b ∈ as, ∃ cause, b.error? = some (.stream i cause)) ∧
      ∀ b ∈ as, ∀ j cause, b.error? = some (.stream j cause) → j = i := by
  induction h with
  | nil => exact absurd hm' (hm i)
  | @cons m m₁ m₂ a as call rest ih =>
    cases hstatus : m₁.status with
    | running =>
      have hrunning : ∀ j, m₁.status ≠ .aborted j := by
        intro j
        rw [hstatus]
        exact Status.noConfusion
      obtain ⟨⟨b, hb, herror⟩, hall⟩ := ih hrunning hm'
      refine ⟨⟨b, List.mem_cons_of_mem a hb, herror⟩, ?_⟩
      intro b hb j cause hstream
      rcases List.mem_cons.mp hb with rfl | hb
      · rcases call.status_of_stream_error hstream with habort | ⟨⟨halt, hhalt⟩, -⟩
        · simp [hstatus] at habort
        · simp [hstatus] at hhalt
      · exact hall b hb j cause hstream
    | halted halt =>
      obtain ⟨-, hflushed, -⟩ := rest.of_atRest (.halted hstatus)
      have hhalted := hflushed.status.trans hstatus
      simp [hm'] at hhalted
    | aborted j =>
      obtain ⟨hanswers, rfl⟩ := rest.of_aborted hstatus
      obtain rfl := Status.aborted.inj (hstatus.symm.trans hm')
      obtain ⟨cause, herror⟩ := call.stream_error_of_aborts hm hstatus
      refine ⟨⟨a, List.mem_cons_self, cause, herror⟩, ?_⟩
      intro b hb i cause' hstream
      rcases List.mem_cons.mp hb with rfl | hb
      · rw [herror] at hstream
        simp only [Option.some.injEq, RuntimeError.stream.injEq] at hstream
        exact hstream.1.symm
      · simp [hanswers b hb] at hstream

/-! ## Errors of all calls -/

section

variable {settings : MachineSettings} {program : Program} {m : Machine settings.cells σ}

theorem Sound.blames_of_aborted (h : Sound settings program m) (hm : m.status = .aborted i) :
    (RuntimeError.aborted i).RightlyBlames program i := by
  have hstatus := h.status
  rw [hm] at hstatus
  obtain ⟨-, count, here | here⟩ := hstatus
  · exact ⟨.output, count, here, List.mem_cons_self⟩
  · exact ⟨.input, count, here, List.mem_cons_of_mem _ List.mem_cons_self⟩

/-- Where a machine stands that has halted. -/
theorem Sound.next_of_halted {halt : Halt} (h : Sound settings program m)
    (hm : m.status = .halted halt) :
    (halt = .completed → m.next = program.size) ∧
      ∀ j target, halt = .outOfBounds j target → m.next = j + 1 := by
  have hstatus := h.status
  rw [hm] at hstatus
  cases halt with
  | completed => exact ⟨fun _ => hstatus, nofun⟩
  | outOfBounds j target =>
    refine ⟨nofun, ?_⟩
    rintro j' target' ⟨⟩
    exact hstatus.1

end

/-- An error names an instruction of the program that can have caused it, if it is not the failure
of the last flush of a run; and that the run was aborted is said of the instruction of the stream
error that was returned before.

The failure of the last flush is returned by a machine that has halted, and it names the instruction
that would be next: if the program has completed there is none with this index, and if the head has
left the tape it is the one behind the move. -/
theorem blame_of_calls {compilerSettings : CompilerSettings} {source : String} {c : Compiled}
    (hcompile : compile compilerSettings source = .ok c) (settings : MachineSettings)
    (host : Host σ) (state : σ) (streams : Streams) {m m' : Machine settings.cells σ}
    (h : Calls (.ofSettings settings c.program host) (start settings streams state) as m)
    (hcall : Call (.ofSettings settings c.program host) m a m')
    (herror : a.error? = some e) (hi : e.instruction? = some i) :
    ((m'.halted? = none ∨ ∀ j cause, e ≠ .stream j cause) →
      i < c.program.size ∧ e.RightlyBlames c.program i ∧
      (e = .aborted i →
        (∃ b ∈ as, ∃ cause, b.error? = some (.stream i cause)) ∧
          ∀ b ∈ as, ∀ j cause, b.error? = some (.stream j cause) → j = i)) ∧
    ∀ halt, m'.halted? = some halt → (∃ j cause, e = .stream j cause) →
      a = .execute (.error e) ∧ (∃ message, e = .stream i (.write message)) ∧
      (halt = .completed → i = c.program.size) ∧
      ∀ j target, halt = .outOfBounds j target → i = j + 1 := by
  have hlinked := wellLinked_of_compile hcompile
  have hsound : Sound settings c.program m := h.sound hlinked (sound_start _ streams state)
  have hsound' : Sound settings c.program m' := (Calls.cons hcall .nil).sound hlinked hsound
  have hstart : ∀ j, (start settings streams state).status ≠ .aborted j := nofun
  by_cases habort : ∃ j, m.status = .aborted j
  · obtain ⟨j, hstatus⟩ := habort
    obtain ⟨hanswer, rfl⟩ := hcall.of_aborted hstatus
    obtain rfl := Option.some.inj (herror.symm.trans hanswer)
    obtain rfl := Option.some.inj hi
    have hblames := hsound.blames_of_aborted hstatus
    refine ⟨fun _ => ⟨hblames.lt_size, hblames, fun _ => h.aborted_by hstart hstatus⟩, ?_⟩
    rintro halt - ⟨j, cause, hstream⟩
    contradiction
  · have hm : ∀ j, m.status ≠ .aborted j := fun j hj => habort ⟨j, hj⟩
    rcases hcall.blames hm herror hi with
      ⟨hblames, hnew, hstream⟩ | ⟨⟨halt, hhalt⟩, hexecute, message, rfl⟩
    · refine ⟨fun _ => ⟨hblames.lt_size, hblames, fun haborted => absurd haborted (hnew i)⟩, ?_⟩
      rintro halt hhalt ⟨j, cause, he⟩
      rw [halted?_eq_some_iff, hstream j cause he] at hhalt
      contradiction
    · obtain rfl := Option.some.inj hi
      have hsome := halted?_eq_some_iff.mpr hhalt
      refine ⟨?_, ?_⟩
      · rintro (hnone | hother)
        · simp [hsome] at hnone
        · exact absurd rfl (hother m'.next (.write message))
      · intro halt' hsome' _
        obtain rfl := Option.some.inj (hsome.symm.trans hsome')
        exact ⟨hexecute, ⟨message, rfl⟩, hsound'.next_of_halted hhalt⟩

/-- The input ends at a read, and a later step says so too. -/
theorem blame_of_calls_read :
    ∃ c, compile {} "+," = .ok c ∧ ∃ m : Machine 1 Unit,
      Calls (.ofSettings { memorySize := 1 } c.program .silent) (start { memorySize := 1 } {} ())
        [.execute (.error (.stream 1 .unexpectedEof))] m ∧
      Call (.ofSettings { memorySize := 1 } c.program .silent) m
        (.step (.error (.aborted 1))) m ∧
      m.halted? = none ∧ 1 < c.program.size ∧
      (RuntimeError.aborted 1).RightlyBlames c.program 1 := by
  have hcompile : compile {} "+," = .ok ⟨⟨#[.run .increment 1, .run .input 1]⟩, []⟩ := by
    with_unfolding_all rfl
  let job : Job Unit :=
    .ofSettings { memorySize := 1 } ⟨#[.run .increment 1, .run .input 1]⟩ .silent
  have hrun : execute job 2 (start { memorySize := 1 } {} ()) =
      some (.error (.stream 1 .unexpectedEof), _) := rfl
  have hcalls := Calls.cons (.execute hrun) .nil
  obtain ⟨hlt, hblames, -⟩ :=
    (blame_of_calls hcompile _ _ _ _ hcalls (.step _) rfl rfl).1 (.inl rfl)
  exact ⟨_, hcompile, _, hcalls, .step _, rfl, hlt, hblames⟩

/-- The last flush of a run fails, and the error names an instruction behind the end of the program,
although the byte was written by the only one that there is. -/
theorem failed_flush_blames_no_instruction :
    ∃ c, compile {} "." = .ok c ∧
      let e := RuntimeError.stream 1 (.write "boom")
      (∃ m : Machine 1 Unit,
        Call (.ofSettings { memorySize := 1 } c.program .silent)
          (start { memorySize := 1 } { flushes := [.fail ⟨.other, "boom"⟩] } ())
          (.execute (.error e)) m) ∧
      e.instruction? = some 1 ∧ ¬1 < c.program.size ∧ ¬e.RightlyBlames c.program 1 := by
  have hcompile : compile {} "." = .ok ⟨⟨#[.run .output 1]⟩, []⟩ := by with_unfolding_all rfl
  have hrun : execute (.ofSettings { memorySize := 1 } ⟨#[.run .output 1]⟩ .silent) 2
      (start { memorySize := 1 } { flushes := [.fail ⟨.other, "boom"⟩] } ()) =
        some (.error (.stream 1 (.write "boom")), _) := rfl
  have hbehind : ¬1 < (⟨#[.run .output 1]⟩ : Program).size := by decide
  exact ⟨_, hcompile, ⟨_, .execute hrun⟩, rfl, hbehind, fun hblames => hbehind hblames.lt_size⟩

end Machine

end TapeMachine
