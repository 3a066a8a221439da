import TapeMachine.Proofs.Machine.Expansion
import TapeMachine.Proofs.Program.WithoutCalls

/-!
# A call that nobody answers is comment

A program whose calls nobody answers is followed by the program without them. The two machines
differ in nothing but their indices and in how many instructions they have begun: a call is passed
over by the first while the second waits, and any other step they take together
(`follows_withoutCalls`). So neither ends without the other (`execute_comment_iff_silent`).
-/

namespace TapeMachine

/-- The job with the calls taken out of its program. -/
def Job.withoutCalls {σ : Type} (job : Job σ) : Job σ :=
  { job with program := job.program.withoutCalls }

/-- What is left of a run on a tape of `n` cells. -/
structure Remains (n : Nat) where
  result : Except RuntimeError Halt
  tape : Tape n
  streams : Streams

def Remains.renumber {n : Nat} (r : Nat → Nat) (e : Remains n) : Remains n :=
  { e with result := (e.result.map (.renumber r)).mapError (.renumber r) }

namespace Machine

variable {n : Nat} {σ : Type} {r : Nat → Nat} {steps : Nat}

def remains (a : Except RuntimeError Halt × Machine n σ) : Remains n := ⟨a.1, a.2.tape, a.2.streams⟩

/-- If indices do not count, other indices leave the same. -/
theorem renumber_remains_renumberEnd (r : Nat → Nat) (steps : Nat)
    (a : Except RuntimeError Halt × Machine n σ) :
    (remains (renumberEnd r steps a)).renumber (fun _ => 0) =
      (remains a).renumber fun _ => 0 := by
  rcases a with ⟨error | halt, m⟩
  · cases error <;> rfl
  · cases halt <;> rfl

/-! ## Runs -/

section

variable {job : Job Unit} (silent : job.host = .silent) (nolimit : job.maxSteps = none)

include silent nolimit

theorem step_of_call {m : Machine n Unit} {name : String} {argument : Cell}
    (running : m.status = .running)
    (here : job.program.instructions[m.next]? = some (.call name argument)) :
    m.step job = (.ok none, { m with next := m.next + 1, steps := m.steps + 1 }) := by
  have allowed : m.limitReached? job = none := by simp [limitReached?, nolimit]
  rw [step_of_instruction running here allowed]
  simp [perform, silent]

/-- A call is passed over, and nothing stands in its place. -/
theorem replaces_withoutCall : Replaces Instruction.withoutCall job n := by
  refine replaces_of_passedOver fun m x running here => ?_
  rw [x.expand_withoutCall]
  cases x with
  | call name argument => exact .inr ⟨rfl, step_of_call silent nolimit running here⟩
  | run op count => exact .inl rfl
  | loopOpen close => exact .inl rfl
  | loopClose opening => exact .inl rfl

variable (linked : job.program.WellLinked)

include linked

/-- The machine without calls follows the one that passes over them. -/
theorem follows_withoutCalls :
    Follows job job.withoutCalls
      (fun m m' : Machine n Unit => ∃ steps, m' = m.renumber job.program.rank steps)
      (fun m => job.program.size - m.next)
      (fun x => (remains x).renumber job.program.rank) remains := by
  have hjob : job.withoutCalls = job.expand Instruction.withoutCall := by
    rw [Job.withoutCalls, Job.expand, Program.withoutCalls_eq_expand]
  rw [hjob, ← Program.place_withoutCall]
  exact follows_expand linked nolimit (replaces_withoutCall silent nolimit) fun _ _ => rfl

theorem execute_withoutCalls {m : Machine n Unit} {steps fuel : Nat} {e : Remains n}
    (h : (m.execute job fuel).map remains = some e) :
    ∃ fuel', ((m.renumber job.program.rank steps).execute job.withoutCalls fuel').map remains =
      some (e.renumber job.program.rank) := by
  obtain ⟨x, hx, rfl⟩ := Option.map_eq_some_iff.mp h
  exact execute_of_follows (follows_withoutCalls silent nolimit linked) ⟨steps, rfl⟩
    (Option.map_eq_some_iff.mpr ⟨x, hx, rfl⟩)

theorem execute_of_withoutCalls {m : Machine n Unit} {steps fuel : Nat} {e : Remains n}
    (h : ((m.renumber job.program.rank steps).execute job.withoutCalls fuel).map remains = some e) :
    ∃ fuel' e', (m.execute job fuel').map remains = some e' ∧
      e'.renumber job.program.rank = e := by
  obtain ⟨fuel', hfirst⟩ :=
    execute_of_followed (follows_withoutCalls silent nolimit linked) ⟨steps, rfl⟩ h
  obtain ⟨x, hx, rfl⟩ := Option.map_eq_some_iff.mp hfirst
  exact ⟨fuel', remains x, Option.map_eq_some_iff.mpr ⟨x, hx, rfl⟩, rfl⟩

end

end Machine

/-- A call that nobody answers is comment: a source compiled with calls and run without a host for
them, and the source compiled without, both run forever or both end, in the same way and with the
same tape and streams. Of the two programs the second is the first without its calls, and indices
count what is left. -/
theorem execute_comment_iff_silent {source : String} (h : checkBrackets source = .ok ())
    (settings : MachineSettings) (nolimit : settings.maxSteps = none) :
    ∃ c d, compile { customInstructions := true } source = .ok c ∧
      compile { customInstructions := false } source = .ok d ∧
      d.program = c.program.withoutCalls ∧
      ∀ streams e,
        (∃ fuel, (((Machine.start settings streams ()).execute
          (.ofSettings settings c.program .silent) fuel).map Machine.remains).map
            (.renumber c.program.rank) = some e) ↔
        ∃ fuel, ((Machine.start settings streams ()).execute
          (.ofSettings settings d.program .silent) fuel).map Machine.remains = some e := by
  obtain ⟨c, hc⟩ : ∃ c, compile { customInstructions := true } source = .ok c := by
    obtain ⟨_, -, hc⟩ := compile_of_checkBrackets h { customInstructions := true }
    exact ⟨_, hc⟩
  obtain ⟨d, hd, hprogram⟩ := compile_withoutCalls hc
  refine ⟨c, d, hc, hd, hprogram, fun streams e => ?_⟩
  let job : Job Unit := .ofSettings settings c.program .silent
  have silent : job.host = .silent := rfl
  have linked : job.program.WellLinked := wellLinked_of_compile hc
  have hstart : (Machine.start settings streams ()).renumber job.program.rank 0 =
      Machine.start settings streams () := rfl
  rw [hprogram]
  constructor
  · rintro ⟨fuel, hrun⟩
    obtain ⟨e', hrun', rfl⟩ := Option.map_eq_some_iff.mp hrun
    rw [← hstart]
    exact Machine.execute_withoutCalls silent nolimit linked hrun'
  · rintro ⟨fuel, hrun⟩
    rw [← hstart] at hrun
    obtain ⟨fuel', e', hrun', rfl⟩ :=
      Machine.execute_of_withoutCalls silent nolimit linked hrun
    exact ⟨fuel', Option.map_eq_some_iff.mpr ⟨e', hrun', rfl⟩⟩

theorem execute_comment_off_tape :
    ∃ c d, compile { customInstructions := true } "\x7ba\x7d>" = .ok c ∧
      compile { customInstructions := false } "\x7ba\x7d>" = .ok d ∧
      c.program.instructions = #[.call "\x7ba\x7d" 0, .run .moveRight 1] ∧
      d.program = c.program.withoutCalls ∧ ∃ fuel e,
        ((Machine.start { memorySize := 1 } {} ()).execute
          (.ofSettings { memorySize := 1 } d.program .silent) fuel).map Machine.remains = some e ∧
        e.result = .ok (.outOfBounds 0 1) := by
  have hbrackets : checkBrackets "\x7ba\x7d>" = .ok () := rfl
  have hcompile : compile { customInstructions := true } "\x7ba\x7d>" =
      .ok ⟨⟨#[.call "\x7ba\x7d" 0, .run .moveRight 1]⟩, []⟩ := by with_unfolding_all rfl
  obtain ⟨c, d, hc, hd, hprogram, hsame⟩ :=
    execute_comment_iff_silent hbrackets { memorySize := 1 } rfl
  obtain rfl := Except.ok.inj (hcompile.symm.trans hc)
  obtain ⟨fuel, hrun⟩ := (hsame {} _).mp ⟨3, rfl⟩
  exact ⟨_, d, hc, hd, rfl, hprogram, fuel, _, hrun, rfl⟩

end TapeMachine
