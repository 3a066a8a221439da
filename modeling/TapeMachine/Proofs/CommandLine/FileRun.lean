import TapeMachine.Proofs.CommandLine.Session

/-!
# Calls with a source file

A call that is given the path of a source compiles the text of that file under the merged settings
and runs it. What can be seen of the call, its exit code and its standard output, is what the
compiler and the machine come to and nothing else (`outcome_eq_compile_then_run`): a source that is
refused leaves no output at all, and what a run has written before it fails stays.
-/

namespace TapeMachine.CommandLine

variable {words : Wording} {t : FileTree} {args : List String} {options : Options}
  {ready : Prepared} {compileOnly : Bool} {settings : RunSettings} {entry : Option String}
  {path source : String} {compiled : Compiled}

/-! ## What is seen of the work on a source -/

theorem outcome_runSource_of_error {e : BracketError}
    (h : compile settings.compiler source = .error e) (input : List UInt8) (fuel : Nat) :
    (runSource compileOnly settings entry source input fuel).map Transcript.outcome =
      some (1, []) := by
  unfold runSource
  rw [h]
  rfl

theorem outcome_runSource_compileOnly (h : compile settings.compiler source = .ok compiled)
    (input : List UInt8) (fuel : Nat) :
    (runSource true settings entry source input fuel).map Transcript.outcome =
      some (0, (dumpText settings compiled).toUTF8.toList
        ++ s!"✅ Compilation successful: {compiled.program.size} instructions\n".toUTF8.toList) := by
  unfold runSource
  rw [h]
  rfl

/-- A source that is only compiled takes nothing from the input. -/
theorem runSource_compileOnly (settings : RunSettings) (entry : Option String) (source : String)
    (input input' : List UInt8) (fuel fuel' : Nat) :
    runSource true settings entry source input fuel =
      runSource true settings entry source input' fuel' := by
  unfold runSource
  cases compile settings.compiler source <;> rfl

theorem outcome_runSource (h : compile settings.compiler source = .ok compiled)
    (input : List UInt8) (fuel : Nat) :
    (runSource false settings entry source input fuel).map Transcript.outcome =
      (compiled.program.run settings.machine Commands.host [] (.ofInput input) fuel).map
        fun ending => ((endingTranscript settings source ending).precededBy
          (dumpText settings compiled)).outcome := by
  unfold runSource
  rw [h]
  dsimp only
  rw [if_neg Bool.false_ne_true, Option.map_map, Option.map_map]
  rfl

theorem outcome_ending_of_ok {n : Nat} {ending : Ending n (List CommandNote)} {halt : Halt}
    (h : ending.result = .ok halt) (printed : String) :
    ((endingTranscript settings source ending).precededBy printed).outcome =
      (0, printed.toUTF8.toList ++ (ending.machine.streams.output
        ++ "\nExecution finished\n".toUTF8.toList)) := by
  unfold endingTranscript
  rw [h]
  rfl

theorem outcome_ending_of_error {n : Nat} {ending : Ending n (List CommandNote)} {e : RuntimeError}
    (h : ending.result = .error e) (printed : String) :
    ((endingTranscript settings source ending).precededBy printed).outcome =
      (1, printed.toUTF8.toList ++ ending.machine.streams.output) := by
  unfold endingTranscript
  rw [h]
  rfl

/-! ## The whole call -/

/-- What is seen of a call with a source file. What the options say about the machine goes before
what the project file says. A source that is refused leaves no output. After a source that is
compiled there is the program as JSON, if it was asked for, and then either one line with the size
of the program, in a call that is the same whatever its input is, or what the machine writes: with a
last line if it comes to a halt, and with nothing more if it fails. -/
theorem outcome_eq_compile_then_run (hparse : Options.parse args = .ok options)
    (hready : prepare words t options = .ok ready) (hfile : options.file = some path)
    (hsource : textAt t path = .ok source) :
    let project := ready.project
    let machine : MachineSettings :=
      { memorySize := options.memorySize.getD project.machine.memorySize
        bounds := if options.strictBounds then .error else project.machine.bounds
        maxSteps := options.maxSteps.or project.machine.maxSteps }
    let outcome stdin fuel := (sessionIn words t args stdin fuel).2.map Transcript.outcome
    (∀ e, compile project.compiler source = .error e →
      ∀ stdin fuel, outcome stdin fuel = some (1, [])) ∧
    ∀ compiled, compile project.compiler source = .ok compiled →
      let dump := if options.dump then (compiled.program.json "main").pretty ++ "\n" else ""
      let success := s!"✅ Compilation successful: {compiled.program.size} instructions\n"
      (options.compileOnly = true → ∀ stdin fuel,
        outcome stdin fuel = some (0, dump.toUTF8.toList ++ success.toUTF8.toList) ∧
        ∀ stdin' fuel', sessionIn words t args stdin fuel = sessionIn words t args stdin' fuel') ∧
      (options.compileOnly = false → ∀ stdin fuel,
        match compiled.program.run machine Commands.host [] (.ofInput stdin) fuel with
        | none => outcome stdin fuel = none
        | some ending =>
          let written := ending.machine.streams.output
          (∀ halt, ending.result = .ok halt → outcome stdin fuel =
            some (0, dump.toUTF8.toList ++ (written ++ "\nExecution finished\n".toUTF8.toList))) ∧
          (∀ e, ending.result = .error e →
            outcome stdin fuel = some (1, dump.toUTF8.toList ++ written))) := by
  intro project machine outcome
  let settings := options.runSettings project
  have hentry : options.entryPath? ready.project = some path := by
    unfold Options.entryPath?
    rw [hfile]
    rfl
  have hsession : ∀ stdin fuel, sessionIn words t args stdin fuel =
      (options.logSettings ready.filter,
        runSource options.compileOnly settings path source stdin fuel) := by
    intro stdin fuel
    exact sessionIn_of_entry stdin fuel hparse hready hentry hsource
  have houtcome : ∀ stdin fuel, outcome stdin fuel =
      (runSource options.compileOnly settings path source stdin fuel).map Transcript.outcome := by
    intro stdin fuel
    exact congrArg (fun r => r.2.map Transcript.outcome) (hsession stdin fuel)
  constructor
  · intro e he stdin fuel
    rw [houtcome]
    exact outcome_runSource_of_error he stdin fuel
  intro compiled hcompile dump success
  have hdump : dumpText settings compiled = dump := rfl
  have hmachine : settings.machine = machine := rfl
  constructor
  · intro honly stdin fuel
    constructor
    · rw [houtcome, honly, outcome_runSource_compileOnly hcompile, hdump]
    · intro stdin' fuel'
      rw [hsession, hsession, honly]
      exact congrArg (options.logSettings ready.filter, ·) (runSource_compileOnly ..)
  · intro honly stdin fuel
    rw [houtcome, honly, outcome_runSource hcompile, hdump, hmachine]
    cases compiled.program.run machine Commands.host [] (.ofInput stdin) fuel with
    | none => rfl
    | some ending =>
      constructor
      · intro halt hhalt
        exact congrArg some (outcome_ending_of_ok hhalt dump)
      · intro e he
        exact congrArg some (outcome_ending_of_error he dump)

/-- The project file does not let the head leave the tape, and the byte that was written before it
tries to stays on the standard output. -/
theorem outcome_eq_compile_then_run_off_tape :
    let words : Wording := default
    let t := FileTree.ofList
      [("tapevm.json", "\x7b\"machine\": \x7b\"bounds\": \"error\"\x7d\x7d".toUTF8),
       ("code.bf", "+.<".toUTF8)]
    let args := ["--config", "tapevm.json", "--memory-size", "2", "code.bf"]
    let options : Options :=
      { file := some "code.bf", config := some "tapevm.json", memorySize := some 2 }
    let ready : Prepared := ⟨{ machine := { bounds := .error } }, {}, t⟩
    Options.parse args = .ok options ∧ prepare words t options = .ok ready ∧
      options.file = some "code.bf" ∧ textAt t "code.bf" = .ok "+.<" ∧
      (sessionIn words t args [] 5).2.map Transcript.outcome = some (1, [1]) := by
  intro words t args options ready
  have hparse : Options.parse args = .ok options := by with_unfolding_all rfl
  have hsource : textAt t "code.bf" = .ok "+.<" := textAt_of_read (by with_unfolding_all rfl)
  have hproject : projectAt words t "tapevm.json" = .ok ready.project :=
    projectAt_of_textAt (textAt_of_read (by with_unfolding_all rfl)) (by decide +kernel)
  have hready : prepare words t options = .ok ready :=
    prepare_eq_ok_iff.mpr ⟨(Option.elim_some _ _ _).trans hproject, rfl, rfl⟩
  have hcompile : compile ready.project.compiler "+.<" =
      .ok ⟨⟨#[.run .increment 1, .run .output 1, .run .moveLeft 1]⟩, []⟩ := by
    with_unfolding_all rfl
  have hrun := ((outcome_eq_compile_then_run hparse hready rfl hsource).2 _ hcompile).2 rfl [] 5
  obtain ⟨-, herror⟩ := hrun
  have houtcome := herror (.outOfBounds 2 (-1) 2) rfl
  exact ⟨hparse, hready, rfl, hsource, houtcome.trans (by with_unfolding_all rfl)⟩

end TapeMachine.CommandLine
