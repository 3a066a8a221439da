import TapeMachine.Program.Compile
import TapeMachine.Machine.Execute
import TapeMachine.Report

/-!
# From source to halt

The steps from a source to the end of its run, with the events they log. The events are functions of
what was given and what came out, so logging cannot change a run.
-/

namespace TapeMachine

open Log

/-! ## Compiling -/

def ArgumentError.event (e : ArgumentError) : Event :=
  { level := .warn, phase := .compiler, message := s!"{e.message}; using 0" }

namespace Compiled

/-- What compiling a source logs on the way to success. -/
def events (c : Compiled) (source : String) : List Event :=
  { level := .trace, phase := .validator, message := "brackets balanced"
    fields := [("bytes", .number source.utf8ByteSize)] }
  :: c.diagnostics.map ArgumentError.event
  ++ [{ level := .debug, phase := .compiler, message := "compilation completed"
        fields := [("source_bytes", .number source.utf8ByteSize)
          , ("instructions", .number c.program.size)
          , ("diagnostics", .number c.diagnostics.length)] }]

def summary (c : Compiled) : Event :=
  let instructions := c.program.size
  let diagnostics := c.diagnostics.length
  { level := .debug, phase := .compiler
    message :=
      s!"compilation completed: instructions={instructions}, diagnostics={diagnostics}" }

end Compiled

/-- What `compile` logs about a source and its result. A source that is refused logs nothing. -/
def compileEvents (source : String) : Except BracketError Compiled → List Event
  | .ok c => c.events source
  | .error _ => []

/-! ## Running a program -/

/-- How a run ended, and the machine that is left. -/
structure Ending (n : Nat) (σ : Type) where
  result : Except RuntimeError Halt
  machine : Machine n σ

namespace Ending

variable {n : Nat} {σ : Type}

/-- What the machine logs: a warning if it halted because the head left the tape, and the halt if
the run was a success. -/
def machineEvents (e : Ending n σ) (bounds : BoundsPolicy) : List Event :=
  let left := match e.machine.halted?, bounds with
    | some (.outOfBounds i target), .halt =>
      [{ level := .warn, phase := .vm, message := "data pointer left the tape, halting"
         fields := [("instruction", .number i), ("data_pointer", .number target)] }]
    | _, _ => []
  let halted := match e.result with
    | .ok halt =>
      [{ level := .debug, phase := .vm, message := "execution halted"
         fields := [("steps", .number e.machine.steps)
           , ("data_pointer", .number e.machine.tape.head)
           , ("halt", .plain halt.text)] }]
    | .error _ => []
  left ++ halted

end Ending

/-- Runs a program from the start, if it ends in fewer than `fuel` steps. -/
def Program.run {σ : Type} (p : Program) (settings : MachineSettings) (host : Host σ) (state : σ)
    (streams : Streams) (fuel : Nat) : Option (Ending settings.cells σ) :=
  ((Machine.start settings streams state).execute (.ofSettings settings p host) fuel).map
    fun (result, machine) => ⟨result, machine⟩

/-! ## Both together -/

/-- How a source fared: it was refused, or its program ran to an end. -/
inductive Outcome (n : Nat) (σ : Type) where
  | refused (cause : BracketError)
  | ended (compiled : Compiled) (ending : Ending n σ)

/-- Compiles a source and runs its program, if it ends in fewer than `fuel` steps. -/
def run {σ : Type} (settings : RunSettings) (source : String) (host : Host σ) (state : σ)
    (streams : Streams) (fuel : Nat) : Option (Outcome settings.machine.cells σ) :=
  match compile settings.compiler source with
  | .error e => some (.refused e)
  | .ok compiled =>
    (compiled.program.run settings.machine host state streams fuel).map (.ended compiled)

namespace Outcome

variable {n : Nat} {σ : Type}

/-- The halt that was reached, or what kept the source from reaching one. -/
def result : Outcome n σ → Except Failure Halt
  | refused e => .error (.source e)
  | ended _ ending =>
    match ending.result with
    | .ok halt => .ok halt
    | .error e => .error (.runtime e)

def machine? : Outcome n σ → Option (Machine n σ)
  | refused _ => none
  | ended _ ending => some ending.machine

/-- The bytes that were written, also those before a failure. -/
def output (o : Outcome n σ) : List UInt8 :=
  (o.machine?.map (·.streams.output)).getD []

def compilationEvents (o : Outcome n σ) (source : String) : List Event :=
  match o with
  | refused _ => []
  | ended compiled _ => compiled.events source ++ [compiled.summary]

/-- What the run of the program logs: the host during its calls, then the machine at its end. -/
def endingEvents (o : Outcome n σ) (host : Host σ) (bounds : BoundsPolicy) : List Event :=
  match o with
  | refused _ => []
  | ended _ ending => host.events ending.machine.state ++ ending.machineEvents bounds

def listingEvents (o : Outcome n σ) : List Event :=
  match o with
  | refused _ => []
  | ended compiled _ =>
    [{ level := .info, phase := .compiler
       message := "program listing:\n" ++ compiled.program.listing "main" }]

/-- What `run` logs: a start and, after a success, an end around the events of its parts. The
program is listed if the settings ask for it. -/
def events (o : Outcome n σ) (settings : RunSettings) (source : String) (host : Host σ) :
    List Event :=
  let start : Event := { level := .info, phase := .vm, message := "Starting execution" }
  let done : List Event := match o.result with
    | .ok _ => [{ level := .info, phase := .vm, message := "Execution completed" }]
    | .error _ => []
  start :: o.compilationEvents source
    ++ (if settings.dumpProgram then o.listingEvents else [])
    ++ o.endingEvents host settings.machine.bounds
    ++ done

/-- The bytes that a source writes on the way to a halt; a failure loses them. -/
def bytes (o : Outcome n σ) : Except Failure (List UInt8) :=
  o.result.map fun _ => o.output

end Outcome

/-- Runs a source with the shared settings on an input that does not fail, with no host. -/
def quickRun (settings : RunSettings) (source : String) (input : List UInt8) (fuel : Nat) :
    Option (Except Failure (List UInt8)) :=
  (run settings source .silent () (.ofInput input) fuel).map Outcome.bytes

end TapeMachine
