import TapeMachine.CommandLine.Options
import TapeMachine.CommandLine.Transcript
import TapeMachine.Commands
import TapeMachine.Files
import TapeMachine.Json.Writer
import TapeMachine.Program.Dump
import TapeMachine.Run
import TapeMachine.Source.Excerpt

/-!
# Sessions

A session is one call of the command line: it reads the options, the project file and the source,
compiles the source and runs it. The work on a source is the function `runSource`; only what stands
in the last section uses files.
-/

namespace TapeMachine.CommandLine

open Log

def codePrompt : String := "Please enter the code here (hit Enter key at the end):"

def inputPrompt : String :=
  "Please enter input string to be used in code (hit Enter key at the end):"

def versionLine : String := "tapevm 0.1.0\n"

/-- The words that are not the command line's own. They belong to the readers that it puts its
arguments and its project files to. -/
structure Wording where
  /-- What is said about arguments that are wrong. -/
  usage : List String → String
  help : String
  /-- What is wrong with a text that is no project file. -/
  malformed : String → String
  deriving Inhabited

/-- The line and the rest of a text of bytes; the newline belongs to the line. -/
def splitLine : List UInt8 → List UInt8 × List UInt8
  | [] => ([], [])
  | b :: rest =>
    if b = 10 then ([b], rest)
    else (b :: (splitLine rest).1, (splitLine rest).2)

/-! ## Work on a source -/

/-- How a failure is shown, with the place in the source if there is one. -/
def failureText (f : Failure) (source : String) : String :=
  let place := match f with
    | .source e => excerpt source e.position.line e.position.column
    | .runtime _ => ""
  "❌ " ++ f.message ++ "\n" ++ place

/-- How a diagnostic is shown. -/
def warningText (e : ArgumentError) (source : String) : String :=
  "⚠️  " ++ (Report.ofArgumentError e).text ++ "\n"
    ++ excerpt source e.position.line e.position.column

def startingEvent (entry : Option String) (settings : RunSettings) : Event :=
  { level := .info, phase := .cli, message := "starting"
    fields := [("entry", .plain (entry.getD "<stdin>"))
      , ("memory_size", .number settings.machine.memorySize)] }

/-- What the command line logs about the end of a run that was a success. -/
def haltEvents (halt : Halt) (steps : Nat) : List Event :=
  let boundary : List Event := match halt with
    | .outOfBounds i target =>
      [{ level := .debug, phase := .cli, message := "halted at tape boundary"
         fields := [("instruction", .number i), ("position", .number target)] }]
    | .completed => []
  boundary ++
    [{ level := .info, phase := .cli, message := "finished", fields := [("steps", .number steps)] }]

/-- A note of the built-in commands on the standard error. -/
def commandNotice : CommandNote → Notice
  | .dump cells => .text (CommandNote.dumpText cells)
  | .unknown name argument => .event (CommandNote.event name argument)

/-- What is printed between the compilation and the run. -/
def dumpText (settings : RunSettings) (compiled : Compiled) : String :=
  if settings.dumpProgram then (compiled.program.json "main").pretty ++ "\n" else ""

/-- The transcript of a run, from the first instruction on. -/
def endingTranscript {n : Nat} (settings : RunSettings) (source : String)
    (ending : Ending n (List CommandNote)) : Transcript :=
  let m := ending.machine
  let output := m.streams.output
  let notices := m.state.reverse.map commandNotice
    ++ (ending.machineEvents settings.machine.bounds).map .event
  match ending.result with
  | .ok halt =>
    { output := output ++ "\nExecution finished\n".toUTF8.toList
      notices := notices ++ (haltEvents halt m.steps).map .event }
  | .error e =>
    { exitCode := 1, output
      notices := notices ++ [.text (failureText (.runtime e) source)] }

/-- Compiles a source and, unless only that is asked for, runs it with the given input, if the run
ends in fewer than `fuel` steps. -/
def runSource (compileOnly : Bool) (settings : RunSettings) (entry : Option String)
    (source : String) (input : List UInt8) (fuel : Nat) : Option Transcript :=
  let starting := Notice.event (startingEvent entry settings)
  match compile settings.compiler source with
  | .error e =>
    some { exitCode := 1, notices := [starting, .text (failureText (.source e) source)] }
  | .ok compiled =>
    let notices := starting :: (compiled.events source ++ [compiled.summary]).map .event
      ++ compiled.diagnostics.map fun e => .text (warningText e source)
    let dump := dumpText settings compiled
    let rest? :=
      if compileOnly then
        let size := compiled.program.size
        let line := s!"✅ Compilation successful: {size} instructions\n"
        some { output := line.toUTF8.toList }
      else
        (compiled.program.run settings.machine Commands.host [] (.ofInput input) fuel).map
          (endingTranscript settings source)
    rest?.map fun rest =>
      { rest with notices := notices ++ rest.notices }.precededBy dump

/-- Asks for one line of code and runs it with what follows the line as its input. A second prompt
is given if the code reads. -/
def runPrompted (compileOnly : Bool) (settings : RunSettings) (stdin : List UInt8) (fuel : Nat) :
    Option Transcript :=
  let (line, input) := splitLine stdin
  match decodeText ⟨line.toArray⟩ with
  | .error e =>
    let failed := Transcript.failed s!"Cannot read code from stdin: {e}"
    some (failed.precededBy codePrompt)
  | .ok source =>
    let prompts := codePrompt ++ if ',' ∈ source.toList then inputPrompt else ""
    (runSource compileOnly settings none source input fuel).map (·.precededBy prompts)

/-! ## Sessions -/

section

variable {m : Type → Type} [Monad m] (words : Wording) (files : FileAccess m)

/-- Reads the project file at a path; gives the project, or what is wrong. -/
def readProject (path : String) : m (Except String Project) := do
  if !(← files.isPresent path) then
    return .error s!"project file '{path}' not found"
  match (← files.read path).bind decodeText with
  | .error e => return .error s!"cannot read '{path}': {e}"
  | .ok text =>
    match Project.parse? text with
    | some project => return .ok project
    | none =>
      let details := words.malformed text
      return .error s!"failed to parse '{path}': {details}"

/-- Opens the log file, if there is to be one. -/
def openLog (path : Option String) : m (Except String Unit) :=
  match path with
  | none => pure (.ok ())
  | some path => do
    return (← files.openLog path).mapError fun e => s!"cannot open log file: {e}"

/-- Finds the source and runs it. -/
def runEntry (options : Options) (project : Project) (stdin : List UInt8) (fuel : Nat) :
    m (Option Transcript) :=
  let settings := options.runSettings project
  match options.entryPath? project with
  | none => pure (runPrompted options.compileOnly settings stdin fuel)
  | some path => do
    match (← files.read path).bind decodeText with
    | .error e => return some (.failed s!"Cannot read source file '{path}': {e}")
    | .ok source => return runSource options.compileOnly settings path source stdin fuel

/-- A session with options that could be read. Nothing is logged before they and the project file
have been found to be in order. -/
def runOptions (options : Options) (stdin : List UInt8) (fuel : Nat) :
    m (Log.Settings × Option Transcript) := do
  let project ← match options.config with
    | none => pure (.ok {})
    | some path => readProject words files path
  match project with
  | .error e => return ({}, some (.failed e))
  | .ok project =>
    match options.logFilter project with
    | .error e => return ({}, some (.failed e))
    | .ok filter =>
      match ← openLog files options.logFile with
      | .error e => return ({}, some (.failed e))
      | .ok () =>
        return (options.logSettings filter, ← runEntry files options project stdin fuel)

/-- The transcript of a call whose arguments ask for no work. -/
def EarlyExit.transcript (args : List String) : EarlyExit → Transcript
  | usage => { exitCode := 2, notices := [.text (words.usage args)] }
  | version => { output := versionLine.toUTF8.toList }
  | help => { output := words.help.toUTF8.toList }

/-- A call of the command line, if a run in it ends in fewer than `fuel` steps. The settings say
what becomes of the events in the transcript. -/
def session (args : List String) (stdin : List UInt8) (fuel : Nat) :
    m (Log.Settings × Option Transcript) :=
  match Options.parse args with
  | .error exit => pure ({}, some (exit.transcript words args))
  | .ok options => runOptions words files options stdin fuel

end

end TapeMachine.CommandLine
