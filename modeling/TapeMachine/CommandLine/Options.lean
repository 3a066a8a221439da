import TapeMachine.Decimal
import TapeMachine.Log.Layout
import TapeMachine.Project

/-!
# Options of the command line

Arguments are read from left to right. The first one that is wrong, or that asks for the version or
for help, decides, and what follows it does not matter. A value follows its option as the next
argument, which must not look like an option, or behind an equals sign.
-/

namespace TapeMachine.CommandLine

inductive OptionName where
  | config | dump | compileOnly | memorySize | strictBounds | maxSteps
  | logLevel | logFormat | logFile
  deriving DecidableEq, Repr

namespace OptionName

def ofWord? : String → Option OptionName
  | "config" => some config
  | "dump" => some dump
  | "compile-only" => some compileOnly
  | "memory-size" => some memorySize
  | "strict-bounds" => some strictBounds
  | "max-steps" => some maxSteps
  | "log-level" => some logLevel
  | "log-format" => some logFormat
  | "log-file" => some logFile
  | _ => none

/-- Whether the option is given without a value. -/
def isFlag : OptionName → Bool
  | dump | compileOnly | strictBounds => true
  | _ => false

end OptionName

/-- What the arguments ask for. -/
structure Options where
  file : Option String := none
  config : Option String := none
  dump : Bool := false
  compileOnly : Bool := false
  memorySize : Option Nat := none
  strictBounds : Bool := false
  maxSteps : Option Nat := none
  logLevel : Option String := none
  logFormat : Log.Format := .compact
  logFile : Option String := none
  deriving DecidableEq, Repr

/-- Why the arguments do not ask for any work. -/
inductive EarlyExit where
  /-- They are wrong. -/
  | usage
  | version
  | help
  deriving DecidableEq, Repr

/-- A number of 64 bits in decimal digits; a plus sign may stand in front of them. -/
def word? (text : String) : Option Nat :=
  let digits := match text.toList with
    | '+' :: rest => rest
    | cs => cs
  if digits ≠ [] ∧ digits.all Char.isDigit ∧ decimalValue digits < UInt64.size then
    some (decimalValue digits)
  else none

/-- A path; the empty text is none. -/
def path? (text : String) : Option String := if text = "" then none else some text

/-- Whether an argument is to be read as an option; a single dash is not. -/
def looksLikeOption (arg : String) : Bool :=
  match arg.toList with
  | '-' :: _ :: _ => true
  | _ => false

namespace Options

/-- Sets an option that has no value. -/
def setFlag (o : Options) : OptionName → Options
  | .dump => { o with dump := true }
  | .compileOnly => { o with compileOnly := true }
  | .strictBounds => { o with strictBounds := true }
  | _ => o

/-- Sets an option to a value, if the value is of the right kind. -/
def setValue? (o : Options) (name : OptionName) (value : String) : Option Options :=
  match name with
  | .config => (path? value).map fun v => { o with config := some v }
  | .memorySize => (word? value).map fun v => { o with memorySize := some v }
  | .maxSteps => (word? value).map fun v => { o with maxSteps := some v }
  | .logLevel => some { o with logLevel := some value }
  | .logFormat => (Log.Format.ofWord? value).map fun v => { o with logFormat := v }
  | .logFile => (path? value).map fun v => { o with logFile := some v }
  | .dump | .compileOnly | .strictBounds => none

/-- Takes an argument that is no option as the path of the source, of which there is one at most. -/
def setFile? (o : Options) (arg : String) : Option Options :=
  match o.file with
  | some _ => none
  | none => (path? arg).map fun v => { o with file := some v }

/-- Reads arguments none of which is an option. -/
def readFiles (o : Options) : List String → Except EarlyExit Options
  | [] => .ok o
  | arg :: rest =>
    match o.setFile? arg with
    | some o => o.readFiles rest
    | none => .error .usage

end Options

/-- A long option without its dashes: the name, and the value behind an equals sign if there is
one. -/
def splitLong (text : List Char) : String × Option String :=
  let name := String.ofList (text.takeWhile (· ≠ '='))
  match text.dropWhile (· ≠ '=') with
  | _ :: value => (name, some (String.ofList value))
  | [] => (name, none)

/-- What an option that is not one of the settings asks for. -/
def exitOfLong (name : String) (value : Option String) : EarlyExit :=
  if value.isSome then .usage
  else if name = "version" then .version
  else if name = "help" then .help
  else .usage

/-- What a group of one-letter options asks for; its first letter decides. -/
def exitOfShort : Char → EarlyExit
  | 'V' => .version
  | 'h' => .help
  | _ => .usage

/-- Reads arguments, where `seen` are the options that were given before and must not come again. -/
def readArguments (seen : List OptionName) (o : Options) : List String → Except EarlyExit Options
  | [] => .ok o
  | arg :: rest =>
    match arg.toList with
    | ['-', '-'] => o.readFiles rest
    | '-' :: '-' :: long =>
      let (word, value?) := splitLong long
      match OptionName.ofWord? word with
      | none => .error (exitOfLong word value?)
      | some name =>
        if name ∈ seen then .error .usage
        else if name.isFlag then
          if value?.isSome then .error .usage
          else readArguments (name :: seen) (o.setFlag name) rest
        else
          match value?, rest with
          | some value, rest =>
            match o.setValue? name value with
            | some o => readArguments (name :: seen) o rest
            | none => .error .usage
          | none, value :: rest =>
            if looksLikeOption value then .error .usage
            else
              match o.setValue? name value with
              | some o => readArguments (name :: seen) o rest
              | none => .error .usage
          | none, [] => .error .usage
    | '-' :: letter :: _ => .error (exitOfShort letter)
    | _ =>
      match o.setFile? arg with
      | some o => readArguments seen o rest
      | none => .error .usage

def Options.parse (args : List String) : Except EarlyExit Options := readArguments [] {} args

/-! ## Options and project files -/

namespace Options

/-- The levels to log at: those of the project, with the overall level of the options if there is
one. A word that is no level is refused. -/
def logFilter (o : Options) (project : Project) : Except String Log.Filter :=
  match o.logLevel with
  | none => .ok project.logFilter
  | some word =>
    match Level.ofWord? word with
    | some level => .ok { project.logFilter with overall := level }
    | none => .error s!"unknown log level '{word}'"

/-- What becomes of the log if the events that a filter lets through are shown. -/
def logSettings (o : Options) (filter : Log.Filter) : Log.Settings :=
  { filter, format := o.logFormat, file := o.logFile }

/-- The settings to run under. What the options say goes before what the project says. -/
def runSettings (o : Options) (project : Project) : RunSettings where
  dumpProgram := o.dump
  compiler := project.compiler
  machine :=
    { memorySize := o.memorySize.getD project.machine.memorySize
      bounds := if o.strictBounds then .error else project.machine.bounds
      maxSteps := o.maxSteps.or project.machine.maxSteps }

/-- The path of the source, if the options or the project name one. -/
def entryPath? (o : Options) (project : Project) : Option String :=
  o.file.or (o.config.bind project.entryPath?)

end Options

end TapeMachine.CommandLine
