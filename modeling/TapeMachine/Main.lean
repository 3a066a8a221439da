import TapeMachine.CommandLine.Session

/-!
# The program

The command line over the real files and streams. The input is read to its end first; all the rest
is `CommandLine.session`, with words and layouts of its own where these are left open.
-/

namespace TapeMachine

/-- The text of a failure of the system. -/
def systemMessage : IO.Error → String
  | .noFileOrDirectory .. => FileError.notFound.message
  | .inappropriateType _ 20 _ => FileError.notDirectory.message
  | .inappropriateType _ 21 _ => FileError.isDirectory.message
  | e => toString e

def isPresent (path : String) : IO Bool := do
  try
    discard (IO.FS.Handle.mk path .read)
    return true
  catch
    | .noFileOrDirectory .. | .inappropriateType _ 20 _ => return false
    | _ => return true

def readFile (path : String) : IO (Except String ByteArray) := do
  try
    return .ok (← IO.FS.readBinFile path)
  catch e => return .error (systemMessage e)

def openAppend (path : String) : IO (Except String Unit) := do
  try
    discard (IO.FS.Handle.mk path .append)
    return .ok ()
  catch e => return .error (systemMessage e)

def realFiles : FileAccess IO :=
  { isPresent := isPresent, read := readFile, openLog := openAppend }

/-- The words of this program about arguments and project files. -/
def plainWording : CommandLine.Wording where
  usage _ :=
    "error: invalid arguments\n\nUsage: tapevm [OPTIONS] [FILE]\n\n"
      ++ "For more information, try '--help'.\n"
  help :=
    String.join
      [ "Tape machine for brainfuck-style programs with \x7bname\x7darg custom instructions\n\n"
      , "Usage: tapevm [OPTIONS] [FILE]\n\n"
      , "Arguments:\n"
      , "  [FILE]  Source file; prompts for a line of code when omitted\n\n"
      , "Options:\n"
      , "      --config <CONFIG>      Project file\n"
      , "      --dump                 Print the compiled program as JSON\n"
      , "      --compile-only         Compile only, do not execute\n"
      , "      --memory-size <CELLS>  Number of cells on the tape\n"
      , "      --strict-bounds        Treat leaving the tape as an error\n"
      , "      --max-steps <STEPS>    Abort after this many executed instructions\n"
      , "      --log-level <LEVEL>    Log level: silent, error, warn, info, debug, trace\n"
      , "      --log-format <FORMAT>  Log output format: pretty, compact, json\n"
      , "      --log-file <PATH>      Also append logs to this file\n"
      , "  -h, --help                 Print help\n"
      , "  -V, --version              Print version\n" ]
  malformed _ := "not a project file"

/-- An event as a JSON value, with the time in milliseconds. -/
def eventJson (time : Nat) (e : Log.Event) : Json :=
  let valueJson : Log.Value → Json
    | .number n => .int n
    | .quoted s | .plain s => .string s
  let fields := e.fields.map fun (name, value) => (name, valueJson value)
  .object
    [ ("timestamp", .int time), ("level", .string e.level.name)
    , ("fields", .object (("message", .string e.message) :: fields))
    , ("target", .string e.phase.target) ]

/-- The layouts of this program. -/
def plainLayouts : Log.TimedLayouts Nat where
  pretty := Log.Event.stamped
  json time e := (eventJson time e).pretty ++ "\n"
  file := Log.Event.stamped

/-- Appends the log of a session to the log file, if there is to be one. -/
def appendLog (path : Option String) (text : String) : IO Unit := do
  if let some path := path then
    (← IO.FS.Handle.mk path .append).putStr text

/-- More steps than a machine can take in a lifetime. -/
def endlessFuel : Nat := 0x4000000000000000

end TapeMachine

open TapeMachine in
def main (args : List String) : IO UInt32 := do
  let stdin ← (← IO.getStdin).readBinToEnd
  let (log, transcript?) ←
    CommandLine.session plainWording realFiles args stdin.toList endlessFuel
  let some t := transcript? | return 1
  -- The events are gathered while the session runs and written at its end, so they share one time.
  let now ← IO.monoMsNow
  appendLog log.file (t.fileText plainLayouts log fun _ => now)
  (← IO.getStdout).write ⟨t.output.toArray⟩
  IO.eprint (t.errorText plainLayouts log fun _ => now)
  return UInt32.ofNat t.exitCode
