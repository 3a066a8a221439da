import TapeMachine.Log.Layout

/-!
# Transcripts

What a call of the command line leaves behind: its exit code, the bytes on the standard output, and
in order what goes to the standard error. Log events are kept as events there. Which of them become
text, and in what layout, is chosen at the end, so that it can have no influence on anything else.
-/

namespace TapeMachine.CommandLine

open Log

/-- Something for the standard error. -/
inductive Notice where
  | event (e : Event)
  /-- A text that is shown whatever is logged. -/
  | text (s : String)
  deriving DecidableEq, Repr

structure Transcript where
  exitCode : Nat := 0
  output : List UInt8 := []
  notices : List Notice := []
  deriving DecidableEq, Repr

section

variable {Time : Type} (layouts : TimedLayouts Time)

/-- A notice on the standard error, empty for an event that is not shown. -/
def Notice.shown (log : Log.Settings) (time : Time) : Notice → String
  | event e => if log.filter.shows e then layouts.text time e log.format else ""
  | text s => s

/-- A notice in the log file, which holds the shown events only. -/
def Notice.filed (log : Log.Settings) (time : Time) : Notice → String
  | event e => if log.filter.shows e then layouts.file time e else ""
  | text _ => ""

namespace Transcript

/-- The standard error. The clock gives the time of each notice by its place among them. -/
def errorText (t : Transcript) (log : Log.Settings) (clock : Nat → Time) : String :=
  String.join (t.notices.mapIdx fun i n => n.shown layouts log (clock i))

/-- What is appended to the log file. -/
def fileText (t : Transcript) (log : Log.Settings) (clock : Nat → Time) : String :=
  String.join (t.notices.mapIdx fun i n => n.filed layouts log (clock i))

end Transcript

end

namespace Transcript

/-- What is printed before the rest of the transcript. -/
def precededBy (t : Transcript) (output : String) : Transcript :=
  { t with output := output.toUTF8.toList ++ t.output }

/-- The transcript of a call that could not start its work. -/
def failed (message : String) : Transcript :=
  { exitCode := 1, notices := [.text s!"Error: {message}\n"] }

end Transcript

end TapeMachine.CommandLine
