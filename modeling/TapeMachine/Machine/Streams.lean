/-!
# Byte streams that may fail

The machine reads bytes from one stream and writes bytes to another. What the two will do is given
in advance as lists of events, one for each operation, so that a run is a function of them; the
operations that have been carried out are kept in `Streams.history`. An interrupted read or write
is tried again, an interrupted flush is not.
-/

namespace TapeMachine

/-- How the failure of a stream operation is to be understood. -/
inductive FaultKind where
  | interrupted | unexpectedEof | other
  deriving DecidableEq, Repr

structure Fault where
  kind : FaultKind
  message : String
  deriving DecidableEq, Repr

/-- What the input stream does next. -/
inductive ReadEvent where
  | data (bytes : List UInt8)
  | eof
  | fail (fault : Fault)
  deriving DecidableEq, Repr

/-- What the output stream does with the next byte it is given. -/
inductive WriteEvent where
  | accept
  /-- Takes nothing, and does not fail. -/
  | refuse
  | fail (fault : Fault)
  deriving DecidableEq, Repr

/-- What the output stream does when it is flushed. -/
inductive FlushEvent where
  | accept
  | fail (fault : Fault)
  deriving DecidableEq, Repr

/-- An operation on the streams that the machine has carried out. -/
inductive StreamOp where
  | wrote (byte : UInt8)
  | flushed
  /-- A byte was asked for. -/
  | asked
  deriving DecidableEq, Repr

/-- The events to come and the operations done, the latest first. When the events of a list have
been used up the input is at its end and the output accepts everything. -/
structure Streams where
  reads : List ReadEvent := []
  writes : List WriteEvent := []
  flushes : List FlushEvent := []
  history : List StreamOp := []
  deriving DecidableEq, Repr

/-- The failure of a read that finds the end of the input. -/
def Fault.endOfInput : Fault := ⟨.unexpectedEof, "failed to fill whole buffer"⟩

/-- The failure of a write whose byte is not taken. -/
def Fault.notTaken : Fault := ⟨.other, "failed to write whole buffer"⟩

/-- Takes one byte from the input. Empty data and interruptions are passed over. -/
def takeByte : List ReadEvent → Except Fault UInt8 × List ReadEvent
  | [] => (.error .endOfInput, [])
  | .data [] :: rest => takeByte rest
  | .data (b :: bytes) :: rest => (.ok b, .data bytes :: rest)
  | .eof :: rest => (.error .endOfInput, rest)
  | .fail fault :: rest =>
    if fault.kind = .interrupted then takeByte rest else (.error fault, rest)

/-- Delivers one byte to the output. Interruptions are passed over. -/
def deliverByte : List WriteEvent → Option Fault × List WriteEvent
  | [] => (none, [])
  | .accept :: rest => (none, rest)
  | .refuse :: rest => (some .notTaken, rest)
  | .fail fault :: rest =>
    if fault.kind = .interrupted then deliverByte rest else (some fault, rest)

namespace Streams

/-- Streams that never fail, with the given input. -/
def ofInput (bytes : List UInt8) : Streams := { reads := [.data bytes] }

def output (s : Streams) : List UInt8 :=
  s.history.reverse.filterMap fun
    | .wrote b => some b
    | _ => none

def read (s : Streams) : Except Fault UInt8 × Streams :=
  match takeByte s.reads with
  | (result, reads) => (result, { s with reads, history := .asked :: s.history })

def write (s : Streams) (b : UInt8) : Option Fault × Streams :=
  match deliverByte s.writes with
  | (none, writes) => (none, { s with writes, history := .wrote b :: s.history })
  | (some fault, writes) => (some fault, { s with writes })

/-- Makes sure that what was written can be seen. -/
def flush (s : Streams) : Option Fault × Streams :=
  match s.flushes with
  | [] => (none, { s with history := .flushed :: s.history })
  | .accept :: flushes => (none, { s with flushes, history := .flushed :: s.history })
  | .fail fault :: flushes => (some fault, { s with flushes })

@[simp] theorem output_ofInput (bytes : List UInt8) : (ofInput bytes).output = [] := rfl

@[simp] theorem output_read (s : Streams) : s.read.2.output = s.output := by
  simp [read, output]

@[simp] theorem output_flush (s : Streams) : s.flush.2.output = s.output := by
  unfold flush
  split <;> simp [output]

/-- A write that succeeds adds its byte to the output, one that fails adds nothing. -/
theorem output_write (s : Streams) (b : UInt8) :
    (s.write b).2.output = s.output ++ if (s.write b).1.isNone then [b] else [] := by
  unfold write
  split <;> simp [output]

/-- Writes a byte `count` times, up to the first failure. -/
def writeTimes (b : UInt8) : Nat → Streams → Option Fault × Streams
  | 0, s => (none, s)
  | count + 1, s =>
    match s.write b with
    | (none, s) => writeTimes b count s
    | (some fault, s) => (some fault, s)

/-- Reads `count` bytes, up to the first failure, and gives the latest of them; `latest` if there is
none. -/
def readTimes (latest : Option UInt8) : Nat → Streams → Option Fault × Option UInt8 × Streams
  | 0, s => (none, latest, s)
  | count + 1, s =>
    match s.read with
    | (.ok b, s) => readTimes (some b) count s
    | (.error fault, s) => (some fault, latest, s)

end Streams

end TapeMachine
