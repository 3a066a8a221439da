import TapeMachine.Program.Compile
import TapeMachine.Proofs.Source.Encoding

/-!
# A scan over bytes

A program can be made in one scan over the bytes of its source, with a cursor that is moved by a
block, by a call or by one byte, and no regard to which bytes belong to one character. Every turn
moves the cursor on (`offset_lt_of_turn`), so the scan comes to the end of the source.
-/

namespace TapeMachine

/-- A scan under way. -/
structure ByteScan where
  /-- The index of the byte that is next. -/
  offset : Nat := 0
  opened : Stack Nat := []
  instructions : Array Instruction := #[]
  diagnostics : Array ArgumentError := #[]
  deriving DecidableEq, Repr

namespace ByteScan

def emit (s : ByteScan) (i : Instruction) : ByteScan :=
  { s with instructions := s.instructions.push i }

def pass (s : ByteScan) (count : Nat) : ByteScan := { s with offset := s.offset + count }

/-- The text from byte `i` up to byte `j`. -/
def slice (bytes : List UInt8) (i j : Nat) : String :=
  String.ofList (((bytes.drop i).take (j - i)).map byteChar)

/-- The numbers of letters and digits of a call, if these bytes follow its opening brace. -/
def callLengths? (rest : List UInt8) : Option (Nat × Nat) :=
  let letters := (rest.takeWhile fun b => (byteChar b).isLower).length
  if letters = 0 ∨ rest[letters]?.map byteChar ≠ some '\x7d' then none
  else some (letters, ((rest.drop (letters + 1)).takeWhile fun b => (byteChar b).isDigit).length)

/-- Adds the call whose opening brace is next. -/
def call (source : String) (bytes : List UInt8) (s : ByteScan) (letters digits : Nat) : ByteScan :=
  let nameEnd := s.offset + (letters + 2)
  let name := slice bytes s.offset nameEnd
  let literal := slice bytes nameEnd (nameEnd + digits)
  match argument? literal.toList with
  | some argument => s.emit (.call name argument)
  | none =>
    let e : ArgumentError := ⟨name, literal, .locate source s.offset⟩
    { s.emit (.call name 0) with diagnostics := s.diagnostics.push e }

/-- One turn of the scan, at the byte `b`. -/
def turn (calls : Bool) (source : String) (bytes : List UInt8) (s : ByteScan) (b : UInt8) :
    Except BracketError ByteScan :=
  let rest := bytes.drop (s.offset + 1)
  match Operator.ofSymbol? (byteChar b) with
  | some op =>
    let count := (rest.takeWhile (· == b)).length + 1
    .ok ((s.emit (.run op count)).pass count)
  | none =>
    if byteChar b = '[' then
      .ok { (s.emit (.loopOpen 0)).pass 1 with opened := s.opened.push s.instructions.size }
    else if byteChar b = ']' then
      match s.opened.pop with
      | (none, _) => .error (.unmatchedClose (.locate source s.offset))
      | (some start, outer) =>
        let emitted := s.instructions.push (.loopClose start)
        let patched := emitted.setIfInBounds start (.loopOpen s.instructions.size)
        .ok { s.pass 1 with instructions := patched, opened := outer }
    else if byteChar b = '\x7b' ∧ calls then
      match callLengths? rest with
      | some (letters, digits) =>
        .ok ((s.call source bytes letters digits).pass (letters + 2 + digits))
      | none => .ok (s.pass 1)
    else .ok (s.pass 1)

@[simp] theorem offset_emit (s : ByteScan) (i : Instruction) : (s.emit i).offset = s.offset := rfl

@[simp] theorem offset_pass (s : ByteScan) (count : Nat) :
    (s.pass count).offset = s.offset + count := rfl

@[simp] theorem offset_call (source : String) (bytes : List UInt8) (s : ByteScan)
    (letters digits : Nat) : (s.call source bytes letters digits).offset = s.offset := by
  unfold call
  dsimp only
  split <;> rfl

/-- What a turn can do: take a block, start or end a loop, take a call, or pass over one byte. -/
theorem turn_cases {calls : Bool} {source : String} {bytes : List UInt8} {s t : ByteScan}
    {b : UInt8} (h : s.turn calls source bytes b = .ok t) :
    (∃ op count, count = ((bytes.drop (s.offset + 1)).takeWhile (· == b)).length + 1 ∧
      t = (s.emit (.run op count)).pass count) ∨
    t = { (s.emit (.loopOpen 0)).pass 1 with opened := s.opened.push s.instructions.size } ∨
    (∃ start outer, s.opened = start :: outer ∧
      t = { s.pass 1 with
        instructions := (s.instructions.push (.loopClose start)).setIfInBounds start
          (.loopOpen s.instructions.size)
        opened := outer }) ∨
    (∃ letters digits, callLengths? (bytes.drop (s.offset + 1)) = some (letters, digits) ∧
      t = (s.call source bytes letters digits).pass (letters + 2 + digits)) ∨
    t = s.pass 1 := by
  unfold turn at h
  dsimp only at h
  split at h
  · exact .inl ⟨_, _, rfl, (Except.ok.inj h).symm⟩
  split at h
  · exact .inr (.inl (Except.ok.inj h).symm)
  split at h
  · obtain ⟨offset, opened, instructions, diagnostics⟩ := s
    cases opened with
    | nil => contradiction
    | cons start outer => exact .inr (.inr (.inl ⟨start, outer, rfl, (Except.ok.inj h).symm⟩))
  split at h
  · split at h
    · next hcall => exact .inr (.inr (.inr (.inl ⟨_, _, hcall, (Except.ok.inj h).symm⟩)))
    · exact .inr (.inr (.inr (.inr (Except.ok.inj h).symm)))
  · exact .inr (.inr (.inr (.inr (Except.ok.inj h).symm)))

/-- Every turn moves the cursor on. -/
theorem offset_lt_of_turn {calls : Bool} {source : String} {bytes : List UInt8} {s t : ByteScan}
    {b : UInt8} (h : s.turn calls source bytes b = .ok t) : s.offset < t.offset := by
  rcases turn_cases h with
    ⟨op, count, rfl, rfl⟩ | rfl | ⟨start, outer, -, rfl⟩ | ⟨letters, digits, -, rfl⟩ | rfl
  · simp
  · simp
  · simp
  · rw [offset_pass, offset_call]
    omega
  · simp

/-- Scans on until the bytes are at their end. -/
def run (calls : Bool) (source : String) (bytes : List UInt8) (s : ByteScan) :
    Except BracketError ByteScan :=
  match _ : bytes[s.offset]? with
  | none => .ok s
  | some b =>
    match _ : s.turn calls source bytes b with
    | .ok t => run calls source bytes t
    | .error e => .error e
termination_by bytes.length - s.offset
decreasing_by
  have hmore := (List.getElem?_eq_some_iff.mp ‹bytes[s.offset]? = some b›).1
  have hforward := offset_lt_of_turn ‹s.turn calls source bytes b = .ok t›
  omega

/-- The scan over a source from its first byte to its last. -/
def ofSource (calls : Bool) (source : String) : Except BracketError ByteScan :=
  run calls source source.toUTF8.data.toList {}

section Runs

variable {calls : Bool} {source : String} {bytes : List UInt8} {s : ByteScan}

theorem run_of_end (h : bytes[s.offset]? = none) : s.run calls source bytes = .ok s := by
  unfold run
  split
  · rfl
  · next hbyte => simp [h] at hbyte

theorem run_of_turn {b : UInt8} (h : bytes[s.offset]? = some b) :
    s.run calls source bytes =
      match s.turn calls source bytes b with
      | .ok t => t.run calls source bytes
      | .error e => .error e := by
  rw [run]
  split
  · next hbyte => simp [h] at hbyte
  · next b' hbyte =>
    obtain rfl : b = b' := by simpa [h] using hbyte
    split <;> next hturn => rw [hturn]

end Runs

end ByteScan

end TapeMachine
