import TapeMachine.Proofs.Program.ByteScan
import TapeMachine.Proofs.Source.Boundary

/-!
# A scan with its accesses checked

A scan over bytes indexes its source, cuts text out of it and writes into the program at places that
it works out on the way. `ByteScan.iterate` makes one turn of the scan and checks each of these
accesses before it is made; where one cannot be made it gives a `ScanFault` and goes no further.
`ByteScan.Turns` counts the turns.
-/

namespace TapeMachine

/-- The kinds of instructions. -/
inductive Kind where
  | operator (op : Operator)
  | loopOpen
  | loopClose
  | call
  deriving DecidableEq, Repr

/-- An access that cannot be made. -/
inductive ScanFault where
  /-- A difference that is below zero. -/
  | negative
  /-- Bytes from an index behind the end on. -/
  | pastEnd (index : Nat)
  /-- Text between byte offsets that are not two boundaries in their order. -/
  | noText (first last : Nat)
  /-- An instruction that the program does not have. -/
  | noInstruction (index : Nat)
  /-- A number of operators of a kind that is no operator. -/
  | noOperator (kind : Kind)
  deriving DecidableEq, Repr

/-- Why a scan stops short of the end of its source. -/
inductive Stop where
  | fault (f : ScanFault)
  | bracket (e : BracketError)
  deriving DecidableEq, Repr

namespace Stop

@[simp] theorem ok_bind {α β : Type} (a : α) (f : α → Except Stop β) :
    (Except.ok a >>= f) = f a := rfl

@[simp] theorem pure_eq_ok {α : Type} (a : α) : (pure a : Except Stop α) = .ok a := rfl

end Stop

/-! ## Accesses -/

/-- The kind that a byte stands for if it is counted with those like it behind it. -/
def Kind.ofByte? (b : UInt8) : Option Kind := (Operator.ofSymbol? (byteChar b)).map .operator

def Kind.counted (count : Nat) : Kind → Except Stop Instruction
  | operator op => .ok (.run op count)
  | kind => .error (.fault (.noOperator kind))

def difference (a b : Nat) : Except Stop Nat :=
  if b ≤ a then .ok (a - b) else .error (.fault .negative)

/-- The bytes from index `i` on. -/
def bytesFrom (bytes : List UInt8) (i : Nat) : Except Stop (List UInt8) :=
  if i ≤ bytes.length then .ok (bytes.drop i) else .error (.fault (.pastEnd i))

/-- The text of a source from byte `i` up to byte `j`. -/
def textBetween (source : String) (i j : Nat) : Except Stop String :=
  if h : i ≤ j ∧ IsBoundary source i ∧ IsBoundary source j then
    .ok (source.extract ⟨⟨i⟩, h.2.1⟩ ⟨⟨j⟩, h.2.2⟩)
  else .error (.fault (.noText i j))

/-- The instructions with another one at index `i`. -/
def replaceAt (instructions : Array Instruction) (i : Nat) (x : Instruction) :
    Except Stop (Array Instruction) :=
  if h : i < instructions.size then .ok (instructions.set i x)
  else .error (.fault (.noInstruction i))

theorem difference_of_le {a b : Nat} (h : b ≤ a) : difference a b = .ok (a - b) := if_pos h

theorem bytesFrom_of_le {bytes : List UInt8} {i : Nat} (h : i ≤ bytes.length) :
    bytesFrom bytes i = .ok (bytes.drop i) := if_pos h

theorem replaceAt_of_lt {instructions : Array Instruction} {i : Nat} (h : i < instructions.size)
    (x : Instruction) : replaceAt instructions i x = .ok (instructions.setIfInBounds i x) := by
  simp [replaceAt, Array.setIfInBounds, h]

theorem extract_of_split {source : String} {front t rest : List Char}
    (h : source.toList = front ++ t ++ rest) :
    source.toByteArray.extract (Position.behind front).offset
      (Position.behind (front ++ t)).offset = (String.ofList t).toByteArray := by
  have hsource : source = String.ofList front ++ (String.ofList t ++ String.ofList rest) := by
    rw [← String.ofList_append, ← String.ofList_append, ← List.append_assoc, ← h,
      String.ofList_toList]
  have hlast : (Position.behind (front ++ t)).offset =
      (String.ofList front).utf8ByteSize + (String.ofList t).utf8ByteSize := by
    rw [Position.behind, String.ofList_append, String.utf8ByteSize_append]
  have hcut : (String.ofList t ++ String.ofList rest).toByteArray.extract 0
      (String.ofList t).utf8ByteSize = (String.ofList t).toByteArray := by
    rw [String.toByteArray_append]
    exact ByteArray.extract_append_eq_left (String.size_toByteArray ..).symm
  rw [hlast, hsource, String.toByteArray_append, ← hcut]
  exact ByteArray.extract_append_size_add (i := 0)

/-- Between two boundaries stands what the text has between them. -/
theorem textBetween_of_split {source : String} {front t rest : List Char}
    (h : source.toList = front ++ t ++ rest) :
    textBetween source (Position.behind front).offset (Position.behind (front ++ t)).offset =
      .ok (String.ofList t) := by
  have hfront : IsBoundary source (Position.behind front).offset :=
    isBoundary_behind (h.trans (List.append_assoc ..))
  have hle : (Position.behind front).offset ≤ (Position.behind (front ++ t)).offset := by
    rw [← Position.advanceAll_behind]
    exact Position.offset_le_advanceAll _ t
  rw [textBetween, dif_pos ⟨hle, hfront, isBoundary_behind h⟩]
  exact congrArg Except.ok (String.toByteArray_inj.mp (extract_of_split h))

/-! ## Turns -/

namespace ByteScan

/-- Adds an instruction and gives its index. -/
def append (s : ByteScan) (i : Instruction) : Except Stop (Nat × ByteScan) := do
  let t := s.emit i
  return (← difference t.instructions.size 1, t)

/-- Passes over all bytes equal to `b` from the cursor on and gives their number. -/
def passBlock (bytes : List UInt8) (s : ByteScan) (b : UInt8) : Except Stop (Nat × ByteScan) := do
  let t := s.pass ((bytes.drop s.offset).takeWhile (· == b)).length
  return (← difference t.offset s.offset, t)

/-- The numbers of bytes of the name, with its braces, and of the digits of a call whose opening
brace is at index `i`, if there is a call. -/
def checkedLengths? (bytes : List UInt8) (i : Nat) : Except Stop (Option (Nat × Nat)) := do
  let rest ← bytesFrom bytes i
  let letters := ((← bytesFrom rest 1).takeWhile fun b => (byteChar b).isLower).length
  if letters = 0 ∨ rest[letters + 1]?.map byteChar ≠ some '\x7d' then
    return none
  else
    let digits := ((← bytesFrom rest (letters + 2)).takeWhile fun b => (byteChar b).isDigit).length
    return some (letters + 2, digits)

/-- Adds the call at the cursor and passes over it. -/
def checkedCall (source : String) (s : ByteScan) (nameLength digits : Nat) :
    Except Stop ByteScan := do
  let nameEnd := s.offset + nameLength
  let name ← textBetween source s.offset nameEnd
  let literal ← textBetween source nameEnd (nameEnd + digits)
  let (argument, diagnostics) :=
    match argument? literal.toList with
    | some argument => (argument, s.diagnostics)
    | none => (0, s.diagnostics.push ⟨name, literal, .locate source s.offset⟩)
  let (_, t) ← { s with diagnostics }.append (.call name argument)
  return { t with offset := nameEnd + digits }

/-- One turn of the scan, at the byte `b`. -/
def checkedTurn (calls : Bool) (source : String) (bytes : List UInt8) (s : ByteScan) (b : UInt8) :
    Except Stop ByteScan :=
  match Kind.ofByte? b with
  | some kind => do
    let (count, t) ← s.passBlock bytes b
    let (_, u) ← t.append (← kind.counted count)
    return u
  | none =>
    if byteChar b = '[' then do
      let (index, t) ← s.append (.loopOpen 0)
      return { t.pass 1 with opened := t.opened.push index }
    else if byteChar b = ']' then
      match s.opened.pop with
      | (none, _) => .error (.bracket (.unmatchedClose (.locate source s.offset)))
      | (some start, outer) => do
        let (index, t) ← { s with opened := outer }.append (.loopClose start)
        let instructions ← replaceAt t.instructions start (.loopOpen index)
        return { t.pass 1 with instructions }
    else if byteChar b = '\x7b' ∧ calls then do
      match ← checkedLengths? bytes s.offset with
      | some (nameLength, digits) => s.checkedCall source nameLength digits
      | none => return s.pass 1
    else .ok (s.pass 1)

/-- The scan after one more turn, if there is another byte. -/
def iterate (calls : Bool) (source : String) (s : ByteScan) : Except Stop (Option ByteScan) :=
  let bytes := source.toUTF8.data.toList
  match bytes[s.offset]? with
  | none => .ok none
  | some b => (s.checkedTurn calls source bytes b).map some

/-- The scan comes from `s` to `t` in so many turns. -/
inductive Turns (calls : Bool) (source : String) : Nat → ByteScan → ByteScan → Prop
  | nil {s : ByteScan} : Turns calls source 0 s s
  | cons {n : Nat} {s t u : ByteScan} (turn : s.iterate calls source = .ok (some t))
      (rest : Turns calls source n t u) : Turns calls source (n + 1) s u

variable {bytes : List UInt8} {s : ByteScan} {b : UInt8}

theorem append_eq (s : ByteScan) (i : Instruction) :
    s.append i = .ok (s.instructions.size, s.emit i) := by
  have hsize : (s.emit i).instructions.size = s.instructions.size + 1 := Array.size_push ..
  rw [append, difference_of_le (hsize ▸ Nat.le_add_left 1 _), hsize]
  rfl

/-- The block takes the byte at the cursor, so it is not empty. -/
theorem passBlock_eq {more : List UInt8} (h : bytes.drop s.offset = b :: more) :
    s.passBlock bytes b =
      .ok ((more.takeWhile (· == b)).length + 1,
        s.pass ((more.takeWhile (· == b)).length + 1)) := by
  have hblock : (bytes.drop s.offset).takeWhile (· == b) = b :: more.takeWhile (· == b) := by
    simp [h]
  rw [passBlock, hblock, List.length_cons]
  simp only [difference_of_le (Nat.le_add_right s.offset _), offset_pass, Nat.add_sub_cancel_left,
    Stop.ok_bind, Stop.pure_eq_ok]

theorem lt_length_of_getElem?_map {bytes : List UInt8} {i : Nat} {c : Char}
    (h : bytes[i]?.map byteChar = some c) : i < bytes.length := by
  obtain ⟨b, hb, -⟩ := Option.map_eq_some_iff.mp h
  exact (List.getElem?_eq_some_iff.mp hb).1

/-- The closing brace of a name is in the source, so the digits start in the source or at its
end. -/
theorem checkedLengths?_eq {i : Nat} {more : List UInt8} (h : bytes.drop i = b :: more) :
    checkedLengths? bytes i =
      .ok ((callLengths? more).map fun (letters, digits) => (letters + 2, digits)) := by
  have hi : i ≤ bytes.length := by
    have hlength := congrArg List.length h
    rw [List.length_drop, List.length_cons] at hlength
    omega
  have hone : 1 ≤ (b :: more).length := Nat.le_add_left 1 more.length
  simp only [checkedLengths?, bytesFrom_of_le hi, h, bytesFrom_of_le hone, callLengths?,
    Stop.ok_bind, List.drop_one, List.tail_cons, List.getElem?_cons_succ]
  split
  · rfl
  · next hcall =>
    simp only [not_or, Decidable.not_not] at hcall
    have hletters := lt_length_of_getElem?_map hcall.2
    rw [bytesFrom_of_le (Nat.succ_le_succ hletters)]
    rfl

end ByteScan

end TapeMachine
