import Mathlib.Logic.Relation
import TapeMachine.Decimal
import TapeMachine.Machine.Host
import TapeMachine.Proofs.Source.Nesting
import TapeMachine.Settings

/-!
# Interpreting the source itself

What a source means can be said without compiling it. An interpreter walks over the characters, one
operator at a time, and finds the other end of a loop by counting brackets whenever it has to jump.
It knows no lexemes, no instructions and no jump table. The rest of the module shows that it jumps
over nested lexemes as a whole and reads the same calls as the compiler.
-/

namespace TapeMachine

/-- What the operators of a source act on. -/
structure World (n : Nat) (σ : Type) where
  tape : Tape n
  unread : List UInt8
  /-- The output so far, in order. -/
  written : List UInt8
  state : σ

/-- How a source can come to its end. -/
inductive Conclusion where
  | completed
  /-- The head was to leave the tape. -/
  | offTape
  /-- A byte was to be read when there was none. -/
  | starved
  deriving DecidableEq, Repr

namespace World

variable {n : Nat} {σ : Type}

def moveTo (x : World n σ) (target : Int) : Except Conclusion (World n σ) :=
  match x.tape.moveTo? target with
  | some tape => .ok { x with tape }
  | none => .error .offTape

def operate (x : World n σ) : Operator → Except Conclusion (World n σ)
  | .increment => .ok { x with tape := x.tape.write (x.tape.current + 1) }
  | .decrement => .ok { x with tape := x.tape.write (x.tape.current - 1) }
  | .moveRight => x.moveTo (x.tape.head + 1)
  | .moveLeft => x.moveTo (x.tape.head - 1)
  | .output => .ok { x with written := x.written ++ [x.tape.current.toUInt64.toUInt8] }
  | .input =>
    match x.unread with
    | [] => .error .starved
    | b :: unread => .ok { x with tape := x.tape.write (Int64.ofNat b.toNat), unread }

end World

/-- How many characters stand in front of the bracket that closes `depth + 1` open ones. -/
def gap (opens closes : Char) : (depth : Nat) → List Char → Nat
  | _, [] => 0
  | depth, c :: text =>
    if c = closes then
      match depth with
      | 0 => 0
      | depth + 1 => gap opens closes depth text + 1
    else if c = opens then gap opens closes (depth + 1) text + 1
    else gap opens closes depth text + 1

/-- The letters and the digits of the call `{letters}digits` if the text is what follows its opening
brace. -/
def callBehindBrace? (text : List Char) : Option (List Char × List Char) :=
  let letters := text.takeWhile Char.isLower
  match letters, text.drop letters.length with
  | _ :: _, '\x7d' :: rest => some (letters, rest.takeWhile Char.isDigit)
  | _, _ => none

/-- An interpretation under way. -/
structure Interpreter (n : Nat) (σ : Type) where
  /-- How many characters stand in front of the one that is next. -/
  position : Nat := 0
  world : World n σ

namespace Interpreter

variable {n : Nat} {σ : Type}

def start (settings : MachineSettings) (input : List UInt8) (state : σ) :
    Interpreter settings.cells σ :=
  { world := { tape := .blank settings.cells settings.cells_pos, unread := input, written := []
               state } }

def pass (x : Interpreter n σ) (count : Nat) : Interpreter n σ :=
  { x with position := x.position + count }

def act (x : Interpreter n σ) (op : Operator) : Except Conclusion (Interpreter n σ) :=
  (x.world.operate op).map fun world => ⟨x.position + 1, world⟩

/-- Asks the host, which sees the head and may change the cells. Digits that stand for no signed
64-bit number count as 0, and so do none. -/
def call (host : Host σ) (x : Interpreter n σ) (letters digits : List Char) : Interpreter n σ :=
  let name := String.ofList ('\x7b' :: (letters ++ ['\x7d']))
  let value := decimalValue digits
  let argument : Cell := if value ≤ Int64.maxValue.toInt then Int64.ofNat value else 0
  let ⟨cells, head⟩ := x.world.tape
  let (cells, state) := host.answer name argument head cells x.world.state
  ⟨x.position + (letters.length + 2 + digits.length),
    { x.world with tape := ⟨cells, head⟩, state }⟩

/-- Goes on by one operator, one bracket, one call, or one character that means nothing. -/
def step (calls : Bool) (host : Host σ) (source : List Char) (x : Interpreter n σ) :
    Except Conclusion (Interpreter n σ) :=
  match source.drop x.position with
  | [] => .error .completed
  | '+' :: _ => x.act .increment
  | '-' :: _ => x.act .decrement
  | '>' :: _ => x.act .moveRight
  | '<' :: _ => x.act .moveLeft
  | '.' :: _ => x.act .output
  | ',' :: _ => x.act .input
  | '[' :: rest =>
    .ok (x.pass (if x.world.tape.current = 0 then gap '[' ']' 0 rest + 2 else 1))
  | ']' :: _ =>
    let back := gap ']' '[' 0 (source.take x.position).reverse + 1
    .ok { x with position := x.position - back }
  | c :: rest =>
    if c = '\x7b' ∧ calls then
      match callBehindBrace? rest with
      | some (letters, digits) => .ok (x.call host letters digits)
      | none => .ok (x.pass 1)
    else .ok (x.pass 1)

/-- Interprets to the end, if it is reached in fewer than `fuel` steps. -/
def run (calls : Bool) (host : Host σ) (source : List Char) :
    (fuel : Nat) → Interpreter n σ → Option (Conclusion × Interpreter n σ)
  | 0, _ => none
  | fuel + 1, x =>
    match x.step calls host source with
    | .ok x => run calls host source fuel x
    | .error e => some (e, x)

end Interpreter

/-! ## Finding the other end of a loop -/

theorem gap_append_of_not_mem {opens closes : Char} {t : List Char}
    (ht : ∀ c ∈ t, c ≠ opens ∧ c ≠ closes) (depth : Nat) (rest : List Char) :
    gap opens closes depth (t ++ rest) = t.length + gap opens closes depth rest := by
  induction t with
  | nil => simp
  | cons c t ih =>
    have hc := ht c List.mem_cons_self
    have htail := ih fun d hd => ht d (List.mem_cons_of_mem c hd)
    simp only [List.cons_append, gap, hc.1, hc.2, if_false, htail, List.length_cons]
    omega

/-- On the way forward to the end of a loop, the loops inside it are passed over as a whole. -/
theorem gap_forward {ls : List Lexeme} (h : Nested ls) (hwf : ∀ l ∈ ls, l.WellFormed) (depth : Nat)
    (rest : List Char) :
    gap '[' ']' depth (textOf ls ++ rest) = (textOf ls).length + gap '[' ']' depth rest := by
  induction h generalizing depth rest with
  | nil => simp
  | @plain l ls hopen hclose _ ih =>
    have hl := (hwf l List.mem_cons_self).noBracket hopen hclose
    rw [textOf_cons, List.append_assoc, gap_append_of_not_mem hl,
      ih fun k hk => hwf k (List.mem_cons_of_mem l hk), List.length_append]
    omega
  | @loop body ls _ _ ihbody ihrest =>
    have hbody := ihbody fun l hl => hwf l (by simp [hl])
    have hrest := ihrest fun l hl => hwf l (by simp [hl])
    simp [Lexeme.text, gap, hbody, hrest]
    omega

/-- On the way back to the start of a loop, the loops inside it are passed over as a whole. -/
theorem gap_backward {ls : List Lexeme} (h : Nested ls) (hwf : ∀ l ∈ ls, l.WellFormed) (depth : Nat)
    (rest : List Char) :
    gap ']' '[' depth ((textOf ls).reverse ++ rest) =
      (textOf ls).length + gap ']' '[' depth rest := by
  induction h generalizing depth rest with
  | nil => simp
  | @plain l ls hopen hclose _ ih =>
    have hl : ∀ c ∈ l.text.reverse, c ≠ ']' ∧ c ≠ '[' := fun c hc =>
      ((hwf l List.mem_cons_self).noBracket hopen hclose c (List.mem_reverse.mp hc)).symm
    rw [textOf_cons, List.reverse_append, List.append_assoc,
      ih fun k hk => hwf k (List.mem_cons_of_mem l hk), gap_append_of_not_mem hl,
      List.length_append, List.length_reverse]
    omega
  | @loop body ls _ _ ihbody ihrest =>
    have hbody := ihbody fun l hl => hwf l (by simp [hl])
    have hrest := ihrest fun l hl => hwf l (by simp [hl])
    simp [Lexeme.text, gap, hbody, hrest]
    omega

/-! ## Reading calls -/

theorem callBehindBrace?_eq (text : List Char) :
    callBehindBrace? text =
      (Lexeme.call? text).map fun (letters, digits, _) => (letters, digits) := by
  have hdrop : text.drop (text.takeWhile Char.isLower).length = text.dropWhile Char.isLower := by
    have h := congrArg (List.drop (text.takeWhile Char.isLower).length)
      (List.takeWhile_append_dropWhile (l := text) (p := Char.isLower))
    rwa [List.drop_left, eq_comm] at h
  simp only [callBehindBrace?, hdrop]
  split
  · next c cs rest hletters hbehind =>
    rw [Lexeme.call?, hletters, hbehind]
    rfl
  · next hno =>
    have hcall : Lexeme.call? text = none := by
      unfold Lexeme.call?
      split
      · next c cs rest hletters hbehind => exact absurd hbehind (hno c cs rest hletters)
      · rfl
    rw [hcall]
    rfl

end TapeMachine
