import TapeMachine.Source.Operator

/-!
# Lexemes

A source is cut into lexemes from left to right: blocks of one operator as long as they go, loop
brackets, calls `{name}digits`, and everything else as comment, one character at a time. A
brace that does not start a call is comment too, and what follows it is read afresh. Each lexeme
takes at least one character and all of the text is taken: `lexemes` loses nothing
(`flatMap_text_lexemes`).
-/

namespace TapeMachine

/-- A piece of source text with one meaning. -/
inductive Lexeme where
  | run (op : Operator) (count : Nat)
  | opening
  | closing
  /-- A call: the letters between its braces and the digits behind them. -/
  | call (name digits : List Char)
  | comment (c : Char)
  deriving DecidableEq, Repr

namespace Lexeme

/-- The text of a call's name, braces included. -/
def bracedName (name : List Char) : List Char := '\x7b' :: (name ++ ['\x7d'])

def text : Lexeme → List Char
  | run op n => List.replicate n op.symbol
  | opening => ['[']
  | closing => [']']
  | call name digits => bracedName name ++ digits
  | comment c => [c]

/-- Reads a call whose opening brace has been taken: one or more letters `a` to `z`, the closing
brace, and the longest run of digits. Gives the letters, the digits and what follows them. -/
def call? (text : List Char) : Option (List Char × List Char × List Char) :=
  match text.takeWhile Char.isLower, text.dropWhile Char.isLower with
  | c :: name, '\x7d' :: rest =>
    some (c :: name, rest.takeWhile Char.isDigit, rest.dropWhile Char.isDigit)
  | _, _ => none

/-- The lexeme that starts with the character `c` in front of `rest`, and the text behind it. Calls
are only read if `calls` is set. -/
def next (calls : Bool) (c : Char) (rest : List Char) : Lexeme × List Char :=
  match Operator.ofSymbol? c with
  | some op => (run op ((rest.takeWhile (· == c)).length + 1), rest.dropWhile (· == c))
  | none =>
    if c = '[' then (opening, rest)
    else if c = ']' then (closing, rest)
    else if c = '\x7b' ∧ calls then
      match call? rest with
      | some (name, digits, rest) => (call name digits, rest)
      | none => (comment c, rest)
    else (comment c, rest)

theorem call?_eq_some {s name digits rest : List Char} (h : call? s = some (name, digits, rest)) :
    s = name ++ '\x7d' :: (digits ++ rest) := by
  unfold call? at h
  split at h
  · next c cs after hname hafter =>
    simp only [Option.some.injEq, Prod.mk.injEq] at h
    obtain ⟨rfl, rfl, rfl⟩ := h
    rw [List.takeWhile_append_dropWhile, ← hafter, ← hname, List.takeWhile_append_dropWhile]
  · contradiction

theorem takeWhile_eq_replicate (c : Char) (s : List Char) :
    s.takeWhile (· == c) = List.replicate (s.takeWhile (· == c)).length c := by
  induction s with
  | nil => rfl
  | cons d s ih =>
    by_cases h : d = c
    · subst h
      simp only [beq_self_eq_true, List.takeWhile_cons_of_pos, List.length_cons,
        List.replicate_succ]
      rw [← ih]
    · simp [h]

/-- A lexeme and what is behind it make up the text that was read. -/
theorem text_next (calls : Bool) (c : Char) (rest : List Char) :
    (next calls c rest).1.text ++ (next calls c rest).2 = c :: rest := by
  unfold next
  split
  · next op hop =>
    rw [Operator.ofSymbol?_eq_some_iff] at hop
    subst hop
    simp only [text, List.replicate_succ, List.cons_append, List.cons.injEq, true_and]
    rw [← takeWhile_eq_replicate, List.takeWhile_append_dropWhile]
  · split
    · next h => subst h; rfl
    split
    · next h => subst h; rfl
    split
    · next h =>
      obtain ⟨rfl, -⟩ := h
      split
      · next name digits after hcall =>
        simp [text, bracedName, call?_eq_some hcall]
      · rfl
    · rfl

theorem text_ne_nil_next (calls : Bool) (c : Char) (rest : List Char) :
    (next calls c rest).1.text ≠ [] := by
  unfold next
  split
  · simp [text]
  · split
    · simp [text]
    split
    · simp [text]
    split
    · split <;> simp [text, bracedName]
    · simp [text]

theorem length_next_le (calls : Bool) (c : Char) (rest : List Char) :
    (next calls c rest).2.length ≤ rest.length := by
  have h := congrArg List.length (text_next calls c rest)
  have hpos := List.length_pos_iff.mpr (text_ne_nil_next calls c rest)
  simp only [List.length_append, List.length_cons] at h
  omega

end Lexeme

/-- The lexemes of a text, in order. -/
def lexemes (calls : Bool) : List Char → List Lexeme
  | [] => []
  | c :: rest =>
    (Lexeme.next calls c rest).1 :: lexemes calls (Lexeme.next calls c rest).2
termination_by s => s.length
decreasing_by exact Nat.lt_succ_of_le (Lexeme.length_next_le calls c rest)

/-- The lexemes of a text, put together, are the text. -/
theorem flatMap_text_lexemes (calls : Bool) (s : List Char) :
    (lexemes calls s).flatMap Lexeme.text = s := by
  fun_induction lexemes calls s with
  | case1 => rfl
  | case2 c rest ih => rw [List.flatMap_cons, ih, Lexeme.text_next]

end TapeMachine
