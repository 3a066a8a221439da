import TapeMachine.Decimal
import TapeMachine.Json.Basic

/-!
# Tokens of JSON texts

A JSON text is cut into punctuation, numbers, strings and words; blanks between them are dropped.
Strings may name characters by code: two codes that form a surrogate pair are one character.
-/

namespace TapeMachine.Json

inductive Token where
  /-- One of the six characters that give a text its structure. -/
  | mark (c : Char)
  | scalar (j : Json)

def isBlank (c : Char) : Bool := c ∈ [' ', '\t', '\n', '\r']

def isMark (c : Char) : Bool := c ∈ ['[', ']', '\x7b', '\x7d', ':', ',']

/-! ## Strings -/

/-- What one place of a string names. -/
inductive Piece where
  | char (c : Char)
  /-- Half of a surrogate pair. -/
  | half (code : Nat)

def hexValue? (c : Char) : Option Nat :=
  if '0' ≤ c ∧ c ≤ '9' then some (c.toNat - '0'.toNat)
  else if 'a' ≤ c ∧ c ≤ 'f' then some (c.toNat - 'a'.toNat + 10)
  else if 'A' ≤ c ∧ c ≤ 'F' then some (c.toNat - 'A'.toNat + 10)
  else none

/-- What four hexadecimal digits name. -/
def coded? (a b c d : Char) : Option Piece := do
  let code := (((← hexValue? a) * 16 + (← hexValue? b)) * 16 + (← hexValue? c)) * 16
    + (← hexValue? d)
  return if 0xd800 ≤ code ∧ code < 0xe000 then .half code else .char (Char.ofNat code)

/-- What a single character after a backslash names. -/
def escaped? : Char → Option Char
  | '"' => some '"'
  | '\\' => some '\\'
  | '/' => some '/'
  | 'b' => some '\x08'
  | 'f' => some '\x0c'
  | 'n' => some '\n'
  | 'r' => some '\r'
  | 't' => some '\t'
  | _ => none

/-- Reads a string whose opening quote has been taken, up to the closing quote. -/
def pieces? : List Char → Option (List Piece × List Char)
  | [] => none
  | '"' :: rest => some ([], rest)
  | '\\' :: 'u' :: a :: b :: c :: d :: rest => do
    let piece ← coded? a b c d
    let (pieces, rest) ← pieces? rest
    return (piece :: pieces, rest)
  | '\\' :: e :: rest => do
    let c ← escaped? e
    let (pieces, rest) ← pieces? rest
    return (.char c :: pieces, rest)
  | c :: rest =>
    if c < ' ' then none
    else do
      let (pieces, rest) ← pieces? rest
      return (.char c :: pieces, rest)

/-- The characters that pieces name, if each half stands before or behind its other half. -/
def joinPieces? : List Piece → Option (List Char)
  | [] => some []
  | .char c :: rest => (joinPieces? rest).map (c :: ·)
  | .half high :: .half low :: rest =>
    if high < 0xdc00 ∧ 0xdc00 ≤ low then
      let code := 0x10000 + (high - 0xd800) * 0x400 + (low - 0xdc00)
      (joinPieces? rest).map (Char.ofNat code :: ·)
    else none
  | .half _ :: _ => none

def ofPieces (pieces : List Piece) : Json :=
  match joinPieces? pieces with
  | some cs => string (String.ofList cs)
  | none => broken

/-! ## Numbers and words -/

/-- One or more digits, and what is behind them. -/
def digits? (text : List Char) : Option (List Char × List Char) :=
  match text.takeWhile Char.isDigit with
  | [] => none
  | digits => some (digits, text.dropWhile Char.isDigit)

/-- The part of a number from the point on, if there is one. -/
def fraction? : List Char → Option (List Char × List Char)
  | '.' :: rest => (digits? rest).map fun (digits, rest) => ('.' :: digits, rest)
  | text => some ([], text)

/-- The part of a number that scales it by a power of ten, if there is one. -/
def exponent? : List Char → Option (List Char × List Char)
  | e :: rest =>
    if e = 'e' ∨ e = 'E' then
      match rest with
      | s :: more =>
        if s = '+' ∨ s = '-' then (digits? more).map fun (digits, rest) => (e :: s :: digits, rest)
        else (digits? rest).map fun (digits, rest) => (e :: digits, rest)
      | [] => none
    else some ([], e :: rest)
  | [] => some ([], [])

/-- Reads a number. A whole part of more than one digit does not start with 0. A zero with a minus
sign is not an integer. -/
def number? (text : List Char) : Option (Json × List Char) := do
  let (sign, unsigned) := match text with
    | '-' :: rest => (['-'], rest)
    | _ => ([], text)
  let (whole, rest) ← digits? unsigned
  guard (whole.length = 1 ∨ whole.head? ≠ some '0')
  let (fraction, rest) ← fraction? rest
  let (exponent, rest) ← exponent? rest
  let value : Int := decimalValue whole
  if fraction = [] ∧ exponent = [] ∧ ¬(sign = ['-'] ∧ value = 0) then
    return (int (if sign = [] then value else -value), rest)
  else
    return (real (String.ofList (sign ++ whole ++ fraction ++ exponent)), rest)

/-- Reads a word that stands for a value. -/
def literal? : List Char → Option (Json × List Char)
  | 'n' :: 'u' :: 'l' :: 'l' :: rest => some (null, rest)
  | 't' :: 'r' :: 'u' :: 'e' :: rest => some (bool true, rest)
  | 'f' :: 'a' :: 'l' :: 's' :: 'e' :: rest => some (bool false, rest)
  | _ => none

/-! ## Texts -/

/-- Reads a value without parts. -/
def scalar? : List Char → Option (Json × List Char)
  | '"' :: rest => (pieces? rest).map fun (pieces, rest) => (ofPieces pieces, rest)
  | text => (literal? text).or (number? text)

/-- The first `limit` tokens and blanks of a text, which must be all of it. -/
def tokensWithin? : (limit : Nat) → List Char → Option (List Token)
  | _, [] => some []
  | 0, _ :: _ => none
  | limit + 1, c :: rest =>
    if isBlank c then tokensWithin? limit rest
    else if isMark c then (tokensWithin? limit rest).map (.mark c :: ·)
    else
      match scalar? (c :: rest) with
      | some (j, rest) => (tokensWithin? limit rest).map (.scalar j :: ·)
      | none => none

/-- The tokens of a text. Each takes one character at least, so there are no more of them than
characters. -/
def tokens? (text : List Char) : Option (List Token) := tokensWithin? text.length text

end TapeMachine.Json
