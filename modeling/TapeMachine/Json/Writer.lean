import TapeMachine.Json.Basic

/-!
# Writing JSON texts

`Json.pretty` writes a value over several lines: each item and field on a line of its own, two
blanks deeper than the value that holds it. What has no parts is written on one line.
-/

namespace TapeMachine.Json

def hexDigit (n : Nat) : Char := if n < 10 then Char.ofNat (n + 48) else Char.ofNat (n + 87)

/-- How a character is written inside a string. -/
def escape (c : Char) : List Char :=
  if c = '"' then ['\\', '"']
  else if c = '\\' then ['\\', '\\']
  else if c = '\n' then ['\\', 'n']
  else if c = '\r' then ['\\', 'r']
  else if c = '\t' then ['\\', 't']
  else if c = '\x08' then ['\\', 'b']
  else if c = '\x0c' then ['\\', 'f']
  else if c < ' ' then ['\\', 'u', '0', '0', hexDigit (c.toNat / 16), hexDigit (c.toNat % 16)]
  else [c]

def quote (s : String) : String :=
  "\"" ++ String.ofList (s.toList.flatMap escape) ++ "\""

/-- The start of a line at a depth of nesting. -/
def newline (depth : Nat) : String := String.ofList ('\n' :: List.replicate (2 * depth) ' ')

mutual

/-- A value whose first line has been indented to `depth`. What has no value is written as null. -/
def prettyAt (depth : Nat) : Json → String
  | null | broken => "null"
  | bool b => if b then "true" else "false"
  | int n => toString n
  | real literal => literal
  | string s => quote s
  | array [] => "[]"
  | array (item :: items) =>
    "[" ++ newline (depth + 1) ++ prettyAt (depth + 1) item ++ prettyItems (depth + 1) items
      ++ newline depth ++ "]"
  | object [] => "\x7b\x7d"
  | object ((name, value) :: fields) =>
    "\x7b" ++ newline (depth + 1) ++ quote name ++ ": " ++ prettyAt (depth + 1) value
      ++ prettyFields (depth + 1) fields ++ newline depth ++ "\x7d"

def prettyItems (depth : Nat) : List Json → String
  | [] => ""
  | item :: items => "," ++ newline depth ++ prettyAt depth item ++ prettyItems depth items

def prettyFields (depth : Nat) : List (String × Json) → String
  | [] => ""
  | (name, value) :: fields =>
    "," ++ newline depth ++ quote name ++ ": " ++ prettyAt depth value ++ prettyFields depth fields

end

def pretty (j : Json) : String := prettyAt 0 j

end TapeMachine.Json
