import TapeMachine.Decimal

/-!
# Source excerpts

An excerpt shows the line of a source in which something is wrong, with its neighbours, and marks
the column below it.
-/

namespace TapeMachine

/-- How many lines are shown on either side. -/
def excerptMargin : Nat := 2

/-- A line without the carriage return at its end. -/
def withoutReturn (line : List Char) : List Char :=
  if line.getLast? = some '\r' then line.dropLast else line

/-- The lines of a text as they are shown. A newline ends a line, with a carriage return before it
if there is one; nothing behind the last newline is no line. -/
def sourceLines (text : List Char) : List (List Char) :=
  let parts := text.splitOn '\n'
  let ended := parts.dropLast.map withoutReturn
  match parts.getLast? with
  | none | some [] => ended
  | some rest => ended ++ [rest]

/-- The lines around line number `line` with their numbers, and a mark below its column `column`.
Nothing is shown if there is no such line. -/
def excerpt (source : String) (line column : Nat) : String :=
  let lines := sourceLines source.toList
  if line = 0 ∨ lines.length < line then ""
  else
    let first := max (line - excerptMargin) 1
    let last := min (line + excerptMargin) lines.length
    let width := decimalWidth last
    let rule := String.ofList (List.replicate (width + 1) '-') ++ "|--\n"
    let shown := ((lines.take last).drop (first - 1)).zipIdx first
    let numbered := shown.map fun (text, number) =>
      let mark :=
        if number = line then
          padLeft ' ' width "" ++ " | " ++ String.ofList (List.replicate (column - 1) ' ') ++ "^\n"
        else ""
      padLeft ' ' width (toString number) ++ " | " ++ String.ofList text ++ "\n" ++ mark
    rule ++ String.join numbered ++ rule

end TapeMachine
