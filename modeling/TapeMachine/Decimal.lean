/-!
# Decimal numerals

Reading digits as a number, and writing numbers in fields of a given width. `decimalValue` reads
what `toString` writes, and zeros in front do not change it.
-/

namespace TapeMachine

/-- The number that decimal digits stand for, the first digit being the weightiest. -/
def decimalValue (digits : List Char) : Nat :=
  digits.foldl (fun n c => 10 * n + (c.toNat - '0'.toNat)) 0

/-- A text filled up on the left to a width. -/
def padLeft (fill : Char) (width : Nat) (text : String) : String :=
  String.ofList (List.replicate (width - text.length) fill) ++ text

/-- A text filled up on the right with blanks to a width. -/
def padRight (width : Nat) (text : String) : String :=
  text ++ String.ofList (List.replicate (width - text.length) ' ')

/-- The number of digits of a number. -/
def decimalWidth (n : Nat) : Nat := (toString n).length

end TapeMachine
