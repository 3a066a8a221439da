/-!
# Positions in a source text

A position names a place between two characters: its line and column as a person counts them, and
its distance in UTF-8 bytes from the start of the text. Positions are only made by walking over
characters from `Position.start`, and `Position.locate` finds the place of a byte offset.
-/

namespace TapeMachine

/-- A place in a text. Lines and columns count from 1, bytes from 0. -/
structure Position where
  line : Nat
  column : Nat
  offset : Nat
  deriving DecidableEq, Repr

namespace Position

def start : Position := ⟨1, 1, 0⟩

/-- The place after a character. Only a newline starts a line; every other character is one column
wide, whatever its number of bytes. -/
def advance (p : Position) (c : Char) : Position :=
  if c = '\n' then ⟨p.line + 1, 1, p.offset + c.utf8Size⟩
  else ⟨p.line, p.column + 1, p.offset + c.utf8Size⟩

def advanceAll (p : Position) (text : List Char) : Position :=
  text.foldl advance p

@[simp] theorem advanceAll_nil (p : Position) : p.advanceAll [] = p := rfl

@[simp] theorem advanceAll_cons (p : Position) (c : Char) (text : List Char) :
    p.advanceAll (c :: text) = (p.advance c).advanceAll text := rfl

theorem advanceAll_append (p : Position) (a b : List Char) :
    p.advanceAll (a ++ b) = (p.advanceAll a).advanceAll b := List.foldl_append

/-- The first place on the way from `p` through a text that is at byte `offset` or behind it; the
end of the text if there is none. -/
def seek (offset : Nat) (p : Position) : List Char → Position
  | [] => p
  | c :: text => if offset ≤ p.offset then p else seek offset (p.advance c) text

/-- The place of a byte offset in a source. An offset inside a character is moved to its end, one
past the text to the end of the text. -/
def locate (source : String) (offset : Nat) : Position :=
  seek offset start source.toList

/-- The form in which messages name a place, `line:column`. -/
def text (p : Position) : String := s!"{p.line}:{p.column}"

end Position

end TapeMachine
