import TapeMachine.Source.Position
import TapeMachine.Stack

/-!
# Bracket matching

A source can only be compiled if its loop brackets match. `checkBrackets` reads a text once,
keeping the places of the brackets that are still open, and blames the first closing bracket
without a partner, or else the innermost bracket that the end of the text leaves open.
-/

namespace TapeMachine

/-- Why the brackets of a text do not match, with the place of the bracket to blame. -/
inductive BracketError where
  | unmatchedClose (position : Position)
  | unmatchedOpen (position : Position)
  deriving DecidableEq, Repr

namespace BracketError

def position : BracketError → Position
  | unmatchedClose p | unmatchedOpen p => p

/-- The name of the kind of error, as reports give it. -/
def kind : BracketError → String
  | unmatchedClose _ => "UnmatchedClose"
  | unmatchedOpen _ => "UnmatchedOpen"

def message : BracketError → String
  | unmatchedClose p => s!"[{p.text}] `]` found without corresponding `[`"
  | unmatchedOpen p => s!"[{p.text}] `[` found without corresponding `]`"

end BracketError

/-- Reads a text from place `p` on, where `opened` holds the places of the open brackets with the
innermost on top. -/
def scanBrackets (p : Position) (opened : Stack Position) : List Char → Except BracketError Unit
  | [] =>
    match opened.peek? with
    | none => .ok ()
    | some q => .error (.unmatchedOpen q)
  | c :: text =>
    if c = '[' then scanBrackets (p.advance c) (opened.push p) text
    else if c = ']' then
      match opened.pop with
      | (none, _) => .error (.unmatchedClose p)
      | (some _, outer) => scanBrackets (p.advance c) outer text
    else scanBrackets (p.advance c) opened text

/-- Succeeds if the brackets of a source match. -/
def checkBrackets (source : String) : Except BracketError Unit :=
  scanBrackets .start [] source.toList

end TapeMachine
