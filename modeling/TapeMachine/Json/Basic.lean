/-!
# JSON values

The values that JSON texts stand for. Integers keep their value, however large; numbers that are
written as fractions or with an exponent keep their text, since no setting is one.
-/

namespace TapeMachine

inductive Json where
  | null
  | bool (b : Bool)
  | int (n : Int)
  /-- A number that is not written as an integer. -/
  | real (literal : String)
  | string (s : String)
  /-- What a correct text stands for if a string in it names half of a surrogate pair, which is no
  character. It can be passed over, but it has no value. -/
  | broken
  | array (items : List Json)
  | object (fields : List (String × Json))
  deriving Repr, Inhabited

namespace Json

def bool? : Json → Option Bool
  | bool b => some b
  | _ => none

def string? : Json → Option String
  | string s => some s
  | _ => none

/-- An integer from 0 up to the largest of 64 bits. -/
def word? : Json → Option Nat
  | int n => if 0 ≤ n ∧ n < UInt64.size then some n.toNat else none
  | _ => none

/-- A value that may be left out by writing `null`. -/
def optional? {α : Type} (read : Json → Option α) : Json → Option (Option α)
  | null => some none
  | j => (read j).map some

/-- The fields of a record with the given names, as a function from name to value. A record is
written as an object, in which other names are passed over and no name of the record may come twice,
or as an array of its fields in order, which may stop early but not go on. -/
def record? (names : List String) : Json → Option (String → Option Json)
  | object fields =>
    let known := (fields.map Prod.fst).filter (names.contains ·)
    if known.Nodup then some fun name => fields.lookup name else none
  | array items =>
    if items.length ≤ names.length then some fun name => (names.zip items).lookup name else none
  | _ => none

/-- The value of a field, or a given one if the field is absent. -/
def field? {α : Type} (fields : String → Option Json) (name : String) (read : Json → Option α)
    (absent : α) : Option α :=
  match fields name with
  | some j => read j
  | none => some absent

end Json

end TapeMachine
