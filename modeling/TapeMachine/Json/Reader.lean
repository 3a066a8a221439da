import TapeMachine.Json.Token

/-!
# Reading JSON texts

`Json.parse?` reads a text that consists of one value and blanks around its tokens, and nothing
else.
-/

namespace TapeMachine.Json

/-- The object with the given fields; it has no value if the name of a field has none. -/
def ofFields (fields : List (Json × Json)) : Json :=
  let named := fields.mapM fun (name, value) => name.string?.map (·, value)
  (named.map object).getD broken

mutual

/-- Reads one value from tokens, of which `depth` may be looked at. -/
def value? : (depth : Nat) → List Token → Option (Json × List Token)
  | 0, _ => none
  | _ + 1, [] => none
  | _ + 1, .scalar j :: rest => some (j, rest)
  | depth + 1, .mark c :: rest =>
    if c = '[' then
      match rest with
      | .mark ']' :: rest => some (array [], rest)
      | _ => (items? depth rest).map fun (items, rest) => (array items, rest)
    else if c = '\x7b' then
      match rest with
      | .mark '\x7d' :: rest => some (object [], rest)
      | _ => (fields? depth rest).map fun (fields, rest) => (ofFields fields, rest)
    else none

/-- Reads one or more values up to the bracket that ends an array. -/
def items? : (depth : Nat) → List Token → Option (List Json × List Token)
  | 0, _ => none
  | depth + 1, tokens =>
    match value? depth tokens with
    | some (item, .mark ']' :: rest) => some ([item], rest)
    | some (item, .mark ',' :: rest) =>
      (items? depth rest).map fun (items, rest) => (item :: items, rest)
    | _ => none

/-- Reads one or more named values up to the brace that ends an object. -/
def fields? : (depth : Nat) → List Token → Option (List (Json × Json) × List Token)
  | depth + 1, .scalar name :: .mark ':' :: tokens =>
    if name matches .string _ | .broken then
      match value? depth tokens with
      | some (value, .mark '\x7d' :: rest) => some ([(name, value)], rest)
      | some (value, .mark ',' :: rest) =>
        (fields? depth rest).map fun (fields, rest) => ((name, value) :: fields, rest)
      | _ => none
    else none
  | _, _ => none

end

/-- Reads a JSON text. No value is nested deeper than there are tokens, and no array or object is
longer. -/
def parse? (text : String) : Option Json := do
  let tokens ← tokens? text.toList
  match value? (2 * tokens.length) tokens with
  | some (j, []) => some j
  | _ => none

end TapeMachine.Json
