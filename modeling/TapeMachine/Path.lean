/-!
# Paths

A path is a text of names between slashes. Empty names, and `.` anywhere but at the start of a
relative path, stand for nothing.
-/

namespace TapeMachine

namespace Path

/-- The texts between the slashes of a path. -/
def parts (path : String) : List String :=
  (path.toList.splitOn '/').map String.ofList

def ofParts (parts : List String) : String :=
  String.ofList (['/'].intercalate (parts.map String.toList))

theorem ofParts_parts (path : String) : ofParts (parts path) = path := by
  have h : String.toList ∘ String.ofList = id := by funext cs; simp
  simp [ofParts, parts, h, List.intercalate_splitOn]

def isAbsolute (path : String) : Bool := path.toList.head? = some '/'

/-- Whether a path has a slash at its end. -/
def endsInSlash (path : String) : Bool := path.toList.getLast? = some '/'

/-- Whether a part behind the first one stands for nothing. -/
def isVoid (part : String) : Bool := part = "" || part = "."

/-- The parts of a path without those at the end that stand for nothing. -/
def trimParts : List String → List String
  | [] => []
  | first :: rest =>
    match (rest.reverse.dropWhile isVoid).reverse with
    | [] => if first = "" then [] else [first]
    | rest => first :: rest

/-- The path of the directory that holds what `path` names: the text up to its last name, without
the parts at its end that stand for nothing. A path without a name has none. -/
def parent? (path : String) : Option String :=
  match trimParts (parts path) with
  | [] => none
  | names =>
    match trimParts names.dropLast with
    | [] => some (if isAbsolute path then "/" else "")
    | names => some (ofParts names)

/-- What `path` names if it is looked up in the directory `base`. -/
def join (base path : String) : String :=
  if isAbsolute path then path
  else if base = "" ∨ endsInSlash base then base ++ path
  else base ++ "/" ++ path

end Path

end TapeMachine
