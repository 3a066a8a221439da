import TapeMachine.Path

/-!
# Files

What the command line needs of a file system, and a file system that is a value: a tree of
directories and files, in which paths are looked up from its top. Nothing is known above the top.
-/

namespace TapeMachine

/-- What can be done with files, in a monad `m`. Failures are given as texts. -/
structure FileAccess (m : Type → Type) where
  /-- Whether a path names anything. -/
  isPresent : String → m Bool
  read : String → m (Except String ByteArray)
  /-- Makes sure that a file can be appended to; it is created if it is missing. -/
  openLog : String → m (Except String Unit)

/-- Why a path cannot be used. -/
inductive FileError where
  | notFound | isDirectory | notDirectory | nameTooLong | nulByte
  deriving DecidableEq, Repr

def FileError.message : FileError → String
  | notFound => "No such file or directory (os error 2)"
  | isDirectory => "Is a directory (os error 21)"
  | notDirectory => "Not a directory (os error 20)"
  | nameTooLong => "File name too long (os error 36)"
  | nulByte => "file name contained an unexpected NUL byte"

/-- The bytes of a text that is no UTF-8 are refused with this message. -/
def notTextMessage : String := "stream did not contain valid UTF-8"

def decodeText (bytes : ByteArray) : Except String String :=
  match String.fromUTF8? bytes with
  | some text => .ok text
  | none => .error notTextMessage

/-- A tree of files. Each file and each directory is given by the names on the way to it; the top is
always there. -/
structure FileTree where
  files : List (List String × ByteArray) := []
  directories : List (List String) := [[]]

namespace FileTree

/-- What a path leads to. -/
inductive Spot where
  | directory (path : List String)
  | file (content : ByteArray)
  /-- A directory above the top. -/
  | above

def maxName : Nat := 255

def maxPath : Nat := 4095

/-- The names in a path that stand for something. -/
def names (path : String) : List String := (Path.parts path).filter fun part => ¬Path.isVoid part

/-- Adds a directory and those that it is in. -/
def addDirectory (t : FileTree) (path : List String) : FileTree :=
  let paths := (List.range (path.length + 1)).map path.take
  { t with directories := t.directories ++ paths.filter fun p => ¬t.directories.contains p }

/-- Adds a file and the directories that it is in. -/
def addFile (t : FileTree) (path : List String) (content : ByteArray) : FileTree :=
  let t := t.addDirectory path.dropLast
  { t with files := t.files ++ [(path, content)] }

/-- The tree with the given contents; a name with a slash at its end is a directory. -/
def ofList (entries : List (String × ByteArray)) : FileTree :=
  entries.foldl (fun t (name, content) =>
    if Path.endsInSlash name then t.addDirectory (names name)
    else t.addFile (names name) content) {}

/-- What a name leads to from a directory. -/
def child? (t : FileTree) (path : List String) (name : String) : Option Spot :=
  if t.directories.contains (path ++ [name]) then some (.directory (path ++ [name]))
  else (t.files.lookup (path ++ [name])).map .file

/-- Follows the parts of a path. -/
def walk (t : FileTree) (spot : Spot) : List String → Except FileError Spot
  | [] => .ok spot
  | part :: rest =>
    match spot with
    | .file _ => .error .notDirectory
    | .above =>
      if Path.isVoid part ∨ part = ".." then t.walk .above rest
      else .error (if maxName < part.utf8ByteSize then .nameTooLong else .notFound)
    | .directory path =>
      if Path.isVoid part then t.walk spot rest
      else if part = ".." then
        t.walk (if path = [] then .above else .directory path.dropLast) rest
      else if maxName < part.utf8ByteSize then .error .nameTooLong
      else
        match t.child? path part with
        | some spot => t.walk spot rest
        | none => .error .notFound

/-- Where relative and absolute paths start. -/
def origin (path : String) : Spot := if Path.isAbsolute path then .above else .directory []

/-- Refuses a path that cannot name anything. -/
def checkPath (path : String) : Except FileError Unit :=
  if '\x00' ∈ path.toList then .error .nulByte
  else if path = "" then .error .notFound
  else if maxPath < path.utf8ByteSize then .error .nameTooLong
  else .ok ()

/-- What a path leads to. -/
def locate (t : FileTree) (path : String) : Except FileError Spot := do
  checkPath path
  t.walk (origin path) (Path.parts path)

def read (t : FileTree) (path : String) : Except FileError ByteArray := do
  match ← t.locate path with
  | .file content => .ok content
  | _ => .error .isDirectory

/-- The tree in which the directory `outer` holds a file with a given name, empty if it was
missing. -/
def touchIn (t : FileTree) (outer : Spot) (name : String) : Except FileError FileTree :=
  match outer with
  | .file _ => .error .notDirectory
  | .above => if maxName < name.utf8ByteSize then .error .nameTooLong else .ok t
  | .directory outer =>
    if maxName < name.utf8ByteSize then .error .nameTooLong
    else
      match t.child? outer name with
      | some (.file _) => .ok t
      | some _ => .error .isDirectory
      | none => .ok (t.addFile (outer ++ [name]) .empty)

/-- The tree in which a path leads to a file, empty if it was missing. A path with a slash at its
end can only be that of a directory. -/
def touch (t : FileTree) (path : String) : Except FileError FileTree := do
  checkPath path
  match (Path.parts path).reverse.dropWhile (· = "") with
  | [] => .error .isDirectory
  | name :: before =>
    if name = "." ∨ name = ".." then
      match ← t.locate path with
      | .file _ => .ok t
      | _ => .error .isDirectory
    else
      match ← t.walk (origin path) before.reverse with
      | .file _ => .error .notDirectory
      | outer => if Path.endsInSlash path then .error .isDirectory else t.touchIn outer name

/-- Access to a tree that is carried along as a state. -/
def access : FileAccess (StateM FileTree) where
  isPresent path := do return (← get).locate path matches .ok _
  read path := do return ((← get).read path).mapError FileError.message
  openLog path := do
    match (← get).touch path with
    | .ok t => set t; return .ok ()
    | .error e => return .error e.message

end FileTree

end TapeMachine
