/-
# Files

The files below a working directory, as a value: contents by name, and the directories that hold
them.  A path is followed step by step, so that each step must lead through a directory.
-/

import SchemaAssist.Location.Path

namespace SchemaAssist

/-- Why a file cannot be read as text. -/
inductive FileError where
  /-- A null character in the path. -/
  | nullInPath
  /-- The path, or a step of it, has too many bytes. -/
  | nameTooLong
  | missing
  | notDirectory
  | isDirectory
  /-- The content is not text. -/
  | notText
  deriving DecidableEq, Repr, Inhabited

/-- The wording of a failure. -/
def FileError.message : FileError → String
  | .nullInPath => "file name contained an unexpected NUL byte"
  | .nameTooLong => "File name too long (os error 36)"
  | .missing => "No such file or directory (os error 2)"
  | .notDirectory => "Not a directory (os error 20)"
  | .isDirectory => "Is a directory (os error 21)"
  | .notText => "stream did not contain valid UTF-8"

/-- The content of a file: text, or bytes that are none. -/
inductive FileContent where
  | text (content : String)
  | bytes
  deriving DecidableEq, Repr, Inhabited

/-- A place below the working directory, or outside it. -/
inductive Place where
  /-- The names of the steps from the working directory, the last first. -/
  | inside (names : List String)
  | outside
  deriving DecidableEq, Repr, Inhabited

/-- What stands at a place. -/
inductive Entry where
  | file (content : FileContent)
  | directory
  | nothing
  deriving DecidableEq, Repr, Inhabited

/-- Files and directories by their places; the working directory is always there. -/
structure Files where
  files : List (List String × FileContent) := []
  directories : List (List String) := []
  deriving Repr, Inhabited

namespace Files

/-- What stands at a place.  Nothing is known outside but the directories around. -/
def entry (fs : Files) : Place → Entry
  | .outside => .directory
  | .inside names =>
    match fs.files.lookup names with
    | some content => .file content
    | none => if names.isEmpty || fs.directories.contains names then .directory else .nothing

/-- The place that one step leads to from a directory; `none` if nothing is there. -/
def step (fs : Files) (p : Place) (name : String) : Option Place :=
  if name = "" || name = "." then some p
  else if name = ".." then
    match p with
    | .inside (_ :: names) => some (.inside names)
    | _ => some .outside
  else match p with
    | .inside names =>
      if fs.entry (.inside (name :: names)) = .nothing then none
      else some (.inside (name :: names))
    | .outside => none

/-- The most bytes of a step. -/
def maxName : Nat := 255

/-- The most bytes of a path. -/
def maxPath : Nat := 4095

/-- The place that some steps lead to. -/
def follow (fs : Files) : Place → List String → Except FileError Place
  | p, [] => .ok p
  | p, name :: rest =>
    match fs.entry p with
    | .directory =>
      if maxName < name.utf8ByteSize then .error .nameTooLong
      else match fs.step p name with
        | some p => follow fs p rest
        | none => .error .missing
    | _ => .error .notDirectory

/-- The place of a path; an absolute one starts outside. -/
def locate (fs : Files) (path : String) : Except FileError Place :=
  if path.toList.contains '\x00' then .error .nullInPath
  else if path = "" then .error .missing
  else if maxPath < path.utf8ByteSize then .error .nameTooLong
  else fs.follow (if Path.isAbsolute path then .outside else .inside []) (Text.pieces '/' path)

/-- Reads the text of a file. -/
def read (fs : Files) (path : String) : Except FileError String := do
  match fs.entry (← fs.locate path) with
  | .file (.text content) => return content
  | .file .bytes => throw .notText
  | .directory => throw .isDirectory
  | .nothing => throw .missing

/-- The names of the steps of a path, the last first, as a file is written to it. -/
def names (path : String) : List String :=
  ((Text.pieces '/' path).filter fun n => n ≠ "" && n ≠ ".").reverse

/-- The directories around a place, the names of each from the last to the first. -/
def parents : List String → List (List String)
  | [] => []
  | _ :: names => names :: parents names

/-- The files after one has been written, with the directories that it needs. -/
def write (fs : Files) (path : String) (content : FileContent) : Files :=
  let place := names path
  { files := (place, content) :: fs.files.filter (·.1 ≠ place)
    directories := parents place ++ fs.directories }

/-- The files after one has been removed, and whether it was there. -/
def remove (fs : Files) (path : String) : Bool × Files :=
  match fs.locate path with
  | .ok (.inside place) =>
    ((fs.files.lookup place).isSome, { fs with files := fs.files.filter (·.1 ≠ place) })
  | _ => (false, fs)

end Files
end SchemaAssist
