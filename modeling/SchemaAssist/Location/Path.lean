/-
# File paths

A path is a text with slashes.  Two paths are the same if they have the same steps: repeated
slashes, a slash at the end and dots inside count for nothing, but a dot at the start of a relative
path is a step, and two dots always are.
-/

import SchemaAssist.Text.Cut

namespace SchemaAssist
namespace Path

/-- A path starts at the root of the file system. -/
def isAbsolute (path : String) : Bool := path.toList.head? = some '/'

/-- A path in three parts: whether it starts with a slash, a dot that it starts with otherwise, and
the pieces between slashes of the rest. -/
structure Parts where
  absolute : Bool
  dot : Bool
  pieces : List String
  deriving Repr, DecidableEq

/-- The parts of a path. -/
def parts (path : String) : Parts :=
  match path.toList with
  | '/' :: cs => ⟨true, false, (Text.piecesList '/' cs).map String.ofList⟩
  | ['.'] => ⟨false, true, []⟩
  | '.' :: '/' :: cs => ⟨false, true, "" :: (Text.piecesList '/' cs).map String.ofList⟩
  | cs => ⟨false, false, (Text.piecesList '/' cs).map String.ofList⟩

/-- A piece that is no step. -/
def isIdle (piece : String) : Bool := piece = "" || piece = "."

/-- The steps of a path, which decide whether two paths are the same. -/
structure Steps where
  absolute : Bool
  names : List String
  deriving Repr, DecidableEq

/-- The steps of a path. -/
def steps (path : String) : Steps :=
  let p := parts path
  ⟨p.absolute, (if p.dot then ["."] else []) ++ p.pieces.filter (!isIdle ·)⟩

/-- Pieces without the idle ones at their end. -/
def trimIdle (pieces : List String) : List String := (pieces.reverse.dropWhile isIdle).reverse

/-- The text of a path with the given parts. -/
def Parts.toString (p : Parts) : String :=
  (if p.absolute then "/" else if p.dot then "." else "") ++ "/".intercalate p.pieces

/-- The path without its last step; the root and the empty path have none. -/
def parent? (path : String) : Option String :=
  let p := parts path
  match trimIdle p.pieces with
  | [] => if p.dot then some "" else none
  | pieces => some { p with pieces := trimIdle pieces.dropLast }.toString

/-- The path of a reference from a directory: an absolute reference is itself. -/
def join (base reference : String) : String :=
  if isAbsolute reference then reference
  else if base = "" || base.toList.getLast? = some '/' then base ++ reference
  else base ++ "/" ++ reference

example : parent? "main.xsd" = some "" := by decide
example : parent? "/" = none := by decide
example : join "dir" "" = "dir/" := by decide

end Path
end SchemaAssist
