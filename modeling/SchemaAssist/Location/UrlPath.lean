/-
# Paths of URLs

The path of a URL is a text of steps, each after a slash.  A path as written is taken step by step
onto a path that stands already: a dot stays, two dots go back one step, and any other step is
written in its encoded form.  The name of a drive is a step that two dots leave where it is.
-/

import SchemaAssist.Location.Percent

namespace SchemaAssist
namespace UrlPath

/-- Where steps are set apart: at a slash, and for known schemes at a backslash. -/
def isSlash (special : Bool) (c : Char) : Bool := c = '/' || (special && c = '\\')

/-- A text cut at the first character that a test holds of, which starts the second part. -/
def cutWhere (p : Char → Bool) (cs : List Char) : List Char × List Char :=
  (cs.takeWhile (!p ·), cs.dropWhile (!p ·))

/-- The steps of a path as written, never none. -/
def pieces (special : Bool) : List Char → List (List Char)
  | [] => [[]]
  | c :: cs =>
    if isSlash special c then [] :: pieces special cs
    else match pieces special cs with
      | [] => [[c]]
      | p :: ps => (c :: p) :: ps

/-- A step that stays where it is: a dot, which may be encoded. -/
def isDot (cs : List Char) : Bool :=
  ([".", "%2e"].map String.toList).contains (cs.map Char.toLower)

/-- A step back: two dots, which may be encoded. -/
def isDoubleDot (cs : List Char) : Bool :=
  (["..", ".%2e", "%2e.", "%2e%2e"].map String.toList).contains (cs.map Char.toLower)

/-- The name of a drive: a letter and a colon. -/
def isDrive : List Char → Bool
  | [c, ':'] => c.isAlpha
  | _ => false

/-- The name of a drive as it may be written: a letter and a colon or a bar. -/
def isWrittenDrive : List Char → Bool
  | [c, d] => c.isAlpha && (d = ':' || d = '|')
  | _ => false

/-- Whether a text starts with the name of a drive as a step. -/
def startsWithDrive : List Char → Bool
  | c :: d :: cs => isWrittenDrive [c, d] &&
      cs.head?.all (fun e => e = '/' || e = '\\' || e = '?' || e = '#')
  | _ => false

/-- A path cut after its last slash. -/
def cutLast (path : List Char) : List Char × List Char :=
  let (last, before) := cutWhere (· = '/') path.reverse
  (before.reverse, last.reverse)

/-- A path without its last step, but with the slash before it; the drive of a file stays. -/
def leave (file : Bool) (path : List Char) : List Char :=
  let (before, last) := cutLast path
  if file && isDrive last then path else before

/-- A path without the slash at its end, which is not the first one and does not follow the name of
a drive. -/
def dropSlash (path : List Char) : List Char :=
  if path.getLast? = some '/' then
    let (before, last) := cutLast path.dropLast
    if before.isEmpty || startsWithDrive (last ++ ['/']) then path else path.dropLast
  else path

/-- A path with a slash at its end. -/
def close (path : List Char) : List Char :=
  if path.getLast? = some '/' then path else path ++ ['/']

/-- A path being put together, and whether the name of a drive has been found as its first step. -/
structure Built where
  path : List Char
  drive : Bool
  deriving Repr

/-- Takes one step, which a slash follows or not.  In the path of a file, a drive without a slash
after it is given one. -/
def step (file : Bool) (b : Built) (written : List Char) (slash : Bool) : Built :=
  let path :=
    if file && !written.isEmpty && b.path.head?.isSome && isDrive b.path.tail then b.path ++ ['/']
    else b.path
  if isDoubleDot written then
    let path := leave file (dropSlash path)
    { b with path := if slash then close path else path }
  else if isDot written then { b with path := close path }
  else
    let drive := file && path.length = 1 && isWrittenDrive written
    let text := if drive then [written.headD 'c', ':'] else Percent.encode Percent.pathSet written
    ⟨path ++ text ++ (if slash then ['/'] else []), b.drive || drive⟩

/-- Takes steps. -/
def walk (file : Bool) : Built → List (List Char) → Built
  | b, [] => b
  | b, p :: ps => walk file (step file b p !ps.isEmpty) ps

/-- The path that a written one leads to from a path; that of a file starts with a single slash. -/
def follow (special file : Bool) (start written : List Char) : Built :=
  let b := walk file ⟨start, false⟩ (pieces special written)
  if file then { b with path := '/' :: b.path.dropWhile (· = '/') } else b

/-- The steps of a path, without the slashes before them. -/
def steps (path : List Char) : List (List Char) := Text.piecesList '/' path.tail

end UrlPath
end SchemaAssist
