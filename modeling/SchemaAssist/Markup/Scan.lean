/-
# Scanning markup

A scanner takes characters from the front of a text and gives a result, or refuses the text.  What
it leaves is scanned next.
-/

import SchemaAssist.Markup.Character

namespace SchemaAssist
namespace Markup

/-- Why a text is not well-formed. -/
inductive Malformed where
  | expected (what : String)
  | unexpected (what : String)
  | character
  | name
  | reference
  | entityLoop
  | unknownEntity
  | unknownPrefix (pre : String)
  | reservedNamespace
  | duplicate (what : String)
  | closeTag
  | noRoot
  | unclosed
  deriving Repr, DecidableEq

/-- The wording of a refusal. -/
def Malformed.message : Malformed → String
  | .expected what => s!"expected {what}"
  | .unexpected what => s!"unexpected {what}"
  | .character => "a character that may not stand here"
  | .name => "invalid name"
  | .reference => "malformed reference"
  | .entityLoop => "entities refer to each other too deeply"
  | .unknownEntity => "unknown entity"
  | .unknownPrefix pre => s!"unknown namespace prefix '{pre}'"
  | .reservedNamespace => "a reserved namespace is bound"
  | .duplicate what => s!"'{what}' is declared twice"
  | .closeTag => "a tag closes no element"
  | .noRoot => "the document has no root element"
  | .unclosed => "the root element is not closed"

/-- A scanner with results of a type. -/
abbrev Scan := StateT (List Char) (Except Malformed)

namespace Scan

/-- Whether the text goes on with `word`. -/
def startsWith (word : String) : Scan Bool := do return word.toList.isPrefixOf (← get)

/-- Takes `word` if the text goes on with it. -/
def accept (word : String) : Scan Bool := do
  if ← startsWith word then
    modify (·.drop word.length)
    return true
  else return false

/-- Takes `word`, which must come next. -/
def expect (word : String) : Scan Unit := do
  if !(← accept word) then throw (.expected word)

/-- Takes the characters up to the first that fails a test. -/
def takeWhile (p : Char → Bool) : Scan (List Char) := do
  let cs ← get
  set (cs.dropWhile p)
  return cs.takeWhile p

/-- Takes the characters up to the first that fails a test; all must be allowed, the one that ends
them included. -/
def takeAllowed (p : Char → Bool) : Scan (List Char) := do
  let taken ← takeWhile fun c => isAllowed c && p c
  match ← get with
  | c :: _ => if isAllowed c then return taken else throw .character
  | [] => return taken

/-- Passes over blanks, of which there may be none, and says whether there were any. -/
def spaces : Scan Bool := do return !(← takeWhile Text.isSpace).isEmpty

/-- Passes over blanks, of which there must be some. -/
def someSpaces : Scan Unit := do
  if !(← spaces) then throw (.expected "a blank")

/-- Takes a name. -/
def name : Scan (List Char) := do
  let taken ← takeWhile isNameChar
  if isName taken then return taken else throw .name

/-- Takes a name with at most one colon, cut there into a prefix and a local name. -/
def qualifiedName : Scan (List Char × List Char) := do
  let taken ← takeWhile isNameChar
  let (pre, localName) := (Text.cutList ':' taken).getD ([], taken)
  if localName.contains ':' then throw .name
  if !localName.head?.any isNameStart || !pre.head?.all isNameStart then throw .name
  return (pre, localName)

/-- Takes one of the two quotes. -/
def quote : Scan Char := do
  match ← get with
  | c :: cs => if Text.isQuote c then do set cs; return c else throw (.expected "a quote")
  | [] => throw (.expected "a quote")

/-- Takes a text between quotes, which is not looked at. -/
def literal : Scan (List Char) := do
  let q ← quote
  let taken ← takeWhile (· != q)
  expect q.toString
  return taken

/-- Takes the characters before the first `mark`, all of them allowed, and the mark. -/
def takeUntil (mark : String) : Scan (List Char) := fun cs => go cs
where
  /-- The characters before the mark and after it. -/
  go : List Char → Except Malformed (List Char × List Char)
    | [] => .error (.expected mark)
    | c :: cs =>
      if mark.toList.isPrefixOf (c :: cs) then .ok ([], (c :: cs).drop mark.length)
      else if isAllowed c then (go cs).map fun (before, after) => (c :: before, after)
      else .error .character

/-- Repeats a step until it gives a result.  A step that goes on must take something. -/
def iterate {σ τ : Type} (step : σ → Scan (σ ⊕ τ)) (s : σ) : Scan τ := fun cs =>
  match step s cs with
  | .error e => .error e
  | .ok (.inr t, rest) => .ok (t, rest)
  | .ok (.inl s, rest) =>
    if rest.length < cs.length then iterate step s rest else .error (.unexpected "text")
termination_by cs => cs.length

end Scan
end Markup
end SchemaAssist
