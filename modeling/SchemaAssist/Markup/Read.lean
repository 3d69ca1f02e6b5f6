/-
# Reading a document

The content of an element is read from the document and from the text of entities in the same way.
An end tag that closes more than the text at hand has opened ends the reading of that text.
-/

import SchemaAssist.Markup.Prolog
import SchemaAssist.Markup.Tree

namespace SchemaAssist
namespace Markup

/-- A text whose content is read: the entities of the document, the number of characters in the
document, how many of them follow the text, and how many levels of entities there may be in it. -/
structure Source where
  entities : List Entity
  total : Nat
  after : Nat
  room : Nat

/-- Whether the text is that of an entity. -/
def Source.inEntity (s : Source) : Bool := s.room < maxNesting

/-- Takes the pieces of a text, given how the text of an entity is taken. -/
def takePieces (source : Source) (readEntity : List Char → Growing → Except Malformed Growing)
    (g : Growing) (t : Taken) : List Piece → Except Malformed Growing
  | [] => .ok (g.addText t)
  | .plain c :: ps => takePieces source readEntity g (t.plain c ps.isEmpty) ps
  | .char c :: ps => takePieces source readEntity g (t.char source.inEntity c ps.isEmpty) ps
  | .entity name :: ps => do
    let g := g.addText t
    let followed ← follow source.inEntity g.followed
    let tagSeen := g.tagSeen
    let g ← readEntity name { g with followed, tagSeen := false }
    takePieces source readEntity { g with tagSeen } .empty ps

/-- Takes one part of the content of an element: `level` counts the elements opened in the text at
hand, the one around it included. -/
def contentPart (source : Source) (readEntity : List Char → Growing → Except Malformed Growing)
    (s : Nat × Growing) : Scan (Nat × Growing ⊕ Growing) := do
  let (level, g) := s
  let cs ← get
  if cs.isEmpty then return .inr g
  if ← Scan.accept "<!--" then
    Scan.comment
    return .inl (level, g)
  if ← Scan.accept "<![CDATA[" then
    let content ← Scan.takeUntil "]]>"
    return .inl (level, g.attach (.text (characterData .empty content)))
  if ← Scan.accept "<?" then
    Scan.instruction
    return .inl (level, g)
  if ← Scan.accept "</" then
    let g ← g.finish (← Scan.endTag)
    return if level ≤ 1 then .inr g else .inl (level - 1, g)
  if ← Scan.accept "<" then
    let w ← Scan.startTag
    let offset := source.total - source.after - cs.length
    let g ← (← g.addAttributes source.entities source.room w).start w offset
    return .inl (if w.tagEnd = .opening then level + 1 else level, g)
  let text ← Scan.takeAllowed (· != '<')
  if (String.ofList text).contains "]]>" then throw (.unexpected "']]>' in text")
  return .inl (level, ← takePieces source readEntity g .empty (← pieces none text))

/-- Takes the content of an element up to its end tag or the end of the text. -/
def content (source : Source) (readEntity : List Char → Growing → Except Malformed Growing)
    (g : Growing) : Scan Growing :=
  Scan.iterate (contentPart source readEntity) (1, g)

/-- Reads the text of an entity as content, `room` levels of entities being left. -/
def readEntity (entities : List Entity) (total : Nat) : (room : Nat) → List Char → Growing →
    Except Malformed Growing
  | 0, _, _ => .error .entityLoop
  | room + 1, name, g => do
    let e ← findEntity entities name
    let source : Source := ⟨entities, total, e.after, room⟩
    return (← (content source (readEntity entities total room) g).run e.text).1

/-- Takes the root element with its content, if the text goes on with a tag. -/
def rootElement (source : Source) : Scan Growing := do
  let cs ← get
  if ← Scan.accept "<" then
    let w ← Scan.startTag
    let offset := source.total - cs.length
    let g ← (← Growing.empty.addAttributes source.entities source.room w).start w offset
    if w.tagEnd = .opening then
      content source (readEntity source.entities source.total source.room) g
    else return g
  else return .empty

/-- Takes a whole document. -/
def wholeDocument : Scan Growing := do
  let total := (← get).length
  let entities ← Scan.prolog
  let g ← rootElement ⟨entities, total, 0, maxNesting⟩
  Scan.misc
  if !(← get).isEmpty then throw (.unexpected "text after the root element")
  return g

/-- A tag with its children, if a node is an element. -/
def Node.element? : Node → Option (Tag × List Node)
  | .element tag children => some (tag, children)
  | .text _ => none

/-- Reads a document: the tag of its root element, and the children. -/
def read (text : String) : Except Malformed (Tag × List Node) := do
  let (g, _) ← wholeDocument.run text.toList
  match g.roots.findSome? Node.element? with
  | some root => if g.stack.isEmpty then return root else throw .unclosed
  | none => throw .noRoot

/-- A place in a text: its line and its column, both counted from one. -/
structure Position where
  line : Nat
  column : Nat
  deriving DecidableEq, Repr, Inhabited

namespace Position

/-- The place after a character. -/
def next (p : Position) (c : Char) : Position :=
  if c = '\n' then ⟨p.line + 1, 1⟩ else ⟨p.line, p.column + 1⟩

/-- The place of the character with the given number of characters before it. -/
def ofOffset (text : List Char) (offset : Nat) : Position :=
  (text.take offset).foldl next ⟨1, 1⟩

/-- The wording of a place. -/
def toString (p : Position) : String := s!"line {p.line}, column {p.column}"

end Position
end Markup
end SchemaAssist
