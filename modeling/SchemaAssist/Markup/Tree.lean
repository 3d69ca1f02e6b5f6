/-
# The tree of a document

Tags and text are put together into a tree: a start tag opens an element inside the innermost open
one, and an end tag closes the innermost open one, whose name it must bear as it was written.
-/

import SchemaAssist.Markup.Tag

namespace SchemaAssist
namespace Markup

/-- A node: some text, or an element with its children. -/
inductive Node where
  | text (content : String)
  | element (tag : Tag) (children : List Node)
  deriving Inhabited

namespace Node

mutual

/-- All text inside a node, in order. -/
def content : Node → String
  | text s => s
  | element _ cs => contentOf cs

/-- All text inside several nodes, in order. -/
def contentOf : List Node → String
  | [] => ""
  | c :: cs => c.content ++ contentOf cs

end

end Node

/-- The value of an attribute without a namespace. -/
def Tag.attribute? (t : Tag) (localName : String) : Option String :=
  (t.attributes.find? fun a => a.space == none && a.localName == localName).map (·.value)

/-- The value of an attribute in a namespace. -/
def Tag.attributeIn? (t : Tag) (space localName : String) : Option String :=
  (t.attributes.find? fun a => a.space == some space && a.localName == localName).map (·.value)

/-- An element whose end tag has not come yet. -/
structure OpenElement where
  written : WrittenName
  tag : Tag
  children : List Node
  deriving Inhabited

/-- A tree under construction: what stands outside all open elements, the open elements, the
innermost first, whether an end tag may come, the count of references followed, and the parts of
start tags that the text of an entity ended in. -/
structure Growing where
  roots : List Node
  stack : List OpenElement
  tagSeen : Bool
  followed : Nat
  pending : TagParts
  deriving Inhabited

namespace Growing

/-- Nothing yet. -/
def empty : Growing := ⟨[], [], false, 0, .empty⟩

/-- The declarations in scope. -/
def scope (g : Growing) : Scope := (g.stack.head?.map (·.tag.scope)).getD .empty

/-- Adds a node to the innermost open element. -/
def attach (g : Growing) (n : Node) : Growing :=
  match g.stack with
  | [] => { g with roots := g.roots ++ [n] }
  | o :: os => { g with stack := { o with children := o.children ++ [n] } :: os }

/-- Adds text, unless there is none. -/
def addText (g : Growing) (t : Taken) : Growing :=
  if t.chars.isEmpty then g else g.attach (.text t.toString)

/-- Takes the attributes of a start tag, which join those that are pending. -/
def addAttributes (entities : List Entity) (room : Nat) (g : Growing) (w : Written) :
    Except Malformed Growing := do
  if w.name.pre = "xmlns".toList then throw .reservedNamespace
  let (pending, followed) ← w.attributes.foldlM (TagParts.add entities room) (g.pending, g.followed)
  return { g with pending, followed, tagSeen := true }

/-- Takes the end of a start tag with `offset` characters before it: the pending parts are its own.
A tag that the text ends in opens nothing, and leaves its parts to the next tag. -/
def start (g : Growing) (w : Written) (offset : Nat) : Except Malformed Growing :=
  match w.tagEnd with
  | .cut => .ok g
  | .opening => do
    let tag ← g.pending.understand g.scope w.name offset
    return { g with stack := ⟨w.name, tag, []⟩ :: g.stack, pending := .empty }
  | .empty => do
    let tag ← g.pending.understand g.scope w.name offset
    return { g with pending := .empty }.attach (.element tag [])

/-- Takes an end tag.  Pending parts end with it: they must be in order, and count for nothing. -/
def finish (g : Growing) (written : WrittenName) : Except Malformed Growing := do
  let _ ← g.pending.settle g.scope
  match g.stack with
  | [] => throw .closeTag
  | o :: os =>
    if g.tagSeen ∧ o.written = written then
      return { g with stack := os, pending := .empty }.attach (.element o.tag o.children)
    else throw .closeTag

end Growing
end Markup
end SchemaAssist
