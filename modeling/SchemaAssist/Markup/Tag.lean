/-
# Tags of well-formed markup

A tag is scanned as it is written (`Written`), its attributes are read into parts (`TagParts`), and
the parts are understood: prefixes are looked up in the scope that its own declarations open, and no
attribute may be there twice.
-/

import SchemaAssist.Markup.Reference
import SchemaAssist.Name.Scope

namespace SchemaAssist
namespace Markup

/-- A name as written: a prefix, which may be empty, and a local name. -/
structure WrittenName where
  pre : List Char
  localName : List Char
  deriving Repr, DecidableEq, Inhabited

/-- How a start tag ends. -/
inductive TagEnd where
  | opening
  | empty
  /-- The text ends first. -/
  | cut
  deriving Repr, DecidableEq

/-- A start tag as written. -/
structure Written where
  name : WrittenName
  attributes : List (WrittenName × List Char)
  tagEnd : TagEnd
  deriving Repr

namespace Scan

/-- Takes a name as written. -/
def writtenName : Scan WrittenName := do
  let (pre, localName) ← qualifiedName
  return ⟨pre, localName⟩

/-- Takes an attribute; its value holds no opening bracket. -/
def attribute' : Scan (WrittenName × List Char) := do
  let name ← writtenName
  let _ ← spaces
  expect "="
  let _ ← spaces
  let q ← quote
  let value ← takeAllowed fun c => c ≠ q && c ≠ '<'
  expect q.toString
  return (name, value)

/-- Takes the attributes and the end of a start tag, one part at a time. -/
def tagPart (attributes : List (WrittenName × List Char)) :
    Scan (List (WrittenName × List Char) ⊕ List (WrittenName × List Char) × TagEnd) := do
  if (← get).isEmpty then return .inr (attributes, .cut)
  let spaced ← spaces
  if ← accept "/" then
    expect ">"
    return .inr (attributes, .empty)
  if ← accept ">" then return .inr (attributes, .opening)
  if !spaced then throw (.expected "a blank")
  return .inl (attributes ++ [← attribute'])

/-- Takes a start tag, given that its opening bracket has been taken. -/
def startTag : Scan Written := do
  let name ← writtenName
  let (attributes, tagEnd) ← iterate tagPart []
  return ⟨name, attributes, tagEnd⟩

/-- Takes an end tag, given that its `</` has been taken. -/
def endTag : Scan WrittenName := do
  let name ← writtenName
  let _ ← spaces
  expect ">"
  return name

end Scan

/-- An attribute; one without a prefix is in no namespace. -/
structure Attribute where
  space : Option String
  localName : String
  value : String
  deriving Repr, DecidableEq, Inhabited

/-- A start tag that has been understood: the element's name, its attributes, the declarations in
scope, and the number of characters before the tag. -/
structure Tag where
  space : Option String
  localName : String
  attributes : List Attribute
  scope : Scope
  offset : Nat
  deriving Inhabited

/-- The namespace of declarations, to which nothing may be bound. -/
def declarationNamespace : String := "http://www.w3.org/2000/xmlns/"

/-- The declarations of a tag so far with the one that an attribute makes; `none` if it makes none.
The prefix `xml` may only be bound to its own namespace, and nothing else may be. -/
def declaration (declared : List (Option String × String)) (name : WrittenName) (value : String) :
    Except Malformed (Option (List (Option String × String))) :=
  let localName := String.ofList name.localName
  if name.pre = "xmlns".toList then
    if value = declarationNamespace ∨ (localName = "xml") ≠ (value = xmlNamespace) then
      .error .reservedNamespace
    else if (declared.lookup (some localName)).isSome then .error (.duplicate localName)
    else if value = xmlNamespace then .ok (some declared)
    else .ok (some (declared ++ [(some localName, value)]))
  else if localName = "xmlns" then
    if value = xmlNamespace ∨ value = declarationNamespace then .error .reservedNamespace
    else .ok (some (declared ++ [(none, value)]))
  else .ok none

/-- Parts of a tag read so far: its declarations and its other attributes. -/
structure TagParts where
  declared : List (Option String × String)
  others : List (WrittenName × String)
  deriving Inhabited

/-- Nothing read. -/
def TagParts.empty : TagParts := ⟨[], []⟩

/-- Reads one attribute of a tag; the count of references followed is handed on. -/
def TagParts.add (entities : List Entity) (room : Nat) (read : TagParts × Nat)
    (attr : WrittenName × List Char) : Except Malformed (TagParts × Nat) := do
  let (parts, followed) := read
  let (value, followed) ← attributeValue entities room followed attr.2
  let value := String.ofList value
  match ← declaration parts.declared attr.1 value with
  | some declared => return ({ parts with declared }, followed)
  | none => return ({ parts with others := parts.others ++ [(attr.1, value)] }, followed)

/-- The namespace that a prefix stands for; one that is not declared is refused. -/
def prefixed (scope : Scope) (pre : List Char) : Except Malformed (Option String) :=
  match scope.find? (String.ofList pre) with
  | some space => .ok (some space)
  | none => .error (.unknownPrefix (String.ofList pre))

/-- The attributes so far and one more, which may not be there already. -/
def addAttribute (scope : Scope) (attributes : List Attribute) (attr : WrittenName × String) :
    Except Malformed (List Attribute) := do
  let space ←
    if attr.1.pre = "xml".toList then pure (some xmlNamespace)
    else if attr.1.pre.isEmpty then pure none
    else prefixed scope attr.1.pre
  let localName := String.ofList attr.1.localName
  if attributes.any fun a => a.space == space && a.localName == localName then
    throw (.duplicate localName)
  return attributes ++ [⟨space, localName, attr.2⟩]

/-- The scope that parts of a tag open inside another, and the attributes that they are in it. -/
def TagParts.settle (parts : TagParts) (outer : Scope) :
    Except Malformed (Scope × List Attribute) := do
  let scope : Scope := ⟨parts.declared ++ outer.bindings⟩
  return (scope, ← parts.others.foldlM (addAttribute scope) [])

/-- Understands a tag of a name and with some parts in a scope. -/
def TagParts.understand (parts : TagParts) (outer : Scope) (name : WrittenName) (offset : Nat) :
    Except Malformed Tag := do
  let (scope, attributes) ← parts.settle outer
  let space ←
    if name.pre.isEmpty then pure (scope.bindings.lookup none) else prefixed scope name.pre
  return ⟨space, String.ofList name.localName, attributes, scope, offset⟩

end Markup
end SchemaAssist
