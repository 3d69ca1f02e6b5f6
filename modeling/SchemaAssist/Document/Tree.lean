/-
# The tree of an editor document

A document that is being written is read into a tree whatever its state: an element whose end tag is
missing ends where the element around it does, an end tag without an element is passed over, and a
start tag that is still being typed is no element.  Only the first element outside all others is
kept.
-/

import SchemaAssist.Document.Event
import SchemaAssist.Name.Scope

namespace SchemaAssist
namespace Document

/-- The byte offsets of an element: of its start tag, of the content between its tags, and of its
end. -/
structure Span where
  start : Nat
  startTagEnd : Nat
  contentEnd : Nat
  stop : Nat
  deriving DecidableEq, Repr, Inhabited

/-- An element of an editor document; its attributes are as written, declarations of prefixes
included. -/
structure Element where
  name : Name
  attributes : List (String × String)
  span : Span
  /-- The element has an end tag or is an empty tag. -/
  closed : Bool
  /-- The element is an empty tag. -/
  selfClosing : Bool
  children : List Element
  deriving Repr, Inhabited

/-- An element whose end has not come yet. -/
structure OpenElement where
  element : Element
  /-- The name in the start tag. -/
  written : String
  /-- The prefixes in scope inside the element. -/
  scope : Scope
  deriving Inhabited

namespace OpenElement

/-- The scope inside an element with the given attributes. -/
def scopeOf (outer : Scope) (attributes : List (String × String)) : Scope :=
  attributes.foldl (fun scope (key, value) => scope.declare key value) outer

/-- The name that an element's written name stands for: resolved, or for an unknown prefix the part
after the last colon, without a namespace. -/
def nameOf (scope : Scope) (written : String) : Name :=
  match scope.resolve written with
  | .ok name => name
  | .error _ => .unqualified (((Text.cutLast ':' written).map (·.2)).getD written)

/-- The element that a start tag opens in a scope. -/
def ofTag (outer : Scope) (first stop : Nat) (tag : Tag) : OpenElement :=
  let scope := scopeOf outer tag.attributes
  { element :=
      { name := nameOf scope tag.name
        attributes := tag.attributes
        span := ⟨first, stop, stop, stop⟩
        closed := false
        selfClosing := false
        children := [] }
    written := tag.name
    scope }

/-- The element without an end tag, ended at an offset. -/
def cutOff (o : OpenElement) (offset : Nat) : Element :=
  { o.element with span := { o.element.span with contentEnd := offset, stop := offset } }

/-- The element with an end tag between two offsets. -/
def close (o : OpenElement) (first stop : Nat) : Element :=
  { o.element with span := { o.element.span with contentEnd := first, stop }, closed := true }

end OpenElement

/-- A document read in part: the root if it has ended, and the elements around the current place,
the innermost first. -/
structure Unfinished where
  root : Option Element
  stack : List OpenElement
  deriving Inhabited

namespace Unfinished

/-- Nothing has been read. -/
def empty : Unfinished := ⟨none, []⟩

/-- Adds an element that has ended: to the innermost open one, or as the root if there is none. -/
def attach (p : Unfinished) (e : Element) : Unfinished :=
  match p.stack with
  | [] => { p with root := p.root.or (some e) }
  | o :: os =>
    let element := { o.element with children := o.element.children ++ [e] }
    { p with stack := { o with element } :: os }

/-- Ends the innermost open element without an end tag. -/
def cutOff (p : Unfinished) (offset : Nat) : Unfinished :=
  match p.stack with
  | [] => p
  | o :: os => { p with stack := os }.attach (o.cutOff offset)

/-- Ends the `n` innermost open elements without end tags. -/
def cutOffMany (p : Unfinished) (offset : Nat) : Nat → Unfinished
  | 0 => p
  | n + 1 => (p.cutOff offset).cutOffMany offset n

/-- Ends the innermost open element by an end tag. -/
def close (p : Unfinished) (first stop : Nat) : Unfinished :=
  match p.stack with
  | [] => p
  | o :: os => { p with stack := os }.attach (o.close first stop)

/-- The prefixes in scope at the current place. -/
def scope (p : Unfinished) : Scope := (p.stack.head?.map (·.scope)).getD .empty

/-- Takes one tag.  An end tag ends the innermost open element of its name, and all inside that
one before it. -/
def take (p : Unfinished) : Event → Unfinished
  | .start first stop tag => { p with stack := .ofTag p.scope first stop tag :: p.stack }
  | .empty first stop tag =>
    p.attach { (OpenElement.ofTag p.scope first stop tag).element with
      closed := true, selfClosing := true }
  | .finish first stop name =>
    match p.stack.findIdx? (·.written == name) with
    | none => p
    | some depth => (p.cutOffMany first depth).close first stop

/-- Ends all open elements at the end of the text. -/
def finish (p : Unfinished) (offset : Nat) : Option Element :=
  (p.cutOffMany offset p.stack.length).root

end Unfinished

/-- The character that starts at a byte offset. -/
def charAt? : List Char → Nat → Option Char
  | [], _ => none
  | c :: _, 0 => some c
  | c :: cs, n => if c.utf8Size ≤ n then charAt? cs (n - c.utf8Size) else none

/-- Whether a tag ends with its bracket; a start tag that does not is still being typed. -/
def Event.typed (text : List Char) : Event → Bool
  | .finish .. => true
  | e => charAt? text (e.stop - 1) == some '>'

end Document

open Document in
/-- The root element of a text, if the text has one. -/
def Document.read (text : String) : Option Element :=
  let tags := (events text).takeWhile (Event.typed text.toList)
  (tags.foldl Unfinished.take .empty).finish text.utf8ByteSize

end SchemaAssist
