/-
# Around the caret

What a caret at a byte offset needs to know of a document: the elements whose content it is in, the
children that have ended before it, and the schemas that the document names.
-/

import SchemaAssist.Document.Tree
import SchemaAssist.Text.Blank

namespace SchemaAssist
namespace Document

namespace Element

/-- The value of the first attribute of a key as written. -/
def attribute? (e : Element) (key : String) : Option String := e.attributes.lookup key

/-- Whether an offset is between the tags of an element, both ends included. -/
def containsContent (e : Element) (offset : Nat) : Bool :=
  !e.selfClosing && e.span.startTagEnd ≤ offset && offset ≤ e.span.contentEnd

/-- The names of the closed children before the first child that ends after an offset. -/
def closedBefore (e : Element) (offset : Nat) : List Name :=
  ((e.children.takeWhile (·.span.stop ≤ offset)).filter (·.closed)).map (·.name)

mutual

/-- An element and those inside it whose content an offset is in, the outermost first: at each level
the first child that qualifies. -/
def path (offset : Nat) : Element → List Element
  | ⟨name, attributes, span, closed, selfClosing, children⟩ =>
    let e : Element := ⟨name, attributes, span, closed, selfClosing, children⟩
    if e.containsContent offset then e :: pathIn offset children else []

/-- The path that starts with the first qualifying element of several. -/
def pathIn (offset : Nat) : List Element → List Element
  | [] => []
  | e :: es =>
    match path offset e with
    | [] => pathIn offset es
    | p => p

end

end Element

/-- The elements whose content an offset is in, the outermost first. -/
def pathAt (root : Option Element) (offset : Nat) : List Element :=
  match root with
  | none => []
  | some e => e.path offset

/-- The innermost element whose content an offset is in. -/
def elementAt? (root : Option Element) (offset : Nat) : Option Element :=
  (pathAt root offset).getLast?

/-- The namespace of the attributes that name schemas. -/
def instanceNamespace : String := "http://www.w3.org/2001/XMLSchema-instance"

/-- Every second one of a list, starting with the second. -/
def everySecond {α : Type _} : List α → List α
  | _ :: b :: xs => b :: everySecond xs
  | _ => []

/-- The schemas that an attribute names: the locations of a list of namespaces and locations, or a
single location. -/
def hintsOf (localName value : String) : List String :=
  if localName = "schemaLocation" then everySecond (Text.words value)
  else if localName = "noNamespaceSchemaLocation" then [Text.trim value]
  else []

/-- The schemas that the root element of a document names, in order. -/
def locationHints (root : Option Element) : List String :=
  match root with
  | none => []
  | some e =>
    let scope := OpenElement.scopeOf .empty e.attributes
    e.attributes.flatMap fun (key, value) =>
      match Text.cut ':' key with
      | some (pre, localName) =>
        if scope.find? pre = some instanceNamespace then hintsOf localName value else []
      | none => []

end Document
end SchemaAssist
