/-
# Schema documents

A document adds its declarations to the components of a grammar, and leaves the references that it
makes to other documents to whoever loads them.
-/

import SchemaAssist.Schema.Declaration
import SchemaAssist.Text.Decimal

namespace SchemaAssist
namespace Schema

open Markup (Tag Node)

/-- How a document refers to another. -/
inductive ReferenceKind where
  /-- To more of its own namespace. -/
  | inclusion
  /-- To another namespace. -/
  | imported
  /-- To a document whose declarations it changes; they are taken as they are. -/
  | redefinition
  deriving DecidableEq, Repr, Inhabited

/-- The reference that an element of the schema language denotes. -/
def ReferenceKind.ofTag? : String → Option ReferenceKind
  | "include" => some .inclusion
  | "import" => some .imported
  | "redefine" => some .redefinition
  | "override" => some .redefinition
  | _ => none

/-- A reference to another document. -/
structure Reference where
  kind : ReferenceKind
  /-- Where the document is, as the referring one says. -/
  location? : Option String
  /-- The namespace that is referred to. -/
  space? : Option String
  /-- The namespace of the referring document. -/
  referringSpace? : Option String
  deriving DecidableEq, Repr, Inhabited

/-- The references that some elements make. -/
def referencesOf (target? : Option String) (elements : List (Tag × List Node)) : List Reference :=
  elements.filterMap fun (t, _) => (ReferenceKind.ofTag? (kind t)).map fun kind =>
    { kind
      location? := (t.attribute? "schemaLocation").map Text.trim
      space? := (t.attribute? "namespace").map Text.trim
      referringSpace? := target? }

/-- The namespace of attributes that choose between versions of the schema language. -/
def versioningNamespace : String := "http://www.w3.org/2007/XMLSchema-versioning"

/-- Whether the least version that a value names is the later one or above.  A value counts as the
nearest number of 24 binary digits, and the midpoint below the one nearest to 1.1 is this
fraction. -/
def asksForLater (value : String) : Bool :=
  match Text.Decimal.read? (Text.trim value) with
  | some d => d.above 18454937 0x1000000
  | none => false

/-- Whether the root of a document makes the rules of the later version apply. -/
def needsLater (root : Tag) : Bool :=
  root.space == some schemaNamespace11 ||
    ((root.attributeIn? versioningNamespace "minVersion").map asksForLater).getD false

/-- The target namespace that the root of a document declares. -/
def declaredTarget? (root : Tag) : Option String :=
  (root.attribute? "targetNamespace").filter (· ≠ "")

/-- The form that an attribute of the root gives to declarations without one. -/
def defaultForm (root : Tag) (key : String) : Form :=
  ((root.attribute? key).bind Form.read?).getD .unqualified

/-- Reads the content of a schema document, the last of the documents so far.  A document without a
target namespace takes that of the document that includes it. -/
def readRoot (text : String) (including? : Option String) (root : Tag) (children : List Node) :
    Building (List Reference) := do
  if needsLater root then Components.requireLater
  let target? := (declaredTarget? root).or including?
  let count := (← get).locations.size
  if count = 1 then modify fun c => { c with target? }
  let source : Source := {
    text := text.toList
    document := count - 1
    target?
    elementForm := defaultForm root "elementFormDefault"
    attributeForm := defaultForm root "attributeFormDefault"
    adopted := (declaredTarget? root).isNone && including?.isSome }
  (elements children).forM fun e => (declare e).run source
  return referencesOf target? (elements children)

end Schema

/-- Adds a schema document; `including?` is the namespace of a document that includes it.  The
location of a document that is no schema is kept. -/
def Components.addDocument (text : String) (location : Location) (including? : Option String) :
    Building (Except LoadError (List Schema.Reference)) := do
  match (← get).limits.checkSchemaSize text.utf8ByteSize with
  | .error e => return .error (.limit e)
  | .ok () =>
    match Markup.read text with
    | .error e => return .error (.malformed e)
    | .ok (root, children) =>
      modify fun c => { c with locations := c.locations.push location }
      if Schema.kind root = "schema" then
        return .ok (← Schema.readRoot text including? root children)
      else return .error (.notSchema root.localName)

end SchemaAssist
