/-
# Reading against a document

What the tags of a schema document say by themselves: the names that their attributes refer to, the
bounds on occurrences, the documentation.  A value that cannot be read is reported with the place of
its tag, and something neutral stands in for it.
-/

import SchemaAssist.Schema.Components

namespace SchemaAssist
namespace Schema

/-- A document that is being read. -/
structure Source where
  /-- The text of the document, for places in it. -/
  text : List Char
  /-- The place of the document among the documents. -/
  document : Nat
  /-- The namespace of what the document declares. -/
  target? : Option String
  elementForm : Form
  attributeForm : Form
  /-- The target namespace is that of an including document: names without one are in it. -/
  adopted : Bool

/-- A step of reading a document. -/
abbrev Reading := ReaderT Source Building

/-- Whether a name stands for something of the schema language. -/
def isSchemaSpace (space : Option String) : Bool :=
  space == some schemaNamespace || space == some schemaNamespace11

/-- The local name of a tag of the schema language; empty for another tag. -/
def kind (t : Markup.Tag) : String := if isSchemaSpace t.space then t.localName else ""

/-- The elements of the schema language among some nodes. -/
def elements (nodes : List Markup.Node) : List (Markup.Tag × List Markup.Node) :=
  (nodes.filterMap Markup.Node.element?).filter fun e => isSchemaSpace e.1.space

/-- The first of some documentation that is not empty. -/
def documentation? (nodes : List Markup.Node) : Option String :=
  let annotations := (elements nodes).filter (kind ·.1 = "annotation")
  let notes := (annotations.flatMap (elements ·.2)).filter (kind ·.1 = "documentation")
  (notes.map fun e => Text.trim (Markup.Node.contentOf e.2)).find? (· ≠ "")

/-- Whether the value of an attribute says yes. -/
def isTrue (value? : Option String) : Bool :=
  match value?.map Text.trim with
  | some "true" => true
  | some "1" => true
  | _ => false

/-- Reports a fault at the place of a tag. -/
def report (t : Markup.Tag) (f : Fault) : Reading Unit := do
  let place := Markup.Position.ofOffset (← read).text t.offset
  Components.record { fault := f, position? := some place }

/-- The name of a declaration at the top of a document. -/
def Source.globalName (s : Source) (localName : String) : Name := ⟨s.target?.getD "", localName⟩

/-- The name of a declaration of the given form inside a type. -/
def Source.localName (s : Source) (form : Form) (localName : String) : Name :=
  match form with
  | .qualified => s.globalName localName
  | .unqualified => .unqualified localName

/-- The namespace of a reference: the later namespace of the schema language stands for the first,
and no namespace for that of an including document. -/
def Source.referenceSpace (s : Source) (space : String) : String :=
  if space = schemaNamespace11 then schemaNamespace
  else if space = "" ∧ s.adopted then s.target?.getD ""
  else space

/-- The name that a value refers to. -/
def Source.reference (s : Source) (scope : Scope) (value : String) : Except Fault Name :=
  let value := Text.trim value
  match Text.cut ':' value with
  | some (_, "") => .error (.invalidName value)
  | some (pre, localName) =>
    match scope.find? pre with
    | some space => .ok ⟨s.referenceSpace space, localName⟩
    | none => .error (.unknownPrefix pre value)
  | none =>
    if value = "" then .error (.invalidName value)
    else .ok ⟨s.referenceSpace scope.default, value⟩

/-- The name that a value at a tag refers to; a value that is none is reported. -/
def reference? (t : Markup.Tag) (value : String) : Reading (Option Name) := do
  match (← read).reference t.scope value with
  | .ok n => return some n
  | .error f =>
    report t f
    return none

/-- The name that an attribute of a tag refers to, if the tag has it. -/
def attributeReference? (t : Markup.Tag) (key : String) : Reading (Option Name) := do
  match t.attribute? key with
  | some value => reference? t value
  | none => return none

/-- The names that the words of a value at a tag refer to. -/
def references (t : Markup.Tag) (value : String) : Reading (List Name) := do
  return (← (Text.words value).mapM (reference? t)).filterMap id

/-- The bounds that a tag gives. -/
def occurs (t : Markup.Tag) : Reading Occurs := do
  match Occurs.read (t.attribute? "minOccurs") (t.attribute? "maxOccurs") with
  | .ok o => return o
  | .error e =>
    report t (.occurs e)
    return .once

/-- The wildcard that a tag describes. -/
def wildcard (t : Markup.Tag) : Reading Wildcard := do
  let o ← occurs t
  let strictness := ((t.attribute? "processContents").bind Strictness.read?).getD .strict
  let target? := (← read).target?
  let spaces :=
    match t.attribute? "namespace", t.attribute? "notNamespace" with
    | _, some value => Spaces.readNotNamespace target? value
    | some value, none => Spaces.readNamespace target? value
    | none, none => .ok .any
  match spaces with
  | .ok spaces => return ⟨spaces, strictness, o⟩
  | .error e =>
    report t (.spaces e)
    return ⟨.any, strictness, o⟩

/-- The reference to a group that a tag makes, if it names one. -/
def groupRef? (t : Markup.Tag) : Reading (Option Particle) := do
  let o ← occurs t
  match ← attributeReference? t "ref" with
  | some n => return some (.groupRef n o)
  | none =>
    report t .unnamedGroupRef
    return none

/-- The name that a component at the top of a document gets; without one it is reported. -/
def requiredName? (t : Markup.Tag) : Reading (Option Name) := do
  match t.attribute? "name" with
  | some value => return some ((← read).globalName (Text.trim value))
  | none =>
    report t (.unnamedGlobal t.localName)
    return none

end Schema
end SchemaAssist
