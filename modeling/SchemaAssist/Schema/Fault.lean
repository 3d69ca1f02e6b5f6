/-
# Faults of schemas

What can be wrong with a schema without keeping it from being used.  A fault is recorded with the
place where it was found, if it has one, and what it touches falls back to something neutral.
-/

import SchemaAssist.ContentModel.Compile
import SchemaAssist.Loading.Failure
import SchemaAssist.Markup.Read
import SchemaAssist.Schema.Component

namespace SchemaAssist

/-- A component that refers to a type. -/
inductive Referrer where
  | simpleType (label : String)
  | «attribute» (name : Name)
  | element (name : Name)
  deriving Repr

/-- How a component that refers to a type is called. -/
def Referrer.toString : Referrer → String
  | .simpleType label => s!"simple type '{label}'"
  | .attribute name => s!"attribute '{name}'"
  | .element name => s!"element '{name}'"

/-- What is wrong with a schema. -/
inductive Fault where
  /-- A value is no name. -/
  | invalidName (value : String)
  /-- The prefix of a name is not declared. -/
  | unknownPrefix (pre value : String)
  /-- A pair of bounds is none. -/
  | occurs (invalid : Occurs.Invalid)
  /-- A list of namespaces is none. -/
  | spaces (invalid : Spaces.Invalid)
  /-- A component at the top has no name. -/
  | unnamedGlobal (tag : String)
  | unnamedElement
  | unnamedAttribute
  /-- Something else stands among the particles of a group. -/
  | unexpectedParticle (tag : String) (compositor : Compositor)
  /-- A reference to a group names none. -/
  | unnamedGroupRef
  /-- A derivation is neither an extension nor a restriction. -/
  | noDerivation
  | duplicateElement (name : Name)
  | duplicateType (name : Name)
  | unknownType (name : Name) (referrer : Referrer)
  | unknownElement (name : Name)
  | circularGroup (name : Name)
  | unknownGroup (name : Name)
  /-- Model groups nest too deep. -/
  | modelDepth (exceeded : Limits.Exceeded)
  | circularDerivation (label : String)
  | selfDerivation (label : String)
  | unknownBase (base : Name) (label : String)
  | circularAttributeGroup (name : Name)
  | unknownAttributeGroup (name : Name)
  | unknownAttribute (name : Name)
  | unknownHead (head element : Name)
  /-- A model group has no content model. -/
  | modelRefused (label : String) (refusal : ContentModel.Refusal)
  /-- A schema referred to could not be loaded. -/
  | notLoaded (error : LoadError)
  /-- A reference to a schema leads nowhere. -/
  | notResolved (reference : String) (invalid : Location.Invalid)
  deriving Repr

/-- The wording of a fault. -/
def Fault.message : Fault → String
  | .invalidName value => s!"invalid qualified name '{value}'"
  | .unknownPrefix pre value => s!"unknown namespace prefix '{pre}' in '{value}'"
  | .occurs invalid => invalid.message
  | .spaces invalid => invalid.message
  | .unnamedGlobal tag => s!"global '{tag}' without a name"
  | .unnamedElement => "element declaration without a name"
  | .unnamedAttribute => "attribute declaration without a name"
  | .unexpectedParticle tag compositor => s!"unexpected '{tag}' in a '{compositor.toString}' group"
  | .unnamedGroupRef => "group reference without a 'ref' attribute"
  | .noDerivation => "derivation without 'extension' or 'restriction'"
  | .duplicateElement name => s!"duplicate global element '{name}'"
  | .duplicateType name => s!"duplicate global type '{name}'"
  | .unknownType name referrer => s!"unknown type '{name}' referenced by {referrer.toString}"
  | .unknownElement name => s!"unknown element '{name}' referenced in a content model"
  | .circularGroup name => s!"circular reference to model group '{name}'"
  | .unknownGroup name => s!"unknown model group '{name}'"
  | .modelDepth exceeded => s!"limit exceeded: {exceeded.message}"
  | .circularDerivation label => s!"circular derivation of complex type '{label}'"
  | .selfDerivation label => s!"complex type '{label}' derives from itself"
  | .unknownBase base label => s!"unknown base type '{base}' of complex type '{label}'"
  | .circularAttributeGroup name => s!"circular reference to attribute group '{name}'"
  | .unknownAttributeGroup name => s!"unknown attribute group '{name}'"
  | .unknownAttribute name => s!"unknown attribute '{name}' referenced"
  | .unknownHead head element => s!"unknown substitution group head '{head}' of element '{element}'"
  | .modelRefused label refusal => s!"content model of type '{label}' rejected: {refusal.message}"
  | .notLoaded error => s!"failed to load referenced schema: {error.message}"
  | .notResolved reference invalid =>
    s!"cannot resolve schemaLocation '{reference}': {invalid.message}"

/-- A fault with the place where it was found and the document that it is about, where known. -/
structure Problem where
  fault : Fault
  position? : Option Markup.Position := none
  source? : Option String := none
  deriving Repr

/-- A problem without a place. -/
def Fault.problem (fault : Fault) : Problem := { fault }

/-- A message with the place and the document that it is about, where known. -/
structure Report where
  message : String
  location? : Option String := none
  source? : Option String := none
  deriving Repr

/-- The report of a problem. -/
def Problem.report (p : Problem) : Report where
  message := p.fault.message
  location? := p.position?.map Markup.Position.toString
  source? := p.source?

/-- A report in full: the place and the document stand in paragraphs of their own. -/
def Report.toString (r : Report) : String :=
  let location := match r.location? with
    | some location => "\n\nLocation: " ++ location
    | none => ""
  let source := match r.source? with
    | some source => "\n\nSource:\n" ++ source
    | none => ""
  r.message ++ location ++ source

/-- A problem in full. -/
def Problem.toString (p : Problem) : String := p.report.toString

end SchemaAssist
