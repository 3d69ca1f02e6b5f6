/-
# Declarations and types

What a schema declares, as it is kept in the tables of a grammar: elements, simple types and complex
types.  References are by name until they are looked up.
-/

import SchemaAssist.Attribute

namespace SchemaAssist

/-- Whether an element is declared at the top of a schema or inside a type. -/
inductive Scoping where
  | global
  | «local»
  deriving DecidableEq, Repr, Inhabited

/-- The declaration of an element. -/
structure ElementDecl where
  name : Name
  scoping : Scoping
  typeRef : TypeRef := .unspecified
  /-- The type, once it has been looked up. -/
  type? : Option TypeId := none
  isAbstract : Bool := false
  nillable : Bool := false
  default? : Option String := none
  fixed? : Option String := none
  /-- The elements that this one may stand in for. -/
  heads : List Name := []
  documentation? : Option String := none
  /-- The document that declares the element, by its place among the documents. -/
  document : Nat := 0
  deriving DecidableEq, Repr, Inhabited

/-- How the values of a simple type are made up. -/
inductive Variety where
  | atomic
  | list
  | union
  deriving DecidableEq, Repr, Inhabited

/-- A simple type. -/
structure SimpleType where
  name? : Option Name
  variety : Variety := .atomic
  /-- The type that is restricted. -/
  base : TypeRef := .unspecified
  /-- The restricted type, once it has been looked up. -/
  base? : Option TypeId := none
  item : TypeRef := .unspecified
  members : List TypeRef := []
  /-- The values allowed by the type itself; empty if it lists none. -/
  enumeration : List String := []
  documentation? : Option String := none
  builtin : Bool := false
  deriving DecidableEq, Repr, Inhabited

/-- What stands in elements of a complex type. -/
inductive Content where
  /-- No elements. -/
  | empty
  /-- A value of a simple type. -/
  | simple (type : TypeRef)
  /-- Elements as a model group describes them. -/
  | group (group : ModelGroup)
  deriving Repr, Inhabited

/-- How a complex type comes from its base. -/
inductive Derivation where
  | extension
  | restriction
  deriving DecidableEq, Repr, Inhabited

/-- The derivation that an element of the schema language denotes. -/
def Derivation.ofTag? : String → Option Derivation
  | "extension" => some .extension
  | "restriction" => some .restriction
  | _ => none

/-- A complex type. -/
structure ComplexType where
  name? : Option Name
  content : Content := .empty
  mixed : Bool := false
  attributes : List AttributeUse := []
  /-- The attribute groups referred to, until they have been looked up. -/
  attributeGroups : List Name := []
  /-- The base type and how this one comes from it. -/
  derivation? : Option (Derivation × Name) := none
  isAbstract : Bool := false
  documentation? : Option String := none
  deriving Repr, Inhabited

/-- What may stand in an element, in short. -/
inductive ContentKind where
  | empty
  | simple
  | elementOnly
  | mixed
  deriving DecidableEq, Repr, Inhabited

/-- The wording of a kind of content. -/
def ContentKind.toString : ContentKind → String
  | .empty => "empty"
  | .simple => "simple"
  | .elementOnly => "element-only"
  | .mixed => "mixed"

namespace ComplexType

/-- The model group of a type that has one. -/
def group? (t : ComplexType) : Option ModelGroup :=
  match t.content with
  | .group g => some g
  | _ => none

/-- The kind of content of a complex type. -/
def contentKind (t : ComplexType) : ContentKind :=
  match t.content, t.mixed with
  | .simple _, _ => .simple
  | _, true => .mixed
  | .empty, false => .empty
  | .group _, false => .elementOnly

end ComplexType

/-- Whether a type is simple or complex. -/
inductive Category where
  | simple
  | complex
  deriving DecidableEq, Repr, Inhabited

/-- A type definition. -/
inductive TypeDef where
  | simple (type : SimpleType)
  | complex (type : ComplexType)
  deriving Repr, Inhabited

namespace TypeDef

/-- The name of a type that has one. -/
def name? : TypeDef → Option Name
  | simple t => t.name?
  | complex t => t.name?

/-- How a type is called in messages. -/
def label (t : TypeDef) : String := (t.name?.map Name.toString).getD "<anonymous>"

/-- Whether a type is simple or complex. -/
def category : TypeDef → Category
  | simple _ => .simple
  | complex _ => .complex

/-- The kind of content of a type. -/
def contentKind : TypeDef → ContentKind
  | simple _ => .simple
  | complex t => t.contentKind

/-- The documentation of a type. -/
def documentation? : TypeDef → Option String
  | simple t => t.documentation?
  | complex t => t.documentation?

/-- The complex type of a definition that is one. -/
def complex? : TypeDef → Option ComplexType
  | simple _ => none
  | complex t => some t

/-- The model group of a type that has one. -/
def group? (t : TypeDef) : Option ModelGroup := t.complex?.bind ComplexType.group?

end TypeDef
end SchemaAssist
