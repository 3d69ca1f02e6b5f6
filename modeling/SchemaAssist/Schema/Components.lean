/-
# Components of a grammar under construction

The documents of a grammar put their declarations into one set of tables.  Declarations and types
are numbered as they come; those at the top of a document also have an entry by name.  What is wrong
is recorded in the order in which it is found.
-/

import SchemaAssist.Name.Table
import SchemaAssist.Schema.Builtin
import SchemaAssist.Schema.Fault

namespace SchemaAssist

/-- The tables that documents fill. -/
structure Components where
  version : Version
  limits : Limits
  /-- The target namespace of the first document. -/
  target? : Option String := none
  locations : Array Location := #[]
  elements : Array ElementDecl := #[]
  types : Array TypeDef := #[]
  globalElements : NameTable ElementId := {}
  globalTypes : NameTable TypeId := {}
  groups : NameTable ModelGroup := {}
  attributeGroups : NameTable AttributeGroup := {}
  globalAttributes : NameTable AttributeUse := {}
  /-- The built-in types that have been referred to, by local name. -/
  builtins : List (String × TypeId) := []
  problems : Array Problem := #[]
  deriving Inhabited

/-- A step of construction. -/
abbrev Building := StateM Components

namespace Components

/-- No documents yet. -/
def empty (version : Version) (limits : Limits) : Components := { version, limits }

/-- Records a problem. -/
def record (p : Problem) : Building Unit :=
  modify fun c => { c with problems := c.problems.push p }

/-- Records a fault that has no place. -/
def report (f : Fault) : Building Unit := record f.problem

/-- Turns to the rules of the later version. -/
def requireLater : Building Unit := modify fun c => { c with version := .v11 }

/-- Numbers an element declaration. -/
def addElement (e : ElementDecl) : Building ElementId := fun c =>
  (⟨c.elements.size⟩, { c with elements := c.elements.push e })

/-- Numbers a type. -/
def addType (t : TypeDef) : Building TypeId := fun c =>
  (⟨c.types.size⟩, { c with types := c.types.push t })

/-- Enters a global element, unless there is one of the name. -/
def enterElement (n : Name) (d : ElementId) : Building Unit := do
  let c ← get
  if c.globalElements.has n then report (.duplicateElement n)
  else set { c with globalElements := c.globalElements.add n d }

/-- Enters a global type, unless there is one of the name. -/
def enterType (n : Name) (t : TypeId) : Building Unit := do
  let c ← get
  if c.globalTypes.has n then report (.duplicateType n)
  else set { c with globalTypes := c.globalTypes.add n t }

/-- Enters a named group; a later one takes the place of an earlier one. -/
def enterGroup (n : Name) (g : ModelGroup) : Building Unit :=
  modify fun c => { c with groups := c.groups.put n g }

/-- Enters an attribute group; a later one takes the place of an earlier one. -/
def enterAttributeGroup (n : Name) (g : AttributeGroup) : Building Unit :=
  modify fun c => { c with attributeGroups := c.attributeGroups.put n g }

/-- Enters a global attribute; a later one takes the place of an earlier one. -/
def enterAttribute (a : AttributeUse) : Building Unit :=
  modify fun c => { c with globalAttributes := c.globalAttributes.put a.name a }

/-- The built-in type of a local name, which is numbered when it is first referred to. -/
def builtinType (localName : String) : Building TypeId := do
  match (← get).builtins.lookup localName with
  | some t => return t
  | none =>
    let t ← addType (Builtin.definition localName)
    modify fun c => { c with builtins := (localName, t) :: c.builtins }
    return t

/-- The type of a name: a global one, or else a built-in one. -/
def typeNamed? (n : Name) : Building (Option TypeId) := do
  match (← get).globalTypes.find? n with
  | some t => return some t
  | none =>
    if Builtin.isAnyType n || Builtin.isSimpleType n then return some (← builtinType n.localName)
    else return none

/-- The type that a component refers to; a name that no type has is reported. -/
def typeOf? (ref : TypeRef) (referrer : Referrer) : Building (Option TypeId) := do
  match ref with
  | .unspecified => return none
  | .definition t => return some t
  | .named n =>
    let t? ← typeNamed? n
    if t?.isNone then report (.unknownType n referrer)
    return t?

end Components
end SchemaAssist
