/-
# Declarations of a document

Declarations and types are read from the children of their tags, in document order.  A type inside
a declaration is numbered before the declaration that holds it.
-/

import SchemaAssist.Schema.Source

namespace SchemaAssist
namespace Schema

open Markup (Tag Node)

/-- A simple type before its content is read. -/
def newSimpleType (name? : Option Name) (children : List Node) : SimpleType where
  name? := name?
  documentation? := documentation? children

/-- Numbers a simple type. -/
def addSimpleType (st : SimpleType) : Reading TypeRef := do
  return .definition (← Components.addType (.simple st))

/-- The values that some facets list. -/
def enumeration (facets : List Node) : List String :=
  ((elements facets).filter (kind ·.1 = "enumeration")).filterMap (·.1.attribute? "value")

/-- The type that an attribute of a tag names, or else the one given inside. -/
def namedType (t : Tag) (key : String) (inside : Reading TypeRef) : Reading TypeRef := do
  match ← attributeReference? t key with
  | some n => return .named n
  | none => inside

mutual

/-- Reads and numbers a simple type, if a node is one. -/
def simpleType? : Node → Reading (Option TypeRef)
  | .text _ => return none
  | .element t cs =>
    if kind t = "simpleType" then do
      return some (← addSimpleType (← simpleParts (newSimpleType none cs) cs))
    else return none

/-- Reads the children of a simple type. -/
def simpleParts (st : SimpleType) : List Node → Reading SimpleType
  | [] => return st
  | .text _ :: rest => simpleParts st rest
  | .element t cs :: rest => do
    let st ← match kind t with
      | "restriction" => do
        let base ← namedType t "base" (inlineSimpleType cs)
        pure { st with variety := .atomic, base, enumeration := enumeration cs }
      | "list" => do
        let item ← namedType t "itemType" (inlineSimpleType cs)
        pure { st with variety := .list, item }
      | "union" => do
        let named ← references t ((t.attribute? "memberTypes").getD "")
        let inside ← memberTypes cs
        pure { st with variety := .union, members := st.members ++ named.map .named ++ inside }
      | _ => pure st
    simpleParts st rest

/-- Reads the first simple type among some nodes. -/
def inlineSimpleType : List Node → Reading TypeRef
  | [] => return .unspecified
  | n :: rest => do
    match ← simpleType? n with
    | some t => return t
    | none => inlineSimpleType rest

/-- Reads all simple types among some nodes. -/
def memberTypes : List Node → Reading (List TypeRef)
  | [] => return []
  | n :: rest => do
    let t? ← simpleType? n
    return t?.toList ++ (← memberTypes rest)

end

/-- Reads and numbers a simple type. -/
def simpleType (name? : Option Name) (children : List Node) : Reading TypeRef := do
  addSimpleType (← simpleParts (newSimpleType name? children) children)

/-- The name that a tag gives to an element or attribute, by its form unless it is global. -/
def declaredName (t : Tag) (scoping : Scoping) (default : Form) (written : String) :
    Reading Name := do
  let form := ((t.attribute? "form").bind Form.read?).getD default
  return (← read).localName (if scoping = .global then .qualified else form) (Text.trim written)

/-- Reads an element declaration, given how the type inside is read. -/
def elementDecl? (scoping : Scoping) (t : Tag) (children : List Node)
    (inside : Reading TypeRef) : Reading (Option ElementId) := do
  match t.attribute? "name" with
  | none =>
    report t .unnamedElement
    return none
  | some written =>
    let source ← read
    let name ← declaredName t scoping source.elementForm written
    let typeRef ← namedType t "type" inside
    let heads ← references t ((t.attribute? "substitutionGroup").getD "")
    if 1 < heads.length then Components.requireLater
    let d ← Components.addElement {
      name, scoping, typeRef, heads
      isAbstract := isTrue (t.attribute? "abstract")
      nillable := isTrue (t.attribute? "nillable")
      default? := t.attribute? "default"
      fixed? := t.attribute? "fixed"
      documentation? := documentation? children
      document := source.document }
    if scoping = .global then Components.enterElement name d
    return some d

/-- Reads an element of a model group: a declaration or a reference. -/
def elementParticle? (t : Tag) (children : List Node) (inside : Reading TypeRef) :
    Reading (Option Particle) := do
  let o ← occurs t
  if (t.attribute? "ref").isSome then
    return (← attributeReference? t "ref").map (.elementRef · o)
  else return (← elementDecl? .local t children inside).map (.element · o)

/-- Reads an attribute: a declaration or a reference. -/
def attribute? (scoping : Scoping) (t : Tag) (children : List Node) (inside : Reading TypeRef) :
    Reading (Option AttributeUse) := do
  let declared? : Option AttributeUse ←
    if (t.attribute? "ref").isSome then
      pure ((← attributeReference? t "ref").map fun n => { name := n, reference? := some n })
    else match t.attribute? "name" with
      | none =>
        report t .unnamedAttribute
        pure none
      | some written =>
        let name ← declaredName t scoping (← read).attributeForm written
        pure (some { name, typeRef := ← namedType t "type" inside })
  return declared?.map fun a => { a with
    use := ((t.attribute? "use").bind Use.read?).getD .optional
    default? := t.attribute? "default"
    fixed? := t.attribute? "fixed"
    documentation? := documentation? children }

/-- A complex type before its content is read. -/
def newComplexType (name? : Option Name) (t : Tag) (children : List Node) : ComplexType where
  name? := name?
  mixed := isTrue (t.attribute? "mixed")
  isAbstract := isTrue (t.attribute? "abstract")
  documentation? := documentation? children

/-- Content that is derived: a value with its restriction, if there is one, or elements. -/
inductive Derived where
  | simple (method : Derivation) (restriction? : Option SimpleType)
  | complex

/-- A complex type with the base that its derivation names, if it names one. -/
def withBase (ct : ComplexType) (method : Derivation) (base? : Option Name) : ComplexType :=
  match base? with
  | some base => { ct with derivation? := some (method, base) }
  | none => ct

/-- Whether text may stand between the elements of complex content. -/
def isMixed (ct : ComplexType) (t : Tag) : Bool :=
  match t.attribute? "mixed" with
  | some value => isTrue (some value)
  | none => ct.mixed

/-- The compositor of a tag that is one of a model group. -/
def compositor? (t : Tag) : Option Compositor := Compositor.ofTag? (kind t)

/-- Adds a model group or an attribute to a complex type, given how the particles and the type
inside are read. -/
def addPart (ct : ComplexType) (t : Tag) (children : List Node)
    (inside : Compositor → Reading (List Particle)) (insideType : Reading TypeRef) :
    Reading ComplexType := do
  match compositor? t, kind t with
  | some c, _ =>
    let o ← occurs t
    return { ct with content := .group ⟨c, ← inside c, o⟩ }
  | none, "group" =>
    match ← groupRef? t with
    | some p => return { ct with content := .group ⟨.sequence, [p], .once⟩ }
    | none => return ct
  | none, "attribute" =>
    let a? ← attribute? .local t children insideType
    return { ct with attributes := ct.attributes ++ a?.toList }
  | none, "attributeGroup" =>
    let n? ← attributeReference? t "ref"
    return { ct with attributeGroups := ct.attributeGroups ++ n?.toList }
  | none, _ => return ct

/-- Adds a value that a facet lists, if it is one that restricts a value. -/
def addValue (t : Tag) : Derived → Derived
  | .simple .restriction st? =>
    match t.attribute? "value" with
    | some value =>
      let st := st?.getD { name? := none }
      .simple .restriction (some { st with enumeration := st.enumeration ++ [value] })
    | none => .simple .restriction st?
  | d => d

/-- Adds the type that is restricted, if a value is derived, given how it is read. -/
def addRestricted (inside : Reading TypeRef) : Derived → Reading Derived
  | .simple method st? => do
    return .simple method (some { st?.getD { name? := none } with base := ← inside })
  | .complex => return .complex

/-- Numbers the restriction of a value, if there is one: it restricts the type that it holds, or
else the base. -/
def finishDerivation (ct : ComplexType) (base? : Option Name) : Derived → Reading ComplexType
  | .simple _ (some st) => do
    let base := if st.base = .unspecified then (base?.map .named).getD .unspecified else st.base
    let t ← Components.addType (.simple { st with base })
    return { ct with content := .simple (.definition t) }
  | _ => return ct

mutual

/-- Reads a particle of a group, if a node is one. -/
def particle? (c : Compositor) : Node → Reading (Option Particle)
  | .text _ => return none
  | .element t cs => do
    match compositor? t, kind t with
    | some inner, _ =>
      let o ← occurs t
      return some (.group inner (← particles inner cs) o)
    | none, "element" => elementParticle? t cs (inlineType cs)
    | none, "any" => return some (.any (← wildcard t))
    | none, "group" => groupRef? t
    | none, "annotation" => return none
    | none, "" => return none
    | none, other =>
      report t (.unexpectedParticle other c)
      return none

/-- Reads the particles of a group. -/
def particles (c : Compositor) : List Node → Reading (List Particle)
  | [] => return []
  | n :: rest => do
    let p? ← particle? c n
    return p?.toList ++ (← particles c rest)

/-- Reads the first type among the children of a declaration. -/
def inlineType : List Node → Reading TypeRef
  | [] => return .unspecified
  | .text _ :: rest => inlineType rest
  | .element t cs :: rest =>
    match kind t with
    | "complexType" => do
      let ct ← complexParts (newComplexType none t cs) cs
      return .definition (← Components.addType (.complex ct))
    | "simpleType" => simpleType none cs
    | _ => inlineType rest

/-- Reads the children of a complex type. -/
def complexParts (ct : ComplexType) : List Node → Reading ComplexType
  | [] => return ct
  | .text _ :: rest => complexParts ct rest
  | .element t cs :: rest => do
    let ct ← match kind t with
      | "complexContent" =>
        derivation t { ct with mixed := isMixed ct t } (fun _ => .complex) cs
      | "simpleContent" =>
        derivation t { ct with content := .simple .unspecified } (.simple · none) cs
      | _ => addPart ct t cs (fun c => particles c cs) (inlineType cs)
    complexParts ct rest

/-- Reads the first derivation among some nodes. -/
def derivation (outer : Tag) (ct : ComplexType) (kindOf : Derivation → Derived) :
    List Node → Reading ComplexType
  | [] => do
    report outer .noDerivation
    return ct
  | .text _ :: rest => derivation outer ct kindOf rest
  | .element t cs :: rest =>
    match Derivation.ofTag? (kind t) with
    | some method => do
      let base? ← attributeReference? t "base"
      let (ct, d) ← derivationParts (withBase ct method base?) (kindOf method) cs
      finishDerivation ct base? d
    | none => derivation outer ct kindOf rest

/-- Reads the children of a derivation. -/
def derivationParts (ct : ComplexType) (d : Derived) : List Node → Reading (ComplexType × Derived)
  | [] => return (ct, d)
  | .text _ :: rest => derivationParts ct d rest
  | .element t cs :: rest =>
    match kind t with
    | "enumeration" => derivationParts ct (addValue t d) rest
    | "simpleType" => do
      derivationParts ct (← addRestricted (simpleType none cs) d) rest
    | _ => do
      let ct ← addPart ct t cs (fun c => particles c cs) (inlineType cs)
      derivationParts ct d rest

end

/-- Reads an attribute inside a type or a group of attributes. -/
def localAttribute? (t : Tag) (children : List Node) : Reading (Option AttributeUse) :=
  attribute? .local t children (inlineType children)

/-- Adds an attribute, or a reference to a group of attributes, to a group of attributes. -/
def addAttributePart (g : AttributeGroup) (e : Tag × List Node) : Reading AttributeGroup := do
  match kind e.1 with
  | "attribute" =>
    return { g with attributes := g.attributes ++ (← localAttribute? e.1 e.2).toList }
  | "attributeGroup" =>
    return { g with groups := g.groups ++ (← attributeReference? e.1 "ref").toList }
  | _ => return g

/-- Reads the first model group among some elements; without one, an empty sequence. -/
def namedGroup : List (Tag × List Node) → Reading ModelGroup
  | [] => return .empty .sequence
  | (t, cs) :: rest =>
    match compositor? t with
    | some c => do
      let o ← occurs t
      return ⟨c, ← particles c cs, o⟩
    | none => namedGroup rest

/-- Reads a declaration at the top of a document, or passes over something else. -/
def declare (e : Tag × List Node) : Reading Unit := do
  let (t, cs) := e
  match kind t with
  | "element" =>
    let _ ← elementDecl? .global t cs (inlineType cs)
  | "complexType" =>
    if let some n ← requiredName? t then
      let ct ← complexParts (newComplexType n t cs) cs
      Components.enterType n (← Components.addType (.complex ct))
  | "simpleType" =>
    if let some n ← requiredName? t then
      let st ← simpleParts (newSimpleType n cs) cs
      Components.enterType n (← Components.addType (.simple st))
  | "attribute" =>
    if let some a ← attribute? .global t cs (inlineType cs) then Components.enterAttribute a
  | "attributeGroup" =>
    if let some n ← requiredName? t then
      Components.enterAttributeGroup n (← (elements cs).foldlM addAttributePart ⟨[], []⟩)
  | "group" =>
    if let some n ← requiredName? t then Components.enterGroup n (← namedGroup (elements cs))
  | _ => return

end Schema
end SchemaAssist
