/-
# Grammars

A grammar is what the documents of a schema declare, with every reference looked up and a content
model for every type that has a model group.
-/

import SchemaAssist.Schema.Substitution

namespace SchemaAssist

/-- The content model of a type. -/
inductive ModelSlot where
  | compiled (automaton : ContentModel.Automaton)
  /-- The type has no model group. -/
  | absent
  /-- The model group has no content model. -/
  | refused (refusal : ContentModel.Refusal)
  deriving Inhabited

/-- The declarations of a schema, ready for questions. -/
structure Grammar where
  version : Version
  /-- The target namespace of the first document. -/
  target? : Option String
  locations : Array Location
  elements : Array ElementDecl
  types : Array TypeDef
  globalElements : NameTable ElementId
  globalTypes : NameTable TypeId
  substitutions : Substitutions
  /-- The content models, by the places of the types. -/
  models : Array ModelSlot
  problems : Array Problem
  deriving Inhabited

namespace Grammar

/-- The declaration of an element. -/
def element? (g : Grammar) (d : ElementId) : Option ElementDecl := g.elements[d.index]?

/-- The definition of a type. -/
def type? (g : Grammar) (t : TypeId) : Option TypeDef := g.types[t.index]?

/-- The content model of a type; a type that does not exist has none. -/
def model (g : Grammar) (t : TypeId) : ModelSlot := g.models[t.index]?.getD .absent

/-- The automaton of a type that has one. -/
def automaton? (g : Grammar) (t : TypeId) : Option ContentModel.Automaton :=
  match g.model t with
  | .compiled m => some m
  | _ => none

/-- How a type is called in messages. -/
def typeLabel (g : Grammar) (t : TypeId) : String :=
  match g.type? t with
  | some d => d.label
  | none => s!"<unknown type {t.index}>"

/-- The direct members of the substitution group of an element. -/
def members (g : Grammar) (d : ElementId) : List ElementId := g.substitutions.members d

/-- The members of the substitution group of an element at any distance, but not itself. -/
def allMembers (g : Grammar) (d : ElementId) : List ElementId := g.substitutions.expansion d

/-- The global elements, in the order of their declarations. -/
def globals (g : Grammar) : List ElementId := g.globalElements.values

/-- The document that declares an element. -/
def locationOf? (g : Grammar) (d : ElementId) : Option Location := do
  g.locations[(← g.element? d).document]?

/-- The attributes of a type. -/
def attributesOf (g : Grammar) (t : TypeId) : List AttributeUse :=
  (((g.type? t).bind TypeDef.complex?).map (·.attributes)).getD []

/-- The model group of a type that has one. -/
def groupOf? (g : Grammar) (t : TypeId) : Option ModelGroup := (g.type? t).bind TypeDef.group?

/-- The elements that may stand in a type somewhere: those of its model group, each with its direct
members, and all global elements if there is a wildcard. -/
def staticChildren (g : Grammar) (t : TypeId) : List ElementId :=
  match g.groupOf? t with
  | none => []
  | some group =>
    let declared := distinct (group.elements.flatMap fun d => d :: g.members d)
    if group.wildcards.isEmpty then declared else addAllNew declared g.globals

/-- The values listed by a type or else by the types that it comes from, at most `room` types away
in all. -/
def enumerationWithin (g : Grammar) : (room : Nat) → TypeId → List String
  | 0, _ => []
  | room + 1, t =>
    match g.type? t with
    | none => []
    | some (.simple st) =>
      if !st.enumeration.isEmpty then st.enumeration
      else match st.base? with
        | some base => enumerationWithin g room base
        | none => []
    | some (.complex ct) =>
      match ct.content with
      | .simple (.definition base) => enumerationWithin g room base
      | _ => []

/-- The values listed by a type or else by the types that it comes from.  A longer way than there
are types goes in circles. -/
def enumeration (g : Grammar) (t : TypeId) : List String :=
  g.enumerationWithin (g.types.size + 1) t

end Grammar
end SchemaAssist
