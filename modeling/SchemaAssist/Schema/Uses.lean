/-
# Attributes of a type

The attributes of a type come from the groups of attributes that it refers to and from its own uses,
which go before them; a reference to a global attribute takes on what that declares.
-/

import SchemaAssist.Schema.Components

namespace SchemaAssist
namespace Components

/-- The uses that some groups of attributes give, and what was wrong with the references.  Later
groups go before earlier ones, and a group before those that it refers to.  `room` is the number of
groups that may be nested, and `around` the names of the groups around. -/
def groupUses (groups : NameTable AttributeGroup) : (room : Nat) → (around : List Name) →
    List Name → List AttributeUse × List Fault
  | 0, _, _ => ([], [])
  | room + 1, around, refs =>
    refs.foldl (fun (uses, faults) n =>
      if n ∈ around then (uses, faults ++ [.circularAttributeGroup n])
      else match groups.find? n with
        | none => (uses, faults ++ [.unknownAttributeGroup n])
        | some g =>
          let (nested, more) := groupUses groups room (n :: around) g.groups
          (mergeAttributes (mergeAttributes uses nested) g.attributes, faults ++ more)) ([], [])

/-- The uses that some groups of attributes give; groups nest at most as deep as there are
groups. -/
def usesOfGroups (c : Components) (refs : List Name) : List AttributeUse × List Fault :=
  groupUses c.attributeGroups (c.attributeGroups.entries.length + 1) [] refs

/-- The uses of a type before its base is looked at: prohibited ones are kept. -/
def ownUses (inherited own : List AttributeUse) : List AttributeUse :=
  own.foldl (fun uses a => AttributeUse.without uses a.name ++ [a]) inherited

end Components

/-- The use of a global attribute: a default or a fixed value of the use goes before those of the
declaration. -/
def AttributeUse.declaredBy (a declaration : AttributeUse) : AttributeUse :=
  let plain := a.default?.isNone && a.fixed?.isNone
  { a with
    reference? := none
    name := declaration.name
    typeRef := declaration.typeRef
    documentation? := a.documentation?.or declaration.documentation?
    default? := if plain then declaration.default? else a.default?
    fixed? := if plain then declaration.fixed? else a.fixed? }

namespace Components

/-- A use that stands for itself, not for a global attribute. -/
def dereference (a : AttributeUse) : Building AttributeUse := do
  match a.reference? with
  | none => return a
  | some n =>
    match (← get).globalAttributes.find? n with
    | some declaration => return a.declaredBy declaration
    | none =>
      report (.unknownAttribute n)
      return { a with reference? := none }

/-- Looks up a use and its type. -/
def resolveUse (a : AttributeUse) : Building AttributeUse := do
  let a ← dereference a
  return { a with type? := ← typeOf? a.typeRef (.attribute a.name) }

/-- The uses of a type, looked up. -/
def resolveUses (own : List AttributeUse) (groups : List Name) : Building (List AttributeUse) := do
  let (inherited, faults) := (← get).usesOfGroups groups
  faults.forM report
  (ownUses inherited own).mapM resolveUse

end Components
end SchemaAssist
