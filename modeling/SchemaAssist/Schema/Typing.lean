/-
# Types of elements

An element has the type that it names or holds.  Without one it has the type of the first of the
elements it may stand in for that has one, and any content failing that.
-/

import SchemaAssist.Schema.Components

namespace SchemaAssist
namespace Components

/-- The declaration of an identifier. -/
def element? (d : ElementId) : Building (Option ElementDecl) := return (← get).elements[d.index]?

/-- Gives a type to an element. -/
def setElementType (d : ElementId) (t : TypeId) : Building Unit :=
  modify fun c => { c with elements := c.elements.modify d.index ({ · with type? := some t }) }

/-- The type of an element, which it is given at the same time; `none` for an element that waits for
this one.  `room` is the number of elements that may still be on the way to a type, and `path` the
elements that wait. -/
def elementType? : (room : Nat) → (path : List ElementId) → ElementId → Building (Option TypeId)
  | 0, _, _ => return none
  | room + 1, path, d => do
    match ← element? d with
    | none => return none
    | some e =>
      if e.type?.isSome then return e.type?
      if d ∈ path then return none
      let found? ←
        if e.typeRef = .unspecified then
          let heads := e.heads.filterMap (← get).globalElements.find?
          heads.findSomeM? (elementType? room (d :: path))
        else typeOf? e.typeRef (.element e.name)
      let t ← match found? with
        | some t => pure t
        | none => builtinType Builtin.anyTypeName
      setElementType d t
      return some t

/-- Gives a type to every element.  Each element is met once on the way to a type, but for the one
that closes a circle. -/
def typeElements : Building Unit := do
  let count := (← get).elements.size
  (List.range count).forM fun i => do
    let _ ← elementType? (count + 1) [] ⟨i⟩

end Components
end SchemaAssist
