/-
# Building a grammar

The components of all documents are put together in steps: model groups, bases of simple types,
complex types, types of elements, substitution groups, content models.  What cannot be looked up is
recorded and left out.
-/

import SchemaAssist.Grammar
import SchemaAssist.Schema.Derivation
import SchemaAssist.Schema.Expansion
import SchemaAssist.Schema.Typing

namespace SchemaAssist
namespace Components

/-- The names that a particle of an element matches: its own and those of all members. -/
def acceptedNames (c : Components) (s : Substitutions) (d : ElementId) : List Name :=
  distinct ((s.closure d).filterMap fun d => c.elements[d.index]?.map (·.name))

/-- A type whose model group holds neither elements nor wildcards has no content. -/
def withoutIdleGroup : TypeDef → TypeDef
  | .complex ct =>
    match ct.content with
    | .group g =>
      if g.elements.isEmpty && g.wildcards.isEmpty then .complex { ct with content := .empty }
      else .complex ct
    | _ => .complex ct
  | .simple st => .simple st

/-- The content model of a type. -/
def compileModel (c : Components) (s : Substitutions) (d : TypeDef) : ModelSlot :=
  match d.group? with
  | none => .absent
  | some g =>
    match ContentModel.Automaton.compile g (c.acceptedNames s) c.version c.limits with
    | .ok m => .compiled m
    | .error refusal => .refused refusal

/-- What is wrong with the content model of a type. -/
def modelFault? (d : TypeDef) : ModelSlot → Option Fault
  | .refused refusal => some (.modelRefused d.label refusal)
  | _ => none

/-- Looks up everything that components refer to. -/
def resolve : Building Unit := do
  expandTypes
  resolveBases
  deriveTypes
  typeElements
  modify fun c => { c with types := c.types.map withoutIdleGroup }
  (← get).headFaults.forM report

/-- The grammar of components whose references have been looked up. -/
def finish (c : Components) : Grammar :=
  let substitutions := c.substitutions
  let models := c.types.map (c.compileModel substitutions)
  let faults := (c.types.toList.zip models.toList).filterMap fun (d, m) => modelFault? d m
  { version := c.version
    target? := c.target?
    locations := c.locations
    elements := c.elements
    types := c.types
    globalElements := c.globalElements
    globalTypes := c.globalTypes
    substitutions
    models
    problems := c.problems ++ faults.map Fault.problem }

/-- Builds the grammar, unless there are too many components. -/
def build (c : Components) : Except LoadError Grammar :=
  match c.limits.checkComponents (c.elements.size + c.types.size) with
  | .error e => .error (.limit e)
  | .ok () => .ok (resolve.run c).2.finish

end Components
end SchemaAssist
