/-
# Expansion of model groups

References to elements and to named groups inside a model group are replaced by what they name.  A
reference that names nothing, or that leads back into a group around it, is left out.
-/

import SchemaAssist.Schema.Components

namespace SchemaAssist
namespace Components

/-- The particles of a group without references, and what was wrong with them.  `room` is the number
of groups that may still be nested, and `around` the names of the groups around. -/
def expandParticles (c : Components) : (room : Nat) → (around : List Name) → List Particle →
    List Particle × List Fault
  | 0, _, _ => ([], [.modelDepth (.modelDepth (c.limits.modelDepth + 1) c.limits.modelDepth)])
  | room + 1, around, ps =>
    let expanded : List (Option Particle × List Fault) := ps.map fun
      | .elementRef n o =>
        match c.globalElements.find? n with
        | some d => (some (.element d o), [])
        | none => (none, [.unknownElement n])
      | .groupRef n o =>
        if n ∈ around then (none, [.circularGroup n])
        else match c.groups.find? n with
          | some g =>
            let (qs, faults) := expandParticles c room (n :: around) g.particles
            (some (.group g.compositor qs o), faults)
          | none => (none, [.unknownGroup n])
      | .group k qs o =>
        let (qs, faults) := expandParticles c room around qs
        (some (.group k qs o), faults)
      | p => (some p, [])
    (expanded.filterMap (·.1), expanded.flatMap (·.2))

/-- A model group without references, and what was wrong with it. -/
def expandGroup (c : Components) (g : ModelGroup) : ModelGroup × List Fault :=
  let (ps, faults) := c.expandParticles c.limits.modelDepth [] g.particles
  ({ g with particles := ps }, faults)

end Components

/-- A sequence of nothing but one group, once, is that group. -/
def ModelGroup.unwrap (g : ModelGroup) : ModelGroup :=
  match g with
  | ⟨.sequence, [.group c ps o], ⟨1, some 1⟩⟩ => ⟨c, ps, o⟩
  | g => g

namespace Components

/-- A type without references in its model group, and what was wrong with it. -/
def expandType (c : Components) : TypeDef → TypeDef × List Fault
  | .complex ct =>
    match ct.content with
    | .group g =>
      let (g, faults) := c.expandGroup g
      (.complex { ct with content := .group g.unwrap }, faults)
    | _ => (.complex ct, [])
  | .simple st => (.simple st, [])

/-- Expands the model groups of all types. -/
def expandTypes : Building Unit := modify fun c =>
  let expanded := c.types.map c.expandType
  { c with
    types := expanded.map (·.1)
    problems := c.problems ++ (expanded.toList.flatMap (·.2)).map Fault.problem }

end Components
end SchemaAssist
