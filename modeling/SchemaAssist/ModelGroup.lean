/-
# Model groups

The content of an element is described by a tree of particles: elements, wildcards and groups, each
with bounds on its occurrences.  A group is a sequence, a choice or an unordered list of particles.
References by name stand in the tree until they are resolved.
-/

import SchemaAssist.Wildcard

namespace SchemaAssist

/-- The place of an element declaration in the table of declarations. -/
structure ElementId where
  index : Nat
  deriving DecidableEq, Repr, Inhabited

/-- The place of a type definition in the table of types. -/
structure TypeId where
  index : Nat
  deriving DecidableEq, Repr, Inhabited

/-- How a group combines its particles. -/
inductive Compositor where
  /-- One after the other. -/
  | sequence
  /-- Exactly one of them. -/
  | choice
  /-- All of them, in any order. -/
  | all
  deriving DecidableEq, Repr, Inhabited

namespace Compositor

/-- The compositor that an element of the schema language denotes. -/
def ofTag? : String → Option Compositor
  | "sequence" => some .sequence
  | "choice" => some .choice
  | "all" => some .all
  | _ => none

/-- The element of the schema language that denotes a compositor. -/
def toString : Compositor → String
  | .sequence => "sequence"
  | .choice => "choice"
  | .all => "all"

theorem ofTag?_toString (c : Compositor) : ofTag? c.toString = some c := by cases c <;> rfl

end Compositor

/-- A node of a particle tree. -/
inductive Particle where
  /-- An element declaration. -/
  | element (decl : ElementId) (occurs : Occurs)
  /-- A wildcard, with its bounds. -/
  | any (wildcard : Wildcard)
  /-- A nested group. -/
  | group (compositor : Compositor) (particles : List Particle) (occurs : Occurs)
  /-- A reference to a global element. -/
  | elementRef (name : Name) (occurs : Occurs)
  /-- A reference to a named group. -/
  | groupRef (name : Name) (occurs : Occurs)
  deriving Repr, Inhabited

/-- A group with its bounds: the root of a particle tree. -/
structure ModelGroup where
  compositor : Compositor
  particles : List Particle
  occurs : Occurs
  deriving Repr, Inhabited

namespace Particle

/-- The bounds of a particle. -/
def occurs : Particle → Occurs
  | element _ o => o
  | any w => w.occurs
  | group _ _ o => o
  | elementRef _ o => o
  | groupRef _ o => o

mutual

/-- Whether a particle matches the empty list of elements, by its bounds or by those inside. -/
def emptiable : Particle → Bool
  | group c ps o => o.emptiable || contentEmptiable c ps
  | p => p.occurs.emptiable

/-- Whether the particles of a group match the empty list; a choice of nothing does. -/
def contentEmptiable : Compositor → List Particle → Bool
  | .choice, ps => ps.isEmpty || anyEmptiable ps
  | _, ps => allEmptiable ps

/-- Whether some particle matches the empty list. -/
def anyEmptiable : List Particle → Bool
  | [] => false
  | p :: ps => p.emptiable || anyEmptiable ps

/-- Whether every particle matches the empty list. -/
def allEmptiable : List Particle → Bool
  | [] => true
  | p :: ps => p.emptiable && allEmptiable ps

end

mutual

/-- The element declarations of a tree, from left to right. -/
def elements : Particle → List ElementId
  | element d _ => [d]
  | group _ ps _ => elementsOf ps
  | _ => []

/-- The element declarations of several trees, from left to right. -/
def elementsOf : List Particle → List ElementId
  | [] => []
  | p :: ps => p.elements ++ elementsOf ps

end

mutual

/-- The wildcards of a tree, from left to right. -/
def wildcards : Particle → List Wildcard
  | any w => [w]
  | group _ ps _ => wildcardsOf ps
  | _ => []

/-- The wildcards of several trees, from left to right. -/
def wildcardsOf : List Particle → List Wildcard
  | [] => []
  | p :: ps => p.wildcards ++ wildcardsOf ps

end

end Particle

namespace ModelGroup

/-- A group without particles, once. -/
def empty (c : Compositor) : ModelGroup := ⟨c, [], .once⟩

/-- A group as a particle of another. -/
def toParticle (g : ModelGroup) : Particle := .group g.compositor g.particles g.occurs

/-- Whether a group matches the empty list of elements. -/
def emptiable (g : ModelGroup) : Bool := g.toParticle.emptiable

/-- The element declarations of a group, each once, in order of first occurrence. -/
def elements (g : ModelGroup) : List ElementId := distinct g.toParticle.elements

/-- The wildcards of a group, in order. -/
def wildcards (g : ModelGroup) : List Wildcard := g.toParticle.wildcards

end ModelGroup

end SchemaAssist
