/-
# Trees of countable particles

A content model is a tree like that of a model group, without references and without particles that
may never occur, and with what matching needs at its leaves: a number that tells the leaves apart,
and the names that an element leaf matches.
-/

import SchemaAssist.ModelGroup

namespace SchemaAssist
namespace ContentModel

/-- What a content model can take next: an element declaration, never one that substitutes for it,
or a wildcard. -/
inductive Term where
  | element (decl : ElementId)
  | wildcard (strictness : Strictness)
  deriving DecidableEq, Repr, Inhabited

/-- A term that names an element declaration. -/
def Term.isElement : Term → Bool
  | element _ => true
  | wildcard _ => false

/-- A particle with its bounds; the leaves are numbered from one, from left to right. -/
inductive Node where
  /-- An element leaf: it matches the names of its declaration and of those that substitute for
  it. -/
  | element (occurs : Occurs) (leaf : Nat) (decl : ElementId) (accepts : List Name)
  /-- A wildcard leaf. -/
  | wildcard (occurs : Occurs) (leaf : Nat) (spaces : Spaces) (strictness : Strictness)
  /-- A group of particles. -/
  | group (occurs : Occurs) (compositor : Compositor) (children : List Node)
  deriving Inhabited

namespace Node

/-- The bounds of a particle. -/
def occurs : Node → Occurs
  | element o .. => o
  | wildcard o .. => o
  | group o .. => o

mutual

/-- Whether one occurrence of a particle may be of no elements. -/
def termNullable : Node → Bool
  | group _ .choice cs => cs.isEmpty || anyNullable cs
  | group _ _ cs => allNullable cs
  | _ => false

/-- Whether some particle may be left out or may be of no elements. -/
def anyNullable : List Node → Bool
  | [] => false
  | c :: cs => c.occurs.emptiable || c.termNullable || anyNullable cs

/-- Whether every particle may be left out or may be of no elements. -/
def allNullable : List Node → Bool
  | [] => true
  | c :: cs => (c.occurs.emptiable || c.termNullable) && allNullable cs

end

/-- Whether a particle may be left out or may be of no elements. -/
def nullable (n : Node) : Bool := n.occurs.emptiable || n.termNullable

theorem anyNullable_eq (cs : List Node) : anyNullable cs = cs.any nullable := by
  induction cs with
  | nil => rfl
  | cons c cs ih => rw [anyNullable, ih, List.any_cons, nullable]

theorem allNullable_eq (cs : List Node) : allNullable cs = cs.all nullable := by
  induction cs with
  | nil => rfl
  | cons c cs ih => rw [allNullable, ih, List.all_cons, nullable]

/-- The term of a leaf. -/
def leafTerm? : Node → Option Term
  | element _ _ d _ => some (.element d)
  | wildcard _ _ _ p => some (.wildcard p)
  | group .. => none

end Node
end ContentModel
end SchemaAssist
