/-
# From model groups to content models

A model group without references becomes a tree of countable particles with numbered leaves.  The
tree is refused if groups nest too deep or if elements cannot be attributed to one leaf each.
-/

import SchemaAssist.ContentModel.Candidates
import SchemaAssist.ContentModel.Determinism
import SchemaAssist.Limits

namespace SchemaAssist
namespace ContentModel

/-- Why a model group has no content model. -/
inductive Refusal where
  /-- Two leaves compete for an element. -/
  | ambiguous (ambiguity : Ambiguity)
  /-- An element reference is left. -/
  | elementRef (name : Name)
  /-- A group reference is left. -/
  | groupRef (name : Name)
  /-- A group is nested `depth` deep, which is too deep. -/
  | tooDeep (depth : Nat)
  deriving Repr

/-- The wording of a refusal. -/
def Refusal.message : Refusal → String
  | ambiguous a => s!"ambiguous content model: {a.message}"
  | elementRef n => s!"malformed content model: unresolved element reference '{n}'"
  | groupRef n => s!"malformed content model: unresolved group reference '{n}'"
  | tooDeep depth => s!"model depth {depth} exceeds the configured maximum"

/-- How a content model is to be treated beyond its tree. -/
inductive Variant where
  | standard
  /-- An unordered group under the rules of the later version. -/
  | unordered11
  deriving DecidableEq, Repr, Inhabited

/-- A compiled content model. -/
structure Automaton where
  root : Node
  variant : Variant
  deriving Inhabited

mutual

/-- The trees of the particles of a group at the given depth, and the number of leaves so far.
Particles that may never occur are left out before they are looked at. -/
def buildNodes (accepts : ElementId → List Name) (limits : Limits) (depth : Nat) :
    List Particle → Nat → Except Refusal (List Node × Nat)
  | [], leaves => .ok ([], leaves)
  | p :: ps, leaves =>
    if p.occurs.never then buildNodes accepts limits depth ps leaves
    else do
      let (node, leaves) ← buildNode accepts limits depth p leaves
      let (nodes, leaves) ← buildNodes accepts limits depth ps leaves
      return (node :: nodes, leaves)

/-- The tree of one particle of a group at the given depth, and the number of leaves so far. -/
def buildNode (accepts : ElementId → List Name) (limits : Limits) (depth : Nat) :
    Particle → Nat → Except Refusal (Node × Nat)
  | .element d o, leaves => .ok (.element o (leaves + 1) d (accepts d), leaves + 1)
  | .any w, leaves => .ok (.wildcard w.occurs (leaves + 1) w.spaces w.strictness, leaves + 1)
  | .group c ps o, leaves =>
    match limits.checkModelDepth (depth + 1) with
    | .error _ => .error (.tooDeep (depth + 1))
    | .ok () => do
      let (nodes, leaves) ← buildNodes accepts limits (depth + 1) ps leaves
      return (.group o c nodes, leaves)
  | .elementRef n _, _ => .error (.elementRef n)
  | .groupRef n _, _ => .error (.groupRef n)

end

namespace Automaton

/-- The variant of a model group. -/
def variantOf (version : Version) : Compositor → Variant
  | .all => if version = .v11 then .unordered11 else .standard
  | _ => .standard

/-- Compiles a model group; `accepts` gives the names that an element declaration matches. -/
def compile (g : ModelGroup) (accepts : ElementId → List Name) (version : Version)
    (limits : Limits) : Except Refusal Automaton := do
  let (root, _) ← buildNode accepts limits 0 g.toParticle 0
  match root.ambiguity? version with
  | some a => .error (.ambiguous a)
  | none => .ok ⟨root, variantOf version g.compositor⟩

/-- The progress before the first element. -/
def start (_ : Automaton) : Progress := .fresh

/-- The progress after one more element and the term that matched it; `none` if it does not fit. -/
def step (m : Automaton) (st : Progress) (name : Name) : Option (Progress × Term) :=
  m.root.step name st

/-- Whether the content may end. -/
def accepting (m : Automaton) (st : Progress) : Bool := m.root.canEnd st

/-- The terms that may come next, each once. -/
def candidates (m : Automaton) (st : Progress) : List Term := m.root.candidates st

/-- The leaves without an upper bound at the top of an unordered group of the later version. -/
def unboundedMembers (m : Automaton) : List Term :=
  match m.variant, m.root with
  | .unordered11, .group _ _ cs => (cs.filter (·.occurs.unbounded)).filterMap Node.leafTerm?
  | _, _ => []

end Automaton
end ContentModel
end SchemaAssist
