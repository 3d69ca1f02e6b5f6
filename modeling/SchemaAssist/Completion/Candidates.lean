/-
# Completion candidates

What may be written next in an element follows from its closed children, replayed through the
content model of its type.  Where that cannot be done, the elements that may stand in the type
somewhere are offered, or nothing after children that do not fit.
-/

import SchemaAssist.Completion.Declaration
import SchemaAssist.Document.Caret
import SchemaAssist.Replay

namespace SchemaAssist

open ContentModel (Term)

/-- The elements offered: certain ones, or any element at all. -/
structure Candidates where
  elements : List Declaration
  anyElement : Bool
  deriving DecidableEq, Repr, Inhabited

namespace Candidates

/-- Nothing is offered. -/
def none : Candidates := ⟨[], false⟩

/-- Any element is offered, and none in particular. -/
def any : Candidates := ⟨[], true⟩

/-- Nothing is offered. -/
def isEmpty (c : Candidates) : Bool := c.elements.isEmpty && !c.anyElement

/-- The names of the elements offered. -/
def names (c : Candidates) : List Name := c.elements.map (·.name)

/-- An element of a name is offered in particular. -/
def contains (c : Candidates) (n : Name) : Bool := c.elements.any (·.name == n)

end Candidates

/-- Why no elements follow from a content model. -/
inductive Unguided where
  /-- The type has no content model. -/
  | unavailable (label : String)
  /-- The children do not fit. -/
  | rejected (rejection : Replayable.Rejection)
  /-- The content model of the type was refused. -/
  | refused (label : String) (refusal : ContentModel.Refusal)
  deriving Repr

/-- The wording of a reason. -/
def Unguided.message : Unguided → String
  | .unavailable label => s!"no content model available for type '{label}'"
  | .rejected r => r.message
  | .refused label refusal =>
    s!"content model of type '{label}' is ambiguous or malformed: {refusal.message}"

namespace Asking

/-- The elements that terms stand for, added to those found.  An element stands for itself and its
direct members, a strict wildcard for all global elements; any other wildcard makes everything else
pointless. -/
def addTerms (g : Grammar) : List Declaration → List Term → Asking Candidates
  | found, [] => return ⟨found, false⟩
  | found, .element d :: terms => do
    addTerms g (addAllNew found (← declarations (d :: g.members d))) terms
  | found, .wildcard .strict :: terms => do addTerms g (addAllNew found (← globals)) terms
  | _, .wildcard _ :: _ => return .any

/-- The elements that may follow closed children in an element of a type, by its content model. -/
def guidedAfter (g : Grammar) (t : TypeId) (closed : List Name) :
    Asking (Except Unguided Candidates) := do
  match g.model t with
  | .compiled m =>
    match m.replayable.nextTerms closed with
    | .ok terms => return .ok (← addTerms g [] terms)
    | .error r => return .error (.rejected r)
  | .refused refusal => return .error (.refused (g.typeLabel t) refusal)
  | .absent => return .error (.unavailable (g.typeLabel t))

/-- The elements that may stand in an element of a type somewhere. -/
def staticCandidates (g : Grammar) (t : TypeId) : Asking Candidates := do
  let wildcards := ((g.groupOf? t).map ModelGroup.wildcards).getD []
  if wildcards.any (·.strictness ≠ .strict) then return .any
  else return ⟨distinct (← declarations (g.staticChildren t)), false⟩

/-- The elements that may follow closed children in an element of a type. -/
def candidatesAfter (g : Grammar) (t : TypeId) (closed : List Name) : Asking Candidates := do
  match ← guidedAfter g t closed with
  | .ok c => return c
  | .error (.rejected _) => return .none
  | .error _ => staticCandidates g t

/-- The elements that may be the root of a document: all global ones. -/
def rootCandidates : Asking Candidates := return ⟨distinct (← globals), false⟩

/-- The declaration that the rest of a path leads to: each step is a child of the one before, or
else a global element. -/
def resolveFrom : Declaration → List Document.Element → Asking (Option Declaration)
  | e, [] => return some e
  | e, step :: steps => do
    let found? ← match ← child? e step.name.localName (some step.name.space) with
      | some c => pure (some c)
      | none => global? step.name
    match found? with
    | some c => resolveFrom c steps
    | none => return none

/-- The declaration of the last element of a path from the root. -/
def resolvePath : List Document.Element → Asking (Option Declaration)
  | [] => return none
  | root :: steps => do
    match ← global? root.name with
    | some e => resolveFrom e steps
    | none => return none

/-- The declaration of the element whose content the caret is in. -/
def declarationAt (root : Option Document.Element) (offset : Nat) : Asking (Option Declaration) :=
  resolvePath (Document.pathAt root offset)

/-- The elements that may be written at the caret. -/
def candidatesAt (g : Grammar) (root : Option Document.Element) (offset : Nat) :
    Asking Candidates := do
  let path := Document.pathAt root offset
  match path.getLast? with
  | none => rootCandidates
  | some parent =>
    match ← resolvePath path with
    | some e => candidatesAfter g e.type (parent.closedBefore offset)
    | none => return .none

end Asking
end SchemaAssist
