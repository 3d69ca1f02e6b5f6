/-
# Progress through a content model

How far a list of elements has come is a value shaped like the content model: for each particle the
number of its occurrences so far and, inside the last occurrence of a group, the progress of its
particles.  `Node.step` takes one more element, `Node.canEnd` says whether the list may stop here.
-/

import SchemaAssist.ContentModel.Tree

namespace SchemaAssist
namespace ContentModel

/-- The occurrences of a particle so far, the last one included, and the progress inside it. -/
inductive Progress where
  /-- Nothing is under way inside: the particle is a leaf or has not occurred. -/
  | leaf (count : Nat)
  /-- The sequence is at the particle `index`. -/
  | sequence (count index : Nat) (current : Progress)
  /-- The choice has taken the particle `branch`. -/
  | choice (count branch : Nat) (current : Progress)
  /-- The progress of every particle of an unordered group. -/
  | all (count : Nat) (members : List Progress)
  deriving Inhabited

namespace Progress

/-- No occurrence yet. -/
def fresh : Progress := .leaf 0

/-- The number of occurrences, the one under way included. -/
def count : Progress → Nat
  | leaf n => n
  | sequence n _ _ => n
  | choice n _ _ => n
  | all n _ => n

end Progress

namespace Node

/-- Whether a particle may end after `count` occurrences, given that the last one may end here. -/
def mayEnd (n : Node) (count : Nat) (complete : Bool) : Bool :=
  if count = 0 then n.nullable else complete && (n.occurs.min ≤ count || n.termNullable)

mutual

/-- Whether the occurrence under way may end here; one of a leaf always may. -/
def complete : Node → Progress → Bool
  | group _ _ cs, .sequence _ i st => sequenceCanEnd cs i st
  | group _ _ cs, .choice _ i st => branchCanEnd cs i st
  | group _ _ cs, .all _ sts => allCanEnd cs sts
  | _, _ => true

/-- A sequence may end where its current particle may and all later ones are nullable. -/
def sequenceCanEnd : List Node → Nat → Progress → Bool
  | [], _, _ => true
  | c :: cs, 0, st => c.mayEnd st.count (c.complete st) && allNullable cs
  | _ :: cs, i + 1, st => sequenceCanEnd cs i st

/-- A choice may end where the particle taken may. -/
def branchCanEnd : List Node → Nat → Progress → Bool
  | [], _, _ => true
  | c :: _, 0, st => c.mayEnd st.count (c.complete st)
  | _ :: cs, i + 1, st => branchCanEnd cs i st

/-- An unordered group may end where every particle may. -/
def allCanEnd : List Node → List Progress → Bool
  | c :: cs, st :: sts => c.mayEnd st.count (c.complete st) && allCanEnd cs sts
  | _, _ => true

end

/-- Whether a list of elements that has come this far may stop. -/
def canEnd (n : Node) (st : Progress) : Bool := n.mayEnd st.count (n.complete st)

/-- Whether a further occurrence may start: the bounds leave room for it and the last one may
end. -/
def canStart (n : Node) (st : Progress) : Bool :=
  !n.occurs.full st.count && (st.count = 0 || n.complete st)

/-- Of two matches the one to follow: the first that names an element, else the first. -/
def preferElement {α : Type} : Option (α × Term) → Option (α × Term) → Option (α × Term)
  | none, b => b
  | some a, none => some a
  | some a, some b => if a.2.isElement then some a else if b.2.isElement then some b else some a

mutual

/-- Takes one element: inside the occurrence under way if it fits there, else as the start of a
further occurrence.  The term that matched is told. -/
def step (name : Name) : Node → Progress → Option (Progress × Term)
  | n@(element _ _ d accepts), st =>
    if n.canStart st && accepts.contains name then some (.leaf (st.count + 1), .element d) else none
  | n@(wildcard _ _ spaces strictness), st =>
    if n.canStart st && spaces.allows name.space then
      some (.leaf (st.count + 1), .wildcard strictness)
    else none
  | n@(group _ compositor cs), st =>
    let inside : Option (Progress × Term) := match st with
      | .leaf _ => none
      | .sequence k i cur =>
        (sequenceStep name cs i cur).map fun (i, cur, t) => (.sequence k i cur, t)
      | .choice k i cur => (branchStep name cs i cur).map fun (cur, t) => (.choice k i cur, t)
      | .all k sts => (allStep name cs sts).map fun (sts, t) => (.all k sts, t)
    match inside with
    | some found => some found
    | none =>
      if n.canStart st then
        let k := st.count + 1
        match compositor with
        | .sequence =>
          (sequenceStep name cs 0 .fresh).map fun (i, cur, t) => (.sequence k i cur, t)
        | .choice => (choiceStep name cs).map fun ((i, cur), t) => (.choice k i cur, t)
        | .all => (allStep name cs (cs.map fun _ => .fresh)).map fun (sts, t) => (.all k sts, t)
      else none

/-- A sequence takes an element with its current particle or, where that one may end, with a later
one reached through particles that may be left out. -/
def sequenceStep (name : Name) : List Node → Nat → Progress → Option (Nat × Progress × Term)
  | [], _, _ => none
  | c :: cs, 0, st =>
    match step name c st with
    | some (st, t) => some (0, st, t)
    | none =>
      if c.mayEnd st.count (c.complete st) then
        (sequenceStep name cs 0 .fresh).map fun (i, st, t) => (i + 1, st, t)
      else none
  | _ :: cs, i + 1, st => (sequenceStep name cs i st).map fun (i, st, t) => (i + 1, st, t)

/-- A choice that has been made takes an element with the particle taken. -/
def branchStep (name : Name) : List Node → Nat → Progress → Option (Progress × Term)
  | [], _, _ => none
  | c :: _, 0, st => step name c st
  | _ :: cs, i + 1, st => branchStep name cs i st

/-- A choice is made by an element: a particle that matches it by an element declaration comes
before one that does by a wildcard. -/
def choiceStep (name : Name) : List Node → Option ((Nat × Progress) × Term)
  | [] => none
  | c :: cs =>
    preferElement ((step name c .fresh).map fun (st, t) => ((0, st), t))
      ((choiceStep name cs).map fun ((i, st), t) => ((i + 1, st), t))

/-- An unordered group takes an element with any of its particles, with the same preference. -/
def allStep (name : Name) : List Node → List Progress → Option (List Progress × Term)
  | c :: cs, st :: sts =>
    preferElement ((step name c st).map fun (st, t) => (st :: sts, t))
      ((allStep name cs sts).map fun (sts, t) => (st :: sts, t))
  | _, _ => none

end

end Node
end ContentModel
end SchemaAssist
