/-
# What may come next

The terms that a content model can take at a point: those inside the occurrence under way, then
those that start a further one.
-/

import SchemaAssist.ContentModel.Progress

namespace SchemaAssist
namespace ContentModel
namespace Node

mutual

/-- The terms that can start an occurrence of a particle. -/
def firstTerms : Node → List Term
  | element _ _ d _ => [.element d]
  | wildcard _ _ _ p => [.wildcard p]
  | group _ .sequence cs => sequenceFirstTerms cs
  | group _ _ cs => eachFirstTerms cs

/-- A sequence starts with a particle all of whose predecessors may be left out. -/
def sequenceFirstTerms : List Node → List Term
  | [] => []
  | c :: cs =>
    (if c.canStart .fresh then c.firstTerms else []) ++
      if c.nullable then sequenceFirstTerms cs else []

/-- A choice or an unordered group starts with any of its particles. -/
def eachFirstTerms : List Node → List Term
  | [] => []
  | c :: cs => (if c.canStart .fresh then c.firstTerms else []) ++ eachFirstTerms cs

end

mutual

/-- The terms that a particle can take next, repeats included. -/
def nextTerms : Node → Progress → List Term
  | n@(group _ _ cs), st =>
    (match st with
      | .leaf _ => []
      | .sequence _ i cur => sequenceNextTerms cs i cur
      | .choice _ i cur => branchNextTerms cs i cur
      | .all _ sts => allNextTerms cs sts) ++
      if n.canStart st then n.firstTerms else []
  | n, st => if n.canStart st then n.firstTerms else []

/-- The terms of the current particle of a sequence and, where it may end, those that start what
follows. -/
def sequenceNextTerms : List Node → Nat → Progress → List Term
  | [], _, _ => []
  | c :: cs, 0, st =>
    nextTerms c st ++ if c.mayEnd st.count (c.complete st) then sequenceFirstTerms cs else []
  | _ :: cs, i + 1, st => sequenceNextTerms cs i st

/-- The terms of the particle that a choice has taken. -/
def branchNextTerms : List Node → Nat → Progress → List Term
  | [], _, _ => []
  | c :: _, 0, st => nextTerms c st
  | _ :: cs, i + 1, st => branchNextTerms cs i st

/-- The terms of all particles of an unordered group. -/
def allNextTerms : List Node → List Progress → List Term
  | c :: cs, st :: sts => nextTerms c st ++ allNextTerms cs sts
  | _, _ => []

end

/-- The terms that a particle can take next, each once, in order of first occurrence. -/
def candidates (n : Node) (st : Progress) : List Term := distinct (nextTerms n st)

end Node
end ContentModel
end SchemaAssist
