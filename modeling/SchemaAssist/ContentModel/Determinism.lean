/-
# Unique attribution

A content model must let a reader attribute each element to one leaf without looking ahead.  The
check compares, at every place where two leaves could come next, what the two match.  The later
version of the schema language lets an element take precedence over a wildcard, so there the two do
not compete.
-/

import SchemaAssist.ContentModel.Tree

namespace SchemaAssist

/-- The version of the schema language. -/
inductive Version where
  | v10
  | v11
  deriving DecidableEq, Repr, Inhabited

namespace Version

/-- The number of a version. -/
def toString : Version → String
  | .v10 => "1.0"
  | .v11 => "1.1"

/-- Reads a version number; the text is handed back if it is none. -/
def read (value : String) : Except String Version :=
  match Text.trim value with
  | "1.0" => .ok .v10
  | "1.1" => .ok .v11
  | _ => .error value

end Version

namespace ContentModel

/-- What a leaf matches. -/
inductive Matcher where
  | names (accepts : List Name)
  | spaces (spaces : Spaces)
  deriving DecidableEq, Repr, Inhabited

/-- A leaf and what it matches. -/
structure Symbol where
  leaf : Nat
  matcher : Matcher
  deriving DecidableEq, Repr, Inhabited

namespace Matcher

/-- Whether an element of the name is matched. -/
def matchesName : Matcher → Name → Bool
  | names accepts, n => accepts.contains n
  | spaces s, n => s.allows n.space

/-- How a matcher is called in messages: by its first name. -/
def describe : Matcher → String
  | names accepts => (accepts.head?.map Name.toString).getD ""
  | spaces _ => "xs:any"

/-- Whether two matchers have an element in common that the version does not assign to one. -/
def competes (version : Version) : Matcher → Matcher → Bool
  | names a, names b => a.any b.contains
  | names a, spaces s => version = .v10 && a.any fun n => s.allows n.space
  | spaces s, names a => version = .v10 && a.any fun n => s.allows n.space
  | spaces a, spaces b => a.overlaps b

end Matcher

/-- Whether two leaves are different and compete for an element. -/
def Symbol.competes (version : Version) (x y : Symbol) : Bool :=
  x.leaf != y.leaf && x.matcher.competes version y.matcher

/-- Two leaves of a group that compete. -/
structure Ambiguity where
  left : Matcher
  right : Matcher
  compositor : Compositor
  deriving Repr

/-- The wording of an ambiguity. -/
def Ambiguity.message (a : Ambiguity) : String :=
  let left := a.left.describe
  let right := a.right.describe
  let compositor := a.compositor.toString
  s!"particles '{left}' and '{right}' of a {compositor} both match the same element"

/-- The first competing pair of two lists of leaves, as an ambiguity of a group. -/
def conflict? (version : Version) (compositor : Compositor) (xs ys : List Symbol) :
    Option Ambiguity :=
  xs.findSome? fun x =>
    (ys.find? (x.competes version)).map fun y => ⟨x.matcher, y.matcher, compositor⟩

namespace Node

mutual

/-- The leaves that can start an occurrence of a particle. -/
def firstSymbols : Node → List Symbol
  | element _ leaf _ accepts => [⟨leaf, .names accepts⟩]
  | wildcard _ leaf spaces _ => [⟨leaf, .spaces spaces⟩]
  | group _ .sequence cs => sequenceFirstSymbols cs
  | group _ _ cs => eachFirstSymbols cs

/-- The leaves that can start a sequence. -/
def sequenceFirstSymbols : List Node → List Symbol
  | [] => []
  | c :: cs => c.firstSymbols ++ if c.nullable then sequenceFirstSymbols cs else []

/-- The leaves that can start one of several particles. -/
def eachFirstSymbols : List Node → List Symbol
  | [] => []
  | c :: cs => c.firstSymbols ++ eachFirstSymbols cs

end

mutual

/-- The leaves that one occurrence of a particle can go on with where it might as well end. -/
def termEndSymbols : Node → List Symbol
  | group _ .sequence cs => sequenceEndSymbols cs
  | group _ _ cs => eachEndSymbols cs
  | _ => []

/-- The leaves that a sequence can go on with where it might as well end: those of the last particle
that is not nullable, and the first and last ones of all that follow it. -/
def sequenceEndSymbols : List Node → List Symbol
  | [] => []
  | c :: cs =>
    if cs.all nullable then
      (c.termEndSymbols ++ if c.occurs.repeatable then c.firstSymbols else []) ++
        (if c.nullable then c.firstSymbols else []) ++ sequenceEndSymbols cs
    else sequenceEndSymbols cs

/-- The leaves that one of several particles can go on with where it might as well end. -/
def eachEndSymbols : List Node → List Symbol
  | [] => []
  | c :: cs =>
    (c.termEndSymbols ++ if c.occurs.repeatable then c.firstSymbols else []) ++ eachEndSymbols cs

end

/-- The leaves that a particle can go on with, in this or a further occurrence, where it might as
well end. -/
def endSymbols (n : Node) : List Symbol :=
  n.termEndSymbols ++ if n.occurs.repeatable then n.firstSymbols else []

/-- A leaf that the end of a particle can go on with against the leaves that start what follows, up
to the first particle that cannot be left out. -/
def followConflict? (version : Version) (tail : List Symbol) : List Node → Option Ambiguity
  | [] => none
  | c :: cs =>
    match conflict? version .sequence tail c.firstSymbols with
    | some a => some a
    | none => if c.nullable then followConflict? version tail cs else none

/-- The first conflict between the end of a particle of a sequence and what follows it. -/
def sequenceConflict? (version : Version) : List Node → Option Ambiguity
  | [] => none
  | c :: cs => (followConflict? version c.endSymbols cs).or (sequenceConflict? version cs)

/-- The first conflict between the starts of two particles. -/
def startConflict? (version : Version) (compositor : Compositor) : List Node → Option Ambiguity
  | [] => none
  | c :: cs =>
    (cs.findSome? fun d => conflict? version compositor c.firstSymbols d.firstSymbols).or
      (startConflict? version compositor cs)

/-- The first conflict between the particles of a group. -/
def siblingConflict? (version : Version) (compositor : Compositor) (cs : List Node) :
    Option Ambiguity :=
  match compositor with
  | .sequence => sequenceConflict? version cs
  | _ => startConflict? version compositor cs

mutual

/-- The first ambiguity of a tree: between the particles of a group, then between the end of a group
that may repeat and its start, then inside its particles. -/
def ambiguity? (version : Version) : Node → Option Ambiguity
  | n@(group o compositor cs) =>
    (siblingConflict? version compositor cs).or <|
      (if o.repeatable then conflict? version compositor n.termEndSymbols n.firstSymbols
        else none).or
      (ambiguityIn? version cs)
  | _ => none

/-- The first ambiguity of several trees. -/
def ambiguityIn? (version : Version) : List Node → Option Ambiguity
  | [] => none
  | c :: cs => (ambiguity? version c).or (ambiguityIn? version cs)

end

end Node
end ContentModel
end SchemaAssist
