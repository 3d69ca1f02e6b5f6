/-
# Following references

The documents of a grammar are those asked for and those that they refer to, at any distance up to a
limit.  They are added level by level, each location once.  A document asked for must be there; one
that is only referred to may be missing, which is recorded.
-/

import SchemaAssist.Grammar.Build
import SchemaAssist.Loading.Resource
import SchemaAssist.Schema.Document

namespace SchemaAssist

open Schema (Reference)

/-- A document to be added, with the namespace of the document that includes it. -/
structure Pending where
  location : Location
  including? : Option String := none
  deriving Repr, Inhabited

/-- Documents on the way to a grammar: the components so far, and the locations met. -/
structure Gathering where
  components : Components
  met : List Location.Key := []
  deriving Inhabited

namespace Gathering

/-- Changes the components. -/
def build {α : Type} (g : Gathering) (step : Building α) : α × Gathering :=
  let (a, components) := step.run g.components
  (a, { g with components })

/-- Records that a document is left out. -/
def leaveOut (g : Gathering) (l : Location) (e : LoadError) : Gathering :=
  let problem : Problem := { fault := .notLoaded e, source? := some l.toString }
  (g.build (Components.record problem)).2

/-- Whether a location has been met, and the gathering that has met it. -/
def meet (g : Gathering) (l : Location) : Bool × Gathering :=
  if l.key ∈ g.met then (true, g) else (false, { g with met := l.key :: g.met })

/-- The documents that references of a document lead to; a location that leads nowhere is recorded,
and a reference without one is passed over. -/
def resolve (base : Location) (g : Gathering) : List Reference → List Pending × Gathering
  | [] => ([], g)
  | r :: rs =>
    match r.location? with
    | none => resolve base g rs
    | some reference =>
      match base.resolve reference with
      | .ok location =>
        let including? := if r.kind = .imported then none else r.referringSpace?
        let (pending, g) := resolve base g rs
        (⟨location, including?⟩ :: pending, g)
      | .error e =>
        resolve base (g.build (Components.report (.notResolved reference e))).2 rs

variable {m : Type → Type} [Monad m] (readFile : ReadFile m)

/-- Loads a document and adds it: what it refers to. -/
def addDocument (g : Gathering) (p : Pending) :
    m (Except LoadError (List Pending) × Gathering) := do
  match ← p.location.load readFile g.components.limits with
  | .error e => return (.error e, g)
  | .ok text =>
    match g.build (Components.addDocument text p.location p.including?) with
    | (.error e, g) => return (.error e, g)
    | (.ok references, g) =>
      let (pending, g) := g.resolve p.location references
      return (.ok pending, g)

/-- Adds the documents asked for: what they refer to.  The first failure is one of the whole. -/
def addRequested (g : Gathering) : List Pending → m (Except LoadError (List Pending × Gathering))
  | [] => return .ok ([], g)
  | p :: ps => do
    let (met, g) := g.meet p.location
    if met then addRequested g ps
    else
      match ← g.addDocument readFile p with
      | (.error e, _) => return .error e
      | (.ok next, g) =>
        match ← addRequested g ps with
        | .error e => return .error e
        | .ok (more, g) => return .ok (next ++ more, g)

/-- Adds documents that are referred to: what they refer to.  A failure is recorded. -/
def addReferred (g : Gathering) : List Pending → m (List Pending × Gathering)
  | [] => return ([], g)
  | p :: ps => do
    let (met, g) := g.meet p.location
    if met then addReferred g ps
    else
      match ← g.addDocument readFile p with
      | (.error e, g) => addReferred (g.leaveOut p.location e) ps
      | (.ok next, g) =>
        let (more, g) ← addReferred g ps
        return (next ++ more, g)

/-- Leaves out documents that are too many references away. -/
def leaveOutAll (e : LoadError) (g : Gathering) : List Pending → Gathering
  | [] => g
  | p :: ps =>
    let (met, g) := g.meet p.location
    leaveOutAll e (if met then g else g.leaveOut p.location e) ps

/-- Adds documents and all that they refer to, `room` being the number of levels that may still be
added. -/
def addLevels : (room : Nat) → Gathering → List Pending → m Gathering
  | _, g, [] => return g
  | 0, g, ps =>
    let limit := g.components.limits.schemaDepth
    return leaveOutAll (.limit (.schemaDepth (limit + 1) limit)) g ps
  | room + 1, g, p :: ps => do
    let (next, g) ← g.addReferred readFile (p :: ps)
    addLevels room g next

end Gathering

/-- Loads the grammar of some documents. -/
def Grammar.load {m : Type → Type} [Monad m] (readFile : ReadFile m) (limits : Limits)
    (version : Version) (locations : List Location) : m (Except LoadError Grammar) := do
  if locations.isEmpty then return .error .noLocation
  let start : Gathering := { components := .empty version limits }
  match ← start.addRequested readFile (locations.map ({ location := · })) with
  | .error e => return .error e
  | .ok (next, g) =>
    let g ← g.addLevels readFile limits.schemaDepth next
    return g.components.build

end SchemaAssist
