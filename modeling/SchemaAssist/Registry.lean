/-
# Registry of grammars

Grammars are kept by the locations asked for and the version, until one of their documents is
declared to have changed.
-/

import SchemaAssist.Loading.Follow
import SchemaAssist.Settings

namespace SchemaAssist

/-- What a grammar is kept by. -/
structure GrammarKey where
  locations : List Location.Key
  version : Version
  deriving DecidableEq

/-- A grammar that is kept, with a number of its own. -/
structure KeptGrammar where
  id : Nat
  grammar : Grammar
  deriving Inhabited

/-- The grammars kept so far. -/
structure Registry where
  limits : Limits := {}
  settings : Settings := {}
  kept : List (GrammarKey × KeptGrammar) := []
  /-- The number of the next grammar. -/
  next : Nat := 0
  deriving Inhabited

namespace Registry

/-- What a grammar asked for now is kept by. -/
def keyOf (r : Registry) (locations : List Location) : GrammarKey :=
  ⟨locations.map Location.key, r.settings.schemaVersion.rules⟩

/-- The registry with one more grammar. -/
def keep (r : Registry) (key : GrammarKey) (g : Grammar) : KeptGrammar × Registry :=
  let k : KeptGrammar := ⟨r.next, g⟩
  (k, { r with kept := r.kept ++ [(key, k)], next := r.next + 1 })

/-- The grammar of some documents: one that is kept, or else one that is loaded and kept. -/
def load {m : Type → Type} [Monad m] (readFile : ReadFile m) (r : Registry)
    (locations : List Location) : m (Except LoadError KeptGrammar × Registry) := do
  let key := r.keyOf locations
  match r.kept.lookup key with
  | some k => return (.ok k, r)
  | none =>
    match ← Grammar.load readFile r.limits key.version locations with
    | .error e => return (.error e, r)
    | .ok g =>
      let (k, r) := r.keep key g
      return (.ok k, r)

/-- Whether a grammar is built from a document at one of some locations. -/
def KeptGrammar.uses (k : KeptGrammar) (locations : List Location) : Bool :=
  k.grammar.locations.any fun l => locations.any l.same

/-- Forgets the grammars built from a document at one of some locations: how many there were. -/
def invalidate (r : Registry) (locations : List Location) : Nat × Registry :=
  let kept := r.kept.filter fun e => !KeptGrammar.uses e.2 locations
  (r.kept.length - kept.length, { r with kept })

/-- Forgets all grammars. -/
def clear (r : Registry) : Registry := { r with kept := [] }

/-- The number of grammars kept. -/
def size (r : Registry) : Nat := r.kept.length

end Registry
end SchemaAssist
