/-
# Element wildcards

A wildcard admits the elements of some namespaces.  Which ones is a constraint: any namespace, any
but the target namespace and none, those of a list, or all but those of a list.  The empty text
stands for "no namespace".
-/

import SchemaAssist.Distinct
import SchemaAssist.Name
import SchemaAssist.Occurs

namespace SchemaAssist

/-- What is asked of an element that a wildcard admits. -/
inductive Strictness where
  /-- The element must be declared. -/
  | strict
  /-- The element is checked if it is declared. -/
  | lax
  /-- The element is not looked at. -/
  | skip
  deriving DecidableEq, Repr, Inhabited

namespace Strictness

/-- Reads the value of `processContents`. -/
def read? (value : String) : Option Strictness :=
  match Text.trim value with
  | "strict" => some .strict
  | "lax" => some .lax
  | "skip" => some .skip
  | _ => none

/-- The value of `processContents` for a mode. -/
def toString : Strictness → String
  | .strict => "strict"
  | .lax => "lax"
  | .skip => "skip"

theorem read?_toString (p : Strictness) : read? p.toString = some p := by
  cases p <;> decide

end Strictness

/-- The namespaces that a wildcard admits. -/
inductive Spaces where
  /-- Every namespace, and none. -/
  | any
  /-- Every namespace but the target. -/
  | other (target : Option String)
  /-- The namespaces of a list. -/
  | only (spaces : List String)
  /-- All but the namespaces of a list. -/
  | except (spaces : List String)
  deriving DecidableEq, Repr, Inhabited

namespace Spaces

/-- Whether a namespace, the empty text for none, is admitted. -/
def allows : Spaces → String → Bool
  | .any, _ => true
  | .other target, space => space != "" && target != some space
  | .only spaces, space => spaces.contains space
  | .except spaces, space => !spaces.contains space

/-- Whether two constraints admit a namespace in common.  Two constraints that are no lists leave
out finitely many namespaces each, so only a list needs a search. -/
def overlaps : Spaces → Spaces → Bool
  | .only spaces, b => spaces.any b.allows
  | a, .only spaces => spaces.any a.allows
  | _, _ => true

/-- A word of a list that is no namespace: a keyword out of place. -/
structure Invalid where
  word : String
  key : String
  deriving DecidableEq, Repr

/-- The wording of a refusal. -/
def Invalid.message (e : Invalid) : String := s!"wrong value '{e.word}' in '{e.key}' attribute"

/-- The namespace that a word of a list stands for. -/
def readWord (target : Option String) (key word : String) : Except Invalid String :=
  if word = "##local" then .ok ""
  else if word = "##targetNamespace" then .ok (target.getD "")
  else if "##".isPrefixOf word then .error ⟨word, key⟩
  else .ok word

/-- The namespaces of a list, each once. -/
def readList (target : Option String) (key value : String) :
    Except Invalid (List String) := do
  return distinct (← (Text.words value).mapM (readWord target key))

/-- The constraint that the attribute `namespace` gives. -/
def readNamespace (target : Option String) (value : String) : Except Invalid Spaces :=
  match Text.trim value with
  | "##any" => .ok .any
  | "##other" => .ok (.other target)
  | list => .only <$> readList target "namespace" list

/-- The constraint that the attribute `notNamespace` gives. -/
def readNotNamespace (target : Option String) (value : String) : Except Invalid Spaces :=
  .except <$> readList target "notNamespace" value

end Spaces

/-- A wildcard as a particle of a model group. -/
structure Wildcard where
  spaces : Spaces
  strictness : Strictness
  occurs : Occurs
  deriving DecidableEq, Repr, Inhabited

/-- Whether a wildcard admits an element of the given name. -/
def Wildcard.admits (w : Wildcard) (n : Name) : Bool := w.spaces.allows n.space

end SchemaAssist
