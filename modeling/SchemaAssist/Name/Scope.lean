/-
# Prefixes in scope

What a prefix stands for at a place in a document: the declarations `xmlns:p` and `xmlns` around it,
an inner one hiding an outer one.  The prefix `xml` is bound from the start.
-/

import SchemaAssist.Name

namespace SchemaAssist

/-- The declarations in scope, the innermost first: a prefix, or `none` for the default namespace,
and what it stands for.  An empty default namespace is none. -/
structure Scope where
  bindings : List (Option String × String)
  deriving Inhabited

namespace Scope

/-- Nothing is declared. -/
def empty : Scope := ⟨[]⟩

/-- Enters a declaration in front of those there are. -/
def bind (scope : Scope) (pre : Option String) (space : String) : Scope :=
  ⟨(pre, space) :: scope.bindings⟩

/-- The namespace that a prefix is declared to stand for. -/
def find? (scope : Scope) (pre : String) : Option String := scope.bindings.lookup (some pre)

/-- The default namespace, empty for none. -/
def default (scope : Scope) : String := (scope.bindings.lookup none).getD ""

/-- The default namespace, if there is one. -/
def default? (scope : Scope) : Option String :=
  if scope.default = "" then none else some scope.default

/-- What an attribute declares, if it is a declaration: `xmlns` the default namespace, `xmlns:p` the
prefix `p`. -/
def declared? (key : String) : Option (Option String) :=
  if key = "xmlns" then some none
  else (Text.dropLead "xmlns:".toList key.toList).map fun pre => some (String.ofList pre)

/-- Enters the declaration that an attribute makes; `none` if it makes none. -/
def declare? (scope : Scope) (key value : String) : Option Scope :=
  (declared? key).map fun pre => scope.bind pre value

/-- The scope after an attribute: with its declaration, if it makes one. -/
def declare (scope : Scope) (key value : String) : Scope :=
  (scope.declare? key value).getD scope

/-- The namespace of a prefix: as declared, and for `xml` the XML namespace otherwise. -/
def spaceOf? (scope : Scope) (pre : String) : Option String :=
  (scope.find? pre).or (if pre = "xml" then some xmlNamespace else none)

/-- The name that a written name stands for; a prefix without a declaration is the error. -/
def resolve (scope : Scope) (written : String) : Except String Name :=
  match Text.cut ':' written with
  | some (pre, localName) =>
    match scope.spaceOf? pre with
    | some space => .ok ⟨space, localName⟩
    | none => .error pre
  | none => .ok ⟨scope.default, written⟩

end Scope
end SchemaAssist
