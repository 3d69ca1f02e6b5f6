/-
# Qualified names

The name of an element, a type or an attribute is a local name in a namespace.  The empty text
stands for "no namespace", so that a name without one has a single form.
-/

import SchemaAssist.Text.Cut

namespace SchemaAssist

/-- The namespace of the schema language. -/
def schemaNamespace : String := "http://www.w3.org/2001/XMLSchema"

/-- The later namespace of the schema language, an equal of the first. -/
def schemaNamespace11 : String := "http://www.w3.org/2009/XMLSchema"

/-- The namespace that the prefix `xml` is bound to. -/
def xmlNamespace : String := "http://www.w3.org/XML/1998/namespace"

/-- A local name in a namespace; the empty namespace is none. -/
structure Name where
  space : String
  localName : String
  deriving DecidableEq, Repr, Inhabited

namespace Name

/-- A name without a namespace. -/
def unqualified (localName : String) : Name := ⟨"", localName⟩

/-- The namespace of a name, if it has one. -/
def space? (n : Name) : Option String := if n.space = "" then none else some n.space

/-- Whether a name is in the given namespace, where the empty text and `none` are no namespace. -/
def isIn (n : Name) (space : Option String) : Bool := n.space == space.getD ""

/-- A name in a namespace is written with its namespace in braces. -/
def toString (n : Name) : String :=
  if n.space = "" then n.localName else "\x7b" ++ n.space ++ "\x7d" ++ n.localName

instance : ToString Name := ⟨Name.toString⟩

/-- Reads the written form: braces at the start hold the namespace. -/
def ofString (s : String) : Name :=
  match s.toList with
  | '\x7b' :: cs =>
    match Text.cutList '\x7d' cs with
    | some (space, localName) => ⟨String.ofList space, String.ofList localName⟩
    | none => unqualified s
  | _ => unqualified s

/-- Names are ordered by namespace and then by local name; no namespace comes first. -/
def le (a b : Name) : Bool := a.space < b.space || (a.space == b.space && a.localName ≤ b.localName)

end Name
end SchemaAssist
