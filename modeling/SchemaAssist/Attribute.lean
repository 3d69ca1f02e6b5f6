/-
# Attribute uses

The attributes of a type are a list of uses, at most one for a name.  Uses declared later replace
inherited ones of the same name, and a prohibited use takes the attribute away (`mergeAttributes`).
-/

import SchemaAssist.ModelGroup

namespace SchemaAssist

/-- Whether an attribute has to be, may be or must not be there. -/
inductive Use where
  | required
  | optional
  | prohibited
  deriving DecidableEq, Repr, Inhabited

namespace Use

/-- Reads the value of `use`. -/
def read? (value : String) : Option Use :=
  match Text.trim value with
  | "required" => some .required
  | "optional" => some .optional
  | "prohibited" => some .prohibited
  | _ => none

/-- The value of `use`. -/
def toString : Use → String
  | .required => "required"
  | .optional => "optional"
  | .prohibited => "prohibited"

theorem read?_toString (u : Use) : read? u.toString = some u := by cases u <;> decide

end Use

/-- Whether local declarations are in the target namespace. -/
inductive Form where
  | qualified
  | unqualified
  deriving DecidableEq, Repr, Inhabited

namespace Form

/-- Reads the value of `form` and of the defaults for it. -/
def read? (value : String) : Option Form :=
  match Text.trim value with
  | "qualified" => some .qualified
  | "unqualified" => some .unqualified
  | _ => none

/-- The value of `form`. -/
def toString : Form → String
  | .qualified => "qualified"
  | .unqualified => "unqualified"

end Form

/-- How a declaration says what its type is. -/
inductive TypeRef where
  /-- By a name. -/
  | named (name : Name)
  /-- By its place in the table of types: a definition inside the declaration, or a name that has
  been looked up. -/
  | definition (id : TypeId)
  /-- Not at all. -/
  | unspecified
  deriving DecidableEq, Repr, Inhabited

/-- The use of an attribute by a type, or a global attribute. -/
structure AttributeUse where
  name : Name
  typeRef : TypeRef := .unspecified
  /-- The simple type, once it has been looked up. -/
  type? : Option TypeId := none
  use : Use := .optional
  default? : Option String := none
  fixed? : Option String := none
  documentation? : Option String := none
  /-- The global attribute referred to, until it has been looked up. -/
  reference? : Option Name := none
  deriving DecidableEq, Repr, Inhabited

namespace AttributeUse

/-- The attribute has to be there. -/
def required (a : AttributeUse) : Bool := a.use = .required

/-- The attribute must not be there. -/
def prohibited (a : AttributeUse) : Bool := a.use = .prohibited

/-- The uses of all names but one. -/
def without (uses : List AttributeUse) (name : Name) : List AttributeUse :=
  uses.filter (·.name ≠ name)

/-- The uses after one more: it replaces those of its name, and goes itself if it is prohibited. -/
def override (uses : List AttributeUse) (a : AttributeUse) : List AttributeUse :=
  if a.prohibited then without uses a.name else without uses a.name ++ [a]

end AttributeUse

/-- The uses of a base with those declared over it, in order. -/
def mergeAttributes (base own : List AttributeUse) : List AttributeUse :=
  own.foldl AttributeUse.override base

theorem mergeAttributes_append (base xs ys : List AttributeUse) :
    mergeAttributes base (xs ++ ys) = mergeAttributes (mergeAttributes base xs) ys :=
  List.foldl_append

/-- Attribute uses under a name, for types to refer to. -/
structure AttributeGroup where
  attributes : List AttributeUse
  /-- The groups that this one refers to. -/
  groups : List Name
  deriving DecidableEq, Repr, Inhabited

end SchemaAssist
