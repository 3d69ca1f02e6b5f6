/-
# Declarations in use

Answers name elements by their declarations.  A declaration comes into use when it is first asked
for, and keeps what has been read of it even when the grammar is gone.
-/

import SchemaAssist.Grammar

namespace SchemaAssist

/-- What a declaration says without further reading. -/
structure Declaration where
  id : ElementId
  name : Name
  type : TypeId
  category : Category
  kind : ContentKind
  isAbstract : Bool
  nillable : Bool
  deriving DecidableEq, Repr, Inhabited

/-- An attribute of an element. -/
structure AttributeDecl where
  name : Name
  typeName? : Option Name
  required : Bool
  default? : Option String
  fixed? : Option String
  documentation? : Option String
  enumeration : List String
  deriving DecidableEq, Repr, Inhabited

namespace Declaration

/-- A complex type without content. -/
def isEmpty (e : Declaration) : Bool := e.category = .complex ∧ e.kind = .empty

/-- The declaration of an element of a grammar, if it has a type. -/
def ofGrammar? (g : Grammar) (d : ElementId) : Option Declaration := do
  let e ← g.element? d
  let t ← e.type?
  let definition ← g.type? t
  return {
    id := d
    name := e.name
    type := t
    category := definition.category
    kind := definition.contentKind
    isAbstract := e.isAbstract
    nillable := e.nillable }

/-- The documentation of the element, or else of its type. -/
def documentationIn (e : Declaration) (g : Grammar) : Option String :=
  ((g.element? e.id).bind (·.documentation?)).or ((g.type? e.type).bind (·.documentation?))

/-- The attributes of the element. -/
def attributesIn (e : Declaration) (g : Grammar) : List AttributeDecl :=
  (g.attributesOf e.type).map fun a => {
    name := a.name
    typeName? := (a.type?.bind g.type?).bind TypeDef.name?
    required := a.required
    default? := a.default?
    fixed? := a.fixed?
    documentation? := a.documentation?
    enumeration := (a.type?.map g.enumeration).getD [] }

/-- The values that the simple type of the element lists. -/
def enumerationIn (e : Declaration) (g : Grammar) : List String :=
  if e.category = .simple then g.enumeration e.type else []

end Declaration

/-- What has been read of a declaration. -/
structure Memory where
  documentation? : Option (Option String) := none
  attributes? : Option (List AttributeDecl) := none
  children? : Option (List ElementId) := none
  enumeration? : Option (List String) := none
  deriving Inhabited

/-- A declaration in use, and what has been read of it. -/
structure Wrapper where
  declaration : Declaration
  memory : Memory := {}
  deriving Inhabited

/-- The declarations in use, in the order in which they came into use, and the place of each. -/
structure DeclarationCache where
  wrappers : Array Wrapper := #[]
  places : List (ElementId × Nat) := []
  deriving Inhabited

namespace DeclarationCache

variable {c : DeclarationCache} {g : Grammar}

/-- The place of the declaration of an element, if it is in use. -/
def place? (c : DeclarationCache) (d : ElementId) : Option Nat := c.places.lookup d

/-- Takes the declaration of an element into use, at the next place. -/
def add (c : DeclarationCache) (d : ElementId) (e : Declaration) : DeclarationCache :=
  { wrappers := c.wrappers.push ⟨e, {}⟩, places := (d, c.wrappers.size) :: c.places }

/-- The place of the declaration of an element of a grammar, which comes into use. -/
def get (c : DeclarationCache) (g : Grammar) (d : ElementId) : Option Nat × DeclarationCache :=
  match c.place? d with
  | some i => (some i, c)
  | none =>
    match Declaration.ofGrammar? g d with
    | some e => (some c.wrappers.size, c.add d e)
    | none => (none, c)

/-- Changes what has been read of the declaration at a place. -/
def remember (c : DeclarationCache) (i : Nat) (f : Memory → Memory) : DeclarationCache :=
  { c with wrappers := c.wrappers.modify i fun w => { w with memory := f w.memory } }

/-- What is in use for an element is its declaration in a grammar. -/
def Declares (c : DeclarationCache) (g : Grammar) : Prop :=
  ∀ d i, c.place? d = some i →
    ∃ w, c.wrappers[i]? = some w ∧ Declaration.ofGrammar? g d = some w.declaration

theorem declares_empty (g : Grammar) : Declares {} g := nofun

theorem place?_add (c : DeclarationCache) (d d' : ElementId) (e : Declaration) :
    (c.add d e).place? d' = if d' = d then some c.wrappers.size else c.place? d' := by
  rw [place?, add, List.lookup_cons]
  by_cases hd : d' = d
  · subst hd
    simp
  · rw [if_neg hd, beq_false_of_ne hd]
    rfl

/-- The declaration of an element of a grammar is in use once it has been asked for. -/
theorem get_cases (c : DeclarationCache) (g : Grammar) (d : ElementId) :
    (∃ i, c.place? d = some i ∧ c.get g d = (some i, c)) ∨
      c.place? d = none ∧ ((∃ e, Declaration.ofGrammar? g d = some e ∧
        c.get g d = (some c.wrappers.size, c.add d e)) ∨
          Declaration.ofGrammar? g d = none ∧ c.get g d = (none, c)) := by
  cases hplace : c.place? d with
  | some i => exact Or.inl ⟨i, rfl, by rw [get, hplace]⟩
  | none =>
    cases he : Declaration.ofGrammar? g d with
    | some e => exact Or.inr ⟨rfl, Or.inl ⟨e, rfl, by rw [get, hplace, he]⟩⟩
    | none => exact Or.inr ⟨rfl, Or.inr ⟨rfl, by rw [get, hplace, he]⟩⟩

theorem Declares.add (h : c.Declares g) {d : ElementId} {e : Declaration}
    (he : Declaration.ofGrammar? g d = some e) : (c.add d e).Declares g := by
  intro d' i hi
  rw [place?_add] at hi
  split at hi
  · next hd =>
    subst hd
    obtain rfl := Option.some.inj hi
    exact ⟨⟨e, {}⟩, Array.getElem?_push_size, he⟩
  · obtain ⟨w, hw, hdeclared⟩ := h d' i hi
    refine ⟨w, ?_, hdeclared⟩
    rw [DeclarationCache.add, Array.getElem?_push_lt (Array.getElem?_eq_some_iff.1 hw).1]
    exact congrArg some (Array.getElem?_eq_some_iff.1 hw).2

theorem Declares.get (h : c.Declares g) (d : ElementId) : (c.get g d).2.Declares g := by
  rcases c.get_cases g d with ⟨i, -, hget⟩ | ⟨-, ⟨e, he, hget⟩ | ⟨-, hget⟩⟩
  · rwa [hget]
  · rw [hget]
    exact h.add he
  · rwa [hget]

/-- What is found at the place of an element is its declaration. -/
theorem Declares.declaration_get (h : c.Declares g) (d : ElementId) :
    ((c.get g d).1.bind fun i => (c.get g d).2.wrappers[i]?).map (·.declaration) =
      Declaration.ofGrammar? g d := by
  rcases c.get_cases g d with ⟨i, hi, hget⟩ | ⟨-, ⟨e, he, hget⟩ | ⟨he, hget⟩⟩
  · obtain ⟨w, hw, hdeclared⟩ := h d i hi
    rw [hget, Option.bind_some, hw, hdeclared]
    rfl
  · rw [hget, Option.bind_some, DeclarationCache.add, Array.getElem?_push_size, he]
    rfl
  · rw [hget, he]
    rfl

theorem Declares.remember (h : c.Declares g) (i : Nat) (f : Memory → Memory) :
    (c.remember i f).Declares g := by
  intro d j hj
  obtain ⟨w, hw, hdeclared⟩ := h d j hj
  rw [DeclarationCache.remember, Array.getElem?_modify, hw]
  split
  · exact ⟨{ w with memory := f w.memory }, rfl, hdeclared⟩
  · exact ⟨w, rfl, hdeclared⟩

end DeclarationCache

/-- A grammar in use, which may be gone, and its declarations that are in use. -/
structure Session where
  /-- The grammar that the declarations belong to. -/
  grammar : Grammar
  alive : Bool := true
  cache : DeclarationCache := {}
  declares : cache.Declares grammar

namespace Session

/-- A grammar whose declarations are not in use yet. -/
def ofGrammar (g : Grammar) : Session := { grammar := g, declares := DeclarationCache.declares_empty g }

instance : Inhabited Session := ⟨ofGrammar default⟩

/-- The grammar, if it is still there. -/
def grammar? (s : Session) : Option Grammar := if s.alive then some s.grammar else none

theorem grammar?_eq_some {s : Session} {g : Grammar} :
    s.grammar? = some g ↔ s.grammar = g ∧ s.alive = true := by
  rw [grammar?]
  cases s.alive <;> simp

/-- The session without the grammar. -/
def drop (s : Session) : Session := { s with alive := false }

/-- The number of declarations in use. -/
def size (s : Session) : Nat := s.cache.wrappers.size

/-- The declaration in use at a place, and what has been read of it. -/
def wrapper? (s : Session) (i : Nat) : Option Wrapper := s.cache.wrappers[i]?

/-- What has been read of a declaration. -/
def memory (s : Session) (d : ElementId) : Memory :=
  (((s.cache.place? d).bind s.wrapper?).map (·.memory)).getD {}

/-- Changes what has been read of a declaration. -/
def remember (s : Session) (d : ElementId) (f : Memory → Memory) : Session :=
  match s.cache.place? d with
  | some i => { s with cache := s.cache.remember i f, declares := s.declares.remember i f }
  | none => s

/-- The place of the declaration of an element, which comes into use. -/
def use (s : Session) (d : ElementId) : Option Nat × Session :=
  ((s.cache.get s.grammar d).1,
    { s with cache := (s.cache.get s.grammar d).2, declares := s.declares.get d })

end Session

/-- A question to a grammar in use. -/
abbrev Asking := StateM Session

namespace Asking

/-- The grammar, if it is still there. -/
def grammar? : Asking (Option Grammar) := return (← get).grammar?

/-- An answer that only the grammar can give; without it, the one given. -/
def withGrammar {α : Type} (without : α) (answer : Grammar → Asking α) : Asking α := do
  match ← grammar? with
  | some g => answer g
  | none => return without

/-- The place of the declaration of an element, which comes into use. -/
def place? (d : ElementId) : Asking (Option Nat) := withGrammar none fun _ => modifyGet (·.use d)

/-- The declaration of an element, which comes into use. -/
def declaration? (d : ElementId) : Asking (Option Declaration) := do
  match ← place? d with
  | some i => return ((← get).wrapper? i).map (·.declaration)
  | none => return none

/-- The declarations of some elements. -/
def declarations (ds : List ElementId) : Asking (List Declaration) := do
  return (← ds.mapM declaration?).filterMap id

/-- The declaration of the global element of a name. -/
def global? (n : Name) : Asking (Option Declaration) := do
  match (← grammar?).bind (·.globalElements.find? n) with
  | some d => declaration? d
  | none => return none

/-- The declarations of all global elements. -/
def globals : Asking (List Declaration) := do
  declarations (((← grammar?).map Grammar.globals).getD [])

/-- What was read the first time, or else what the grammar says now. -/
def firstRead {α : Type} (known : Option α) (fromGrammar : Grammar → α) (empty : α)
    (keep : α → Asking Unit) : Asking α := do
  match known with
  | some a => return a
  | none =>
    let a := ((← grammar?).map fromGrammar).getD empty
    keep a
    return a

/-- The documentation of a declaration, which is remembered. -/
def documentation? (e : Declaration) : Asking (Option String) := do
  firstRead ((← get).memory e.id).documentation? e.documentationIn none fun a =>
    modify (·.remember e.id ({ · with documentation? := some a }))

/-- The attributes of a declaration, which are remembered. -/
def attributes (e : Declaration) : Asking (List AttributeDecl) := do
  firstRead ((← get).memory e.id).attributes? e.attributesIn [] fun a =>
    modify (·.remember e.id ({ · with attributes? := some a }))

/-- The listed values of a declaration, which are remembered. -/
def enumeration (e : Declaration) : Asking (List String) := do
  firstRead ((← get).memory e.id).enumeration? e.enumerationIn [] fun a =>
    modify (·.remember e.id ({ · with enumeration? := some a }))

/-- The elements that may stand in an element somewhere, which are remembered. -/
def childIds (e : Declaration) : Asking (List ElementId) := do
  firstRead ((← get).memory e.id).children? (·.staticChildren e.type) [] fun a =>
    modify (·.remember e.id ({ · with children? := some a }))

/-- The declarations of the elements that may stand in an element somewhere, which come into use. -/
def children (e : Declaration) : Asking (List Declaration) :=
  withGrammar [] fun _ => do declarations (← childIds e)

/-- The first child of a local name, and of a namespace if one is given. -/
def child? (e : Declaration) (localName : String) (space? : Option String) :
    Asking (Option Declaration) := do
  return (← children e).find? fun c =>
    c.name.localName == localName && (space?.map (c.name.space == ·)).getD true

/-- The first attribute of a local name. -/
def attribute? (e : Declaration) (localName : String) : Asking (Option AttributeDecl) := do
  return (← attributes e).find? (·.name.localName = localName)

/-- The document that declares an element. -/
def location? (e : Declaration) : Asking (Option Location) := do
  return (← grammar?).bind (·.locationOf? e.id)

end Asking
end SchemaAssist
