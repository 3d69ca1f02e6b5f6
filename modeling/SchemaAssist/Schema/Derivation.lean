/-
# Derivation of types

A complex type takes on the content and the attributes of its base, which has to be derived first.
A type that derives from itself, directly or through others, is reported and derives from what its
base says without its own base.
-/

import SchemaAssist.Schema.Uses

namespace SchemaAssist

/-- The content of an extension: that of the base, then its own.  The later version joins the
particles of two unordered groups. -/
def Content.extend (version : Version) (base own : Content) : Content :=
  match base, own with
  | .simple t, _ => .simple t
  | .empty, own => own
  | base, .empty => base
  | _, .simple t => .simple t
  | .group g, .group h =>
    if version = .v11 ∧ g.compositor = .all ∧ h.compositor = .all then
      .group { g with particles := g.particles ++ h.particles }
    else .group ⟨.sequence, [g.toParticle, h.toParticle], .once⟩

/-- A value whose type is not known. -/
def Content.isUntyped : Content → Bool
  | .simple .unspecified => true
  | _ => false

/-- A complex type derived from a base. -/
def ComplexType.derive (version : Version) (ct : ComplexType) (method : Derivation)
    (baseId : TypeId) : TypeDef → ComplexType
  | .simple _ =>
    if ct.content.isUntyped then { ct with content := .simple (.definition baseId) } else ct
  | .complex base =>
    let attributes := mergeAttributes base.attributes ct.attributes
    match method with
    | .extension =>
      { ct with
        attributes
        content := base.content.extend version ct.content
        mixed := ct.mixed || base.mixed }
    | .restriction =>
      { ct with attributes, content := if ct.content.isUntyped then base.content else ct.content }

namespace Components

/-- A step of derivation, which knows the types that are done. -/
abbrev Deriving := StateT (List TypeId) Building

/-- The type of an identifier. -/
def type? (t : TypeId) : Building (Option TypeDef) := return (← get).types[t.index]?

/-- Replaces a type. -/
def setType (t : TypeId) (d : TypeDef) : Building Unit :=
  modify fun c => { c with types := c.types.setIfInBounds t.index d }

/-- Derives a type once.  `room` is the number of types that may still be on the way to a base, and
`path` the types that wait for this one. -/
def derive : (room : Nat) → (path : List TypeId) → TypeId → Deriving Unit
  | 0, _, _ => return
  | room + 1, path, t => do
    if t ∈ (← getThe (List TypeId)) then return
    match ← type? t with
    | some (.complex ct) =>
      let label := (TypeDef.complex ct).label
      if t ∈ path then report (.circularDerivation label)
      else
        let attributes ← resolveUses ct.attributes ct.attributeGroups
        let ct := { ct with attributes, attributeGroups := [] }
        let ct ← match ct.derivation? with
          | none => pure ct
          | some (method, base) =>
            match ← typeNamed? base with
            | none =>
              report (.unknownBase base label)
              pure ct
            | some b =>
              if b = t then
                report (.selfDerivation label)
                pure ct
              else
                derive room (t :: path) b
                match ← type? b with
                | some d => pure (ct.derive (← getThe Components).version method b d)
                | none => pure ct
        setType t (.complex { ct with attributes := ct.attributes.filter (!·.prohibited) })
        modifyThe (List TypeId) (t :: ·)
    | _ => modifyThe (List TypeId) (t :: ·)

/-- Derives all types.  On the way to a base each type is met once, but for the built-in type of any
content, which may be numbered on the way, and for the type that closes a circle. -/
def deriveTypes : Building Unit := do
  let count := (← get).types.size
  let _ ← ((List.range count).forM fun i => derive (count + 2) [] ⟨i⟩).run []

/-- Looks up the base of a simple type. -/
def resolveBase (t : TypeId) : Building Unit := do
  match ← type? t with
  | some (.simple st) =>
    if !st.builtin then
      let base? ← typeOf? st.base (.simpleType (TypeDef.simple st).label)
      setType t (.simple { st with base? })
  | _ => return

/-- Looks up the bases of all simple types. -/
def resolveBases : Building Unit := do
  (List.range (← get).types.size).forM fun i => resolveBase ⟨i⟩

end Components
end SchemaAssist
