/-
# Limits

Bounds on what is loaded and compiled, so that hostile schemas cannot exhaust time or memory.
-/

namespace SchemaAssist

/-- The largest schema text in bytes, the deepest chain of references between schema documents, the
largest number of declarations and types, and the deepest nesting of model groups. -/
structure Limits where
  schemaSize : Nat := 100 * 1024 * 1024
  schemaDepth : Nat := 100
  components : Nat := 100000
  modelDepth : Nat := 100
  deriving DecidableEq, Repr, Inhabited

namespace Limits

/-- Limits for schemas that are not trusted. -/
def strict : Limits := ⟨10 * 1024 * 1024, 20, 10000, 32⟩

/-- Limits for large schemas. -/
def permissive : Limits := ⟨1024 * 1024 * 1024, 1000, 1000000, 1000⟩

/-- A limit that was passed: what was measured, the value found and the largest one allowed. -/
inductive Exceeded where
  | schemaSize (found limit : Nat)
  | schemaDepth (found limit : Nat)
  | components (found limit : Nat)
  | modelDepth (found limit : Nat)
  deriving DecidableEq, Repr

/-- The wording of a limit passed. -/
def Exceeded.message : Exceeded → String
  | .schemaSize found limit => s!"Schema size {found} bytes exceeds maximum {limit} bytes"
  | .schemaDepth found limit => s!"Schema depth {found} exceeds maximum {limit}"
  | .components found limit => s!"Schema component count {found} exceeds maximum {limit}"
  | .modelDepth found limit => s!"Model depth {found} exceeds maximum {limit}"

/-- Refuses a value above its limit. -/
def check (cause : Nat → Nat → Exceeded) (limit found : Nat) : Except Exceeded Unit :=
  if limit < found then .error (cause found limit) else .ok ()

/-- Refuses a schema text of too many bytes. -/
def checkSchemaSize (l : Limits) : Nat → Except Exceeded Unit := check .schemaSize l.schemaSize

/-- Refuses a schema document too many references away. -/
def checkSchemaDepth (l : Limits) : Nat → Except Exceeded Unit := check .schemaDepth l.schemaDepth

/-- Refuses too many declarations and types. -/
def checkComponents (l : Limits) : Nat → Except Exceeded Unit := check .components l.components

/-- Refuses groups nested too deep. -/
def checkModelDepth (l : Limits) : Nat → Except Exceeded Unit := check .modelDepth l.modelDepth

end Limits
end SchemaAssist
