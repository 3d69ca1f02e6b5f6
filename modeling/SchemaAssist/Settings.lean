/-
# Settings

What an editor asks for: the version of the schema language, and how to treat documents without a
schema.  Settings are written as a JSON object with one member for each, in any order, or as an
array of them in order; what is left out has its default.
-/

import SchemaAssist.ContentModel.Determinism
import SchemaAssist.Json.Read

namespace SchemaAssist

/-- The version of the schema language that is asked for. -/
inductive SchemaVersion where
  | v10
  | v11
  /-- The first version, as read by a processor for the later one. -/
  | v10Extended
  deriving DecidableEq, Repr, Inhabited

namespace SchemaVersion

/-- How a version is written. -/
def toString : SchemaVersion → String
  | .v10 => "1.0"
  | .v11 => "1.1"
  | .v10Extended => "1.0EX"

/-- The version of a written form. -/
def ofString? : String → Option SchemaVersion
  | "1.0" => some .v10
  | "1.1" => some .v11
  | "1.0EX" => some .v10Extended
  | _ => none

/-- The version whose rules grammars follow. -/
def rules : SchemaVersion → Version
  | .v11 => .v11
  | _ => .v10

/-- The namespace that stands for a version. -/
def space : SchemaVersion → String
  | .v10 => schemaNamespace
  | .v11 => schemaNamespace11
  | .v10Extended => "http://www.w3.org/XML/XMLSchema/v1.0"

end SchemaVersion

/-- How grave a message is. -/
inductive Severity where
  | error
  | warning
  | information
  | hint
  deriving DecidableEq, Repr, Inhabited

/-- What is said of a document without a schema. -/
inductive NoGrammar where
  | ignore
  | hint
  | info
  | warning
  | error
  deriving DecidableEq, Repr, Inhabited

namespace NoGrammar

/-- How a choice is written. -/
def toString : NoGrammar → String
  | .ignore => "ignore"
  | .hint => "hint"
  | .info => "info"
  | .warning => "warning"
  | .error => "error"

/-- The choice of a written form. -/
def ofString? : String → Option NoGrammar
  | "ignore" => some .ignore
  | "hint" => some .hint
  | "info" => some .info
  | "warning" => some .warning
  | "error" => some .error
  | _ => none

/-- How grave the message is, if there is one. -/
def severity? : NoGrammar → Option Severity
  | .ignore => none
  | .hint => some .hint
  | .info => some .information
  | .warning => some .warning
  | .error => some .error

end NoGrammar

/-- The settings of an editor. -/
structure Settings where
  enabled : Bool := true
  schema : Bool := true
  schemaVersion : SchemaVersion := .v10
  noGrammar : NoGrammar := .hint
  disallowDocTypeDecl : Bool := false
  resolveExternalEntities : Bool := false
  deriving DecidableEq, Repr, Inhabited

namespace Settings

/-- A setting, by itself. -/
inductive Field where
  | enabled
  | schema
  | schemaVersion
  | noGrammar
  | disallowDocTypeDecl
  | resolveExternalEntities
  deriving DecidableEq, Repr, Inhabited

/-- All settings, in order. -/
def Field.all : List Field :=
  [.enabled, .schema, .schemaVersion, .noGrammar, .disallowDocTypeDecl, .resolveExternalEntities]

/-- The key of a setting. -/
def Field.key : Field → String
  | .enabled => "enabled"
  | .schema => "schema"
  | .schemaVersion => "schemaVersion"
  | .noGrammar => "noGrammar"
  | .disallowDocTypeDecl => "disallowDocTypeDecl"
  | .resolveExternalEntities => "resolveExternalEntities"

/-- The setting of a key. -/
def Field.ofKey? (key : String) : Option Field := Field.all.find? (·.key = key)

/-- A truth value. -/
def bool? : Json → Option Bool
  | .bool b => some b
  | _ => none

/-- A choice: its written form, or an object with that as the only key and nothing to it. -/
def choice? {α : Type} (ofString? : String → Option α) : Json → Option α
  | .string (some s) => ofString? s
  | .object [(some s, .null)] => ofString? s
  | _ => none

/-- The settings with one set to a value that it admits. -/
def set? (s : Settings) (f : Field) (v : Json) : Option Settings :=
  match f with
  | .enabled => (bool? v).map fun b => { s with enabled := b }
  | .schema => (bool? v).map fun b => { s with schema := b }
  | .schemaVersion => (choice? SchemaVersion.ofString? v).map fun c => { s with schemaVersion := c }
  | .noGrammar => (choice? NoGrammar.ofString? v).map fun c => { s with noGrammar := c }
  | .disallowDocTypeDecl => (bool? v).map fun b => { s with disallowDocTypeDecl := b }
  | .resolveExternalEntities => (bool? v).map fun b => { s with resolveExternalEntities := b }

/-- The settings with some set one after the other. -/
def setAll? (s : Settings) (fields : List (Field × Json)) : Option Settings :=
  fields.foldlM (fun s (f, v) => s.set? f v) s

/-- The settings that members of an object are for; a member for something else is passed over.
Each key must be a text. -/
def fieldsOf? (members : List (Option String × Json)) : Option (List (Field × Json)) := do
  let keyed ← members.mapM fun (key?, v) => key?.map (·, v)
  return keyed.filterMap fun (key, v) => (Field.ofKey? key).map (·, v)

/-- The settings that a value gives: none twice, and none beyond the last. -/
def ofJson? : Json → Option Settings
  | .object members => do
    let fields ← fieldsOf? members
    if (fields.map (·.1)).Nodup then setAll? {} fields else none
  | .array items =>
    if Field.all.length < items.length then none else setAll? {} (Field.all.zip items)
  | _ => none

/-- Reads settings. -/
def read? (text : String) : Option Settings := (Json.read? text).bind ofJson?

/-- The value of a setting. -/
def get (s : Settings) : Field → Json
  | .enabled => .bool s.enabled
  | .schema => .bool s.schema
  | .schemaVersion => .text s.schemaVersion.toString
  | .noGrammar => .text s.noGrammar.toString
  | .disallowDocTypeDecl => .bool s.disallowDocTypeDecl
  | .resolveExternalEntities => .bool s.resolveExternalEntities

/-- Settings as a value, in order. -/
def toJson (s : Settings) : Json := .object (Field.all.map fun f => (some f.key, s.get f))

end Settings
end SchemaAssist
