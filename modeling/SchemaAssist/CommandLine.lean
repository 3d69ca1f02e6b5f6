/-
# The command line

A command loads a schema, says what is wrong with it, and prints what is asked for, as text or as
JSON.
-/

import SchemaAssist.CommandLine.Help
import SchemaAssist.Completion.Candidates
import SchemaAssist.Registry

namespace SchemaAssist
namespace CommandLine

/-- What a run of the program leaves: its exit code, and the lines of its output and of its
messages. -/
structure Outcome where
  code : Nat
  out : List String := []
  messages : List String := []
  deriving DecidableEq, Repr, Inhabited

/-- Why a command fails. -/
inductive Failure where
  | settings
  | load (error : LoadError)
  | file (error : FileError)
  /-- The schema that a document names is at no location. -/
  | location (invalid : Location.Invalid)
  /-- No schema is given, and the document names none. -/
  | noSchema
  | unknownElement (name : String)
  deriving Repr

/-- The wording of a failure. -/
def Failure.message : Failure → String
  | .settings => "settings error: unknown version of the schema language"
  | .load error => error.message
  | .file error => error.message
  | .location invalid => invalid.message
  | .noSchema => "no --schema given and the document has no schema location hint"
  | .unknownElement name => s!"Element '{name}' not found in schema"

/-- The messages so far, and what came out. -/
abbrev Running (m : Type → Type) := ExceptT Failure (StateT (List String) m)

/-- How a truth value is printed. -/
def showBool (b : Bool) : String := if b then "true" else "false"

/-- The lines of elements offered. -/
def candidateLines (c : Candidates) : Asking (List String) := do
  if c.isEmpty then return ["(no elements permitted)"]
  let lines ← c.elements.mapM fun e => do
    match ← Asking.documentation? e with
    | some documentation => return s!"{e.name}  - {documentation}"
    | none => return e.name.toString
  return lines ++ if c.anyElement then ["(any element)"] else []

/-- Elements offered as JSON. -/
def candidateJson (c : Candidates) : Asking Json := do
  let elements ← c.elements.mapM fun e => do
    return Json.record [
      ("name", .text e.name.localName), ("namespace", .text? e.name.space?),
      ("documentation", .text? (← Asking.documentation? e))]
  return .record [("elements", .array elements), ("anyElement", .bool c.anyElement)]

/-- An attribute as JSON. -/
def attributeJson (a : AttributeDecl) : Json :=
  .record [
    ("name", .text a.name.toString), ("type", .text? (a.typeName?.map Name.toString)),
    ("required", .bool a.required), ("default", .text? a.default?), ("fixed", .text? a.fixed?),
    ("enumeration", .texts a.enumeration)]

/-- All about an element as JSON. -/
def elementJson (e : Declaration) : Asking Json := do
  return .record [
    ("name", .text e.name.toString), ("localName", .text e.name.localName),
    ("namespace", .text? e.name.space?), ("abstract", .bool e.isAbstract),
    ("nillable", .bool e.nillable), ("documentation", .text? (← Asking.documentation? e)),
    ("attributes", .array ((← Asking.attributes e).map attributeJson)),
    ("children", .texts ((← Asking.children e).map (·.name.toString))),
    ("enumeration", .texts (← Asking.enumeration e))]

/-- Lines under a heading, if there are any. -/
def underHeading (heading : String) (lines : List String) : List String :=
  if lines.isEmpty then [] else ["", s!"=== {heading} ==="] ++ lines

/-- The lines of an attribute. -/
def attributeLines (a : AttributeDecl) : List String :=
  let use := if a.required then "required" else "optional"
  let values := ", ".intercalate a.enumeration
  s!"  {a.name} ({use})" :: if a.enumeration.isEmpty then [] else [s!"    values: {values}"]

/-- The lines of all about an element. -/
def elementLines (e : Declaration) : Asking (List String) := do
  let documentation? ← Asking.documentation? e
  let attributes ← Asking.attributes e
  let children ← Asking.children e
  let enumeration ← Asking.enumeration e
  return [s!"Element: {e.name}"] ++
    (e.name.space?.map fun space => s!"  Namespace: {space}").toList ++
    ["  Abstract: " ++ showBool e.isAbstract, "  Nillable: " ++ showBool e.nillable] ++
    (documentation?.map fun text => s!"  Documentation: {text}").toList ++
    underHeading "Attributes" (attributes.flatMap attributeLines) ++
    underHeading "Children" (children.map fun c => s!"  {c.name}") ++
    underHeading "Enumeration" (enumeration.map fun value => s!"  {value}")

/-- The first global element whose local name or whose whole name is given. -/
def findGlobal (name : String) : Asking (Option Declaration) := do
  return (← Asking.globals).find? fun e => e.name.localName = name || e.name.toString = name

/-- The name of a child as it is written: that of a child of the parent, or else of a global
element. -/
def childName (parent : Declaration) (written : String) : Asking Name := do
  match ← Asking.child? parent written none with
  | some c => return c.name
  | none =>
    let roots ← Asking.rootCandidates
    return ((roots.elements.find? (·.name.localName = written)).map (·.name)).getD
      (.unqualified written)

/-- What is printed of elements offered. -/
def printCandidates (json : Bool) (c : Candidates) : Asking (List String) := do
  if json then return [(← candidateJson c).pretty] else candidateLines c

/-- The answer to the question which elements may follow. -/
def answerChildren (g : Grammar) (json : Bool) (element : String) (after : List String) :
    Asking (Except Failure (List String)) := do
  match ← findGlobal element with
  | none => return .error (.unknownElement element)
  | some parent =>
    let closed ← (after.filter (· ≠ "")).mapM (childName parent)
    return .ok (← printCandidates json (← Asking.candidatesAfter g parent.type closed))

/-- The answer to the question what there is about an element. -/
def answerInspect (json : Bool) (element : String) : Asking (Except Failure (List String)) := do
  match ← findGlobal element with
  | none => return .error (.unknownElement element)
  | some e => if json then return .ok [(← elementJson e).pretty] else return .ok (← elementLines e)

/-- The answer to the question which elements may be written at a caret. -/
def answerCaret (g : Grammar) (json : Bool) (root : Option Document.Element) (offset : Nat) :
    Asking (Except Failure (List String)) := do
  return .ok (← printCandidates json (← Asking.candidatesAt g root offset))

variable {m : Type → Type} [Monad m] (readFile : ReadFile m)

/-- Loads a grammar and prints what is wrong with it. -/
def loadGrammar (r : Registry) (schema : Location) : Running m Grammar := do
  match ← (r.load readFile [schema] : m _) with
  | (.error e, _) => throw (.load e)
  | (.ok k, _) =>
    modify (· ++ k.grammar.problems.toList.map fun p => "warning: " ++ p.toString)
    return k.grammar

/-- Asks a grammar. -/
def ask (g : Grammar) (answer : Asking (Except Failure (List String))) :
    Running m (List String) := do
  match (answer.run (.ofGrammar g)).1 with
  | .ok lines => return lines
  | .error e => throw e

/-- The schema that goes with a document: the one given, or else the first that it names. -/
def schemaOf (schema? : Option String) (file : String) (root : Option Document.Element) :
    Except Failure Location :=
  match schema?, Document.locationHints root with
  | some schema, _ => .ok (.path schema)
  | none, [] => .error .noSchema
  | none, hint :: _ =>
    match (Location.path file).resolve hint with
    | .ok l => .ok l
    | .error e => .error (.location e)

/-- Carries out a command: the lines of its output. -/
def carryOut (r : Registry) (json : Bool) : Task → Running m (List String)
  | .children schema element after => do
    let g ← loadGrammar readFile r (.path schema)
    ask g (answerChildren g json element after)
  | .caret schema? file offset => do
    match ← (readFile file : m _) with
    | .error e => throw (.file e)
    | .ok text =>
      let root := Document.read text
      let schema ← schemaOf schema? file root
      let g ← loadGrammar readFile r schema
      ask g (answerCaret g json root offset)
  | .inspect schema element => do
    let g ← loadGrammar readFile r (.path schema)
    ask g (answerInspect json element)

/-- The registry for a version asked for. -/
def registryFor (xsdVersion : String) : Except Failure Registry :=
  match SchemaVersion.ofString? xsdVersion with
  | some schemaVersion => .ok { settings := { schemaVersion } }
  | none => .error .settings

/-- Carries out what the arguments ask for. -/
def invoke (i : Invocation) : Running m (List String) := do
  carryOut readFile (← registryFor i.xsdVersion) i.json i.task

/-- Runs the program. -/
def run (args : List String) : m Outcome := do
  match read args with
  | .error .misused => return { code := 2 }
  | .error .version => return { code := 0, out := [versionText] }
  | .error (.help command?) => return { code := 0, out := help command? }
  | .ok i =>
    match ← ((invoke readFile i).run).run [] with
    | (.ok out, messages) => return { code := 0, out, messages }
    | (.error e, messages) =>
      return { code := 1, messages := messages ++ ["Error: " ++ e.message] }

end CommandLine
end SchemaAssist
