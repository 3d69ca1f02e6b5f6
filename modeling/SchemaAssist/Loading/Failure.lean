/-
# Failures of loading

Why a grammar cannot be loaded: a document has no text, is too large, is not well-formed or is no
schema, or what the documents hold together is too large.
-/

import SchemaAssist.Files
import SchemaAssist.Limits
import SchemaAssist.Location
import SchemaAssist.Markup.Scan

namespace SchemaAssist

/-- Why no text is found at a location. -/
inductive Unavailable where
  | file (path : String) (error : FileError)
  /-- The URL of a file that is on another host. -/
  | fileUrl (url : Url)
  /-- A URL of anything but a file. -/
  | remote (url : Url)
  deriving Repr

/-- The wording of a failure to find a text. -/
def Unavailable.message : Unavailable → String
  | .file path error => s!"Failed to read file '{path}': {error.message}"
  | .fileUrl url => s!"Invalid file URL: {url.toString}"
  | .remote url => s!"Fetching remote schemas is not supported: {url.toString}"

/-- Why a grammar, or a document of it, cannot be loaded. -/
inductive LoadError where
  /-- No schema is asked for. -/
  | noLocation
  | unavailable (cause : Unavailable)
  | limit (exceeded : Limits.Exceeded)
  | malformed (cause : Markup.Malformed)
  /-- The root element is none of a schema. -/
  | notSchema (root : String)
  deriving Repr

/-- The wording of a failure to load. -/
def LoadError.message : LoadError → String
  | .noLocation => "value error: no schema location given"
  | .unavailable cause => s!"resource error: {cause.message}"
  | .limit exceeded => s!"limit exceeded: {exceeded.message}"
  | .malformed cause => s!"XML error: {cause.message}"
  | .notSchema root => s!"parse error: root element '{root}' is not an XSD schema element"

end SchemaAssist
