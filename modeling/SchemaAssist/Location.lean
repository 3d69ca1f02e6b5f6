/-
# Locations of schemas

A schema is found at a path, at a URL, or in the text itself.  A schema refers to others by texts
that are read against its own location.  A path that a URL gives may consist of bytes that are no
text.
-/

import SchemaAssist.Location.Path
import SchemaAssist.Location.Url
import SchemaAssist.Text.Blank
import SchemaAssist.Text.Bytes

namespace SchemaAssist

/-- Where a schema is found. -/
inductive Location where
  | path (path : String)
  /-- A path of bytes that are no text. -/
  | bytes (path : List UInt8)
  | url (url : Url)
  /-- The text of the schema. -/
  | inline (text : String)
  deriving Repr, Inhabited

namespace Location

/-- Why a text is no location, or leads to none. -/
inductive Invalid where
  /-- The URL of a file that is on another host. -/
  | fileUrl (url : String)
  /-- No URL. -/
  | url (text : String)
  deriving DecidableEq, Repr

/-- The wording of a refusal. -/
def Invalid.message : Invalid → String
  | .fileUrl shown => s!"resource error: Invalid file URL: {shown}"
  | .url shown => s!"URL error: '{shown}' is no URL"

/-- What decides whether two locations are the same: a path counts by its steps. -/
inductive Key where
  | path (steps : Path.Steps)
  | bytes (steps : Path.Steps)
  | url (url : Url)
  | inline (text : String)
  deriving DecidableEq, Repr

/-- Bytes as characters of the same numbers, of which slashes and dots are those of the text. -/
def spread (bytes : List UInt8) : String := String.ofList (bytes.map fun b => Char.ofNat b.toNat)

/-- The bytes that stand as characters of the same numbers. -/
def gather (s : String) : List UInt8 := s.toList.map fun c => UInt8.ofNat c.toNat

/-- Bytes are read back from the characters that they stand as. -/
theorem gather_spread (bytes : List UInt8) : gather (spread bytes) = bytes := by
  have one (b : UInt8) : (Char.ofNat b.toNat).toNat = b.toNat := by
    have := b.toNat_lt
    exact congrArg Char.toNat (dif_pos (show b.toNat.isValidChar from Or.inl (by omega)))
  induction bytes with
  | nil => rfl
  | cons b bs ih => simp_all [gather, spread]

/-- The location of a path of bytes. -/
def ofBytes (bytes : List UInt8) : Location :=
  match Percent.text? bytes with
  | some p => path p
  | none => .bytes bytes

/-- The key of a location. -/
def key : Location → Key
  | path p => .path (Path.steps p)
  | bytes p => .bytes (Path.steps (spread p))
  | url u => .url u
  | inline s => .inline s

/-- Two locations are the same. -/
def same (a b : Location) : Bool := a.key = b.key

/-- The path of a file's URL, or the URL of anything else.  A scheme of one letter is none but the
name of a drive. -/
def ofUrl? (text : String) : Except Invalid (Option Location) :=
  match Url.read? text with
  | some u =>
    if u.scheme = "file" then
      match u.filePath? with
      | some p => .ok (some (ofBytes p))
      | none => .error (.fileUrl text)
    else if 1 < u.scheme.length then .ok (some (url u))
    else .ok none
  | none => .ok none

/-- Reads a location: a URL, a schema if the text starts with a bracket, else a path. -/
def read (text : String) : Except Invalid Location := do
  match ← ofUrl? text with
  | some l => return l
  | none =>
    if (text.toList.dropWhile Text.isBlank).head? = some '<' then return inline text
    else return path text

/-- The location that a reference leads to from this one. -/
def resolve (base : Location) (reference : String) : Except Invalid Location := do
  match ← ofUrl? reference with
  | some l => return l
  | none =>
    match base with
    | path p =>
      if Path.isAbsolute reference then return path reference
      else return path (Path.join ((Path.parent? p).getD "") reference)
    | bytes p =>
      if Path.isAbsolute reference then return path reference
      else
        let parent := (Path.parent? (spread p)).getD ""
        return ofBytes (gather (Path.join parent (spread reference.toUTF8.toList)))
    | url u =>
      match u.join reference with
      | some u => return url u
      | none => throw (.url reference)
    | inline _ => return path reference

/-- The text of a location. -/
def text : Location → String
  | path p => p
  | bytes p => String.ofList (Text.shownBytes p)
  | url u => u.toString
  | inline s => s

/-- How a location is called in messages. -/
def toString : Location → String
  | inline _ => "<inline schema>"
  | l => l.text

instance : ToString Location := ⟨Location.toString⟩

end Location
end SchemaAssist
