/-
# References

Text and attribute values hold references: to characters by number or by one of five names, and to
entities, which stand for the text that the document declares for them.  Entities may refer to
others ten levels deep, and the ones met on the way from one reference are at most 255.
-/

import SchemaAssist.Markup.Scan

namespace SchemaAssist
namespace Markup

/-- A declared entity: its name, its text, and the number of characters of the document after it. -/
structure Entity where
  name : List Char
  text : List Char
  after : Nat
  deriving Repr, Inhabited

/-- A piece of text: a character as written, one referred to, or a reference to an entity. -/
inductive Piece where
  | plain (c : Char)
  | char (c : Char)
  | entity (name : List Char)
  deriving Repr

/-- The value of the digits of a base read after digits of value `n`. -/
def digitsValue? (base : Nat) (n : Nat) : List Char → Option Nat
  | [] => some n
  | c :: cs =>
    let d :=
      if c.isDigit then c.toNat - '0'.toNat
      else if 'a' ≤ c ∧ c ≤ 'z' then c.toNat - 'a'.toNat + 10
      else if 'A' ≤ c ∧ c ≤ 'Z' then c.toNat - 'A'.toNat + 10
      else base
    if d < base then digitsValue? base (base * n + d) cs else none

/-- The character of a code point; one that has no character is replaced. -/
def charOfPoint (n : Nat) : Char := if h : n.isValidChar then Char.ofNatAux n h else '\ufffd'

/-- The character that digits of a base denote. -/
def numbered? (base : Nat) (cs : List Char) : Option Char :=
  if cs.isEmpty then none
  else ((digitsValue? base 0 cs).filter (· < 0x100000000)).bind fun n =>
    if isAllowed (charOfPoint n) then some (charOfPoint n) else none

/-- What a reference denotes, given what stands between `&` and `;`. -/
def piece? : List Char → Option Piece
  | '#' :: 'x' :: cs => .char <$> numbered? 16 cs
  | '#' :: cs => .char <$> numbered? 10 cs
  | cs =>
    match String.ofList cs with
    | "lt" => some (.char '<')
    | "gt" => some (.char '>')
    | "amp" => some (.char '&')
    | "apos" => some (.char '\'')
    | "quot" => some (.char '"')
    | _ => if isName cs then some (.entity cs) else none

/-- The pieces of a text, where `read` holds what has been read of a reference in reverse. -/
def pieces : (read : Option (List Char)) → List Char → Except Malformed (List Piece)
  | none, [] => .ok []
  | some _, [] => .error .reference
  | none, c :: cs =>
    if c = '&' then pieces (some []) cs else (.plain c :: ·) <$> pieces none cs
  | some read, c :: cs =>
    if c = ';' then
      match piece? read.reverse with
      | some p => (p :: ·) <$> pieces none cs
      | none => .error .reference
    else pieces (some (c :: read)) cs

/-- The deepest nesting of entities. -/
def maxNesting : Nat := 10

/-- The most references followed inside one outermost reference. -/
def maxFollowed : Nat := 255

/-- The number of references followed after one more, met inside entities or outside. -/
def follow (inEntity : Bool) (followed : Nat) : Except Malformed Nat :=
  if inEntity then
    if followed < maxFollowed then .ok (followed + 1) else .error .entityLoop
  else .ok 0

/-- The entity of a name: the first one declared. -/
def findEntity (entities : List Entity) (name : List Char) : Except Malformed Entity :=
  match entities.find? (·.name == name) with
  | some e => .ok e
  | none => .error .unknownEntity

/-- A blank as it counts in an attribute value. -/
def attributeBlank (c : Char) : Char := if Text.isSpace c then ' ' else c

/-- The value of pieces of an attribute, given how the value of an entity's text is found.  A line
end counts as one blank; a character referred to counts as it is outside entities, and inside them
it may not be an opening bracket. -/
def attributeValueOf (inEntity : Bool)
    (entityValue : List Char → Nat → Except Malformed (List Char × Nat)) :
    List Piece → Nat → Except Malformed (List Char × Nat)
  | [], followed => .ok ([], followed)
  | .plain c :: ps, followed => do
    let (value, followed) ← attributeValueOf inEntity entityValue ps followed
    match c, ps with
    | '\r', .plain '\n' :: _ => return (value, followed)
    | _, _ => return (attributeBlank c :: value, followed)
  | .char c :: ps, followed => do
    if inEntity ∧ c = '<' then throw .character
    let (value, followed) ← attributeValueOf inEntity entityValue ps followed
    return ((if inEntity then attributeBlank c else c) :: value, followed)
  | .entity name :: ps, followed => do
    let (inner, followed) ← entityValue name (← follow inEntity followed)
    let (value, followed) ← attributeValueOf inEntity entityValue ps followed
    return (inner ++ value, followed)

/-- The value of the text of an entity inside an attribute, `room` levels being left. -/
def entityValue (entities : List Entity) : (room : Nat) → List Char → Nat →
    Except Malformed (List Char × Nat)
  | 0, _, _ => .error .entityLoop
  | room + 1, name, followed => do
    let e ← findEntity entities name
    attributeValueOf true (entityValue entities room) (← pieces none e.text) followed

/-- The value of an attribute as written, inside entities or outside. -/
def attributeValue (entities : List Entity) (room followed : Nat) (written : List Char) :
    Except Malformed (List Char × Nat) := do
  attributeValueOf (room < maxNesting) (entityValue entities room) (← pieces none written) followed

/-- Characters taken so far in reverse with one more: a carriage return, alone or with a line feed
after it, counts as a line feed once the next character or the end is seen. -/
def pushText (taken : List Char) (c : Char) (last : Bool) : List Char :=
  let c' := if last && c = '\r' then '\n' else c
  match taken with
  | '\r' :: before => if c = '\n' then '\n' :: before else c' :: '\n' :: before
  | _ => c' :: taken

/-- Text taken so far: its characters in reverse, and whether the next one counts as written. -/
structure Taken where
  chars : List Char
  asWritten : Bool

/-- No text. -/
def Taken.empty : Taken := ⟨[], false⟩

/-- Takes a character as written; `last` if nothing follows it. -/
def Taken.plain (t : Taken) (c : Char) (last : Bool) : Taken :=
  ⟨if t.asWritten then c :: t.chars else pushText t.chars c last, false⟩

/-- Takes a character referred to.  Outside entities it counts as it is, and so does the one written
after it. -/
def Taken.char (t : Taken) (inEntity : Bool) (c : Char) (last : Bool) : Taken :=
  if inEntity then { t with chars := pushText t.chars c last } else ⟨c :: t.chars, true⟩

/-- The text taken. -/
def Taken.toString (t : Taken) : String := String.ofList t.chars.reverse

/-- The text of a section of character data. -/
def characterData : Taken → List Char → String
  | t, [] => t.toString
  | t, c :: cs => characterData (t.plain c cs.isEmpty) cs

end Markup
end SchemaAssist
