/-
# Inside a tag

The text between the angle brackets of a tag in an editor document: a name up to the first blank and
then attributes.  Nothing is an error: what is no attribute with a quoted value is passed over, and
a value without its closing quote ends the list.
-/

import SchemaAssist.Document.Reference
import SchemaAssist.Text.Space

namespace SchemaAssist
namespace Document

open Text

/-- A character of an attribute's key after the first. -/
def isKeyChar (c : Char) : Bool := c ≠ '=' && !isSpace c

/-- The attributes of a tag in order, as written; a key is at least one character. -/
def rawAttributes (cs : List Char) : List (List Char × List Char) :=
  match hkey : cs.dropWhile isSpace with
  | [] => []
  | k :: afterKey =>
    match heq : (afterKey.dropWhile isKeyChar).dropWhile isSpace with
    | [] => []
    | c :: afterEq =>
      have hlt : (c :: afterEq).length < cs.length := by
        have := length_lt_of_dropWhile hkey
        have := length_dropWhile_le isSpace (afterKey.dropWhile isKeyChar)
        have := length_dropWhile_le isKeyChar afterKey
        rw [heq] at *
        omega
      if c ≠ '=' then rawAttributes (c :: afterEq)
      else
        match hquote : afterEq.dropWhile isSpace with
        | [] => []
        | q :: afterQuote =>
          have hlt' : (q :: afterQuote).length < cs.length := by
            have := length_dropWhile_le isSpace afterEq
            rw [hquote] at this
            rw [List.length_cons] at hlt
            omega
          if isQuote q then
            match hvalue : Text.cutList q afterQuote with
            | none => []
            | some (value, rest) =>
              have : rest.length < cs.length := by
                have := length_lt_of_cutList hvalue
                rw [List.length_cons] at hlt'
                omega
              (k :: afterKey.takeWhile isKeyChar, value) :: rawAttributes rest
          else
            have : ((q :: afterQuote).dropWhile (!isSpace ·)).length < cs.length :=
              Nat.lt_of_le_of_lt (length_dropWhile_le _ _) hlt'
            rawAttributes ((q :: afterQuote).dropWhile (!isSpace ·))
termination_by cs.length

/-- A start tag or an empty tag: its name as written and its attributes with references replaced. -/
structure Tag where
  name : String
  attributes : List (String × String)
  deriving Repr, Inhabited

/-- The tag that starts with the name `name`, followed by `rest`. -/
def Tag.ofParts (name rest : List Char) : Tag where
  name := String.ofList name
  attributes := (rawAttributes rest).map fun (key, value) =>
    (String.ofList key, String.ofList (replaceReferences value))

/-- The tag with the given text between its angle brackets, and whether it is empty: its text ends
with a slash, which belongs neither to the name nor to the attributes. -/
def Tag.read (cs : List Char) : Tag × Bool :=
  if cs.getLast? = some '/' then
    let inside := cs.dropLast
    (.ofParts (inside.takeWhile (!isSpace ·)) (inside.dropWhile (!isSpace ·)), true)
  else (.ofParts (cs.takeWhile (!isSpace ·)) (cs.dropWhile (!isSpace ·)), false)

end Document
end SchemaAssist
