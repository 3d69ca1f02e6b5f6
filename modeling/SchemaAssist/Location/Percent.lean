/-
# Percent encoding

In the parts of a URL a byte may be written as a percent sign and two hexadecimal digits.  Which
characters must be depends on the part; those beyond ASCII and the control characters always must.
-/

import SchemaAssist.Text.Space

namespace SchemaAssist
namespace Percent

/-- The digit of a value below sixteen. -/
def digit (n : Nat) : Char := if n < 10 then Char.ofNat (48 + n) else Char.ofNat (55 + n)

/-- The value of a digit. -/
def digitValue? (c : Char) : Option Nat :=
  if c.isDigit then some (c.toNat - 48)
  else if 'A' ≤ c ∧ c ≤ 'F' then some (c.toNat - 55)
  else if 'a' ≤ c ∧ c ≤ 'f' then some (c.toNat - 87)
  else none

/-- A byte in its encoded form. -/
def encodeByte (b : UInt8) : List Char := ['%', digit (b.toNat / 16), digit (b.toNat % 16)]

/-- A character that is written in its encoded form: a control character, one beyond ASCII, or one
of `more`. -/
def mustEncode (more : List Char) (c : Char) : Bool :=
  c.toNat < 0x20 || 0x7E < c.toNat || more.contains c

/-- Characters with those encoded that must be. -/
def encode (more : List Char) (cs : List Char) : List Char :=
  cs.flatMap fun c =>
    if mustEncode more c then (String.utf8EncodeChar c).flatMap encodeByte else [c]

/-- The bytes of characters with the encoded ones decoded. -/
def decode : List Char → List UInt8
  | '%' :: a :: b :: cs =>
    match digitValue? a, digitValue? b with
    | some x, some y => UInt8.ofNat (16 * x + y) :: decode cs
    | _, _ => 37 :: decode (a :: b :: cs)
  | c :: cs => String.utf8EncodeChar c ++ decode cs
  | [] => []
termination_by cs => cs.length

/-- The text of bytes; `none` if they are not UTF-8. -/
def text? (bytes : List UInt8) : Option String := String.fromUTF8? ⟨bytes.toArray⟩

/-- The characters to encode in the fragment of a URL. -/
def fragmentSet : List Char := [' ', '"', '<', '>', '\x60']

/-- The characters to encode in the path of a URL. -/
def pathSet : List Char := fragmentSet ++ ['#', '?', '\x7b', '\x7d']

/-- The characters to encode in the name and the password of a URL. -/
def userinfoSet : List Char :=
  pathSet ++ ['/', ':', ';', '=', '@', '[', '\\', ']', '^', '|']

/-- The characters to encode in the query of a URL. -/
def querySet : List Char := [' ', '"', '#', '<', '>']

end Percent
end SchemaAssist
