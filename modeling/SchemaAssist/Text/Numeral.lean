/-
# Counts written as numerals

A count in an attribute value is an optional plus sign and decimal digits, and fits 32 bits.
-/

namespace SchemaAssist
namespace Text

/-- The value of decimal digits read after digits of value `n`; `none` at any other character. -/
def digitsValue (n : Nat) : List Char → Option Nat
  | [] => some n
  | c :: cs => if c.isDigit then digitsValue (10 * n + (c.toNat - '0'.toNat)) cs else none

/-- The largest count. -/
def maxCount : Nat := 0xFFFFFFFF

/-- The digits of a numeral: what follows an optional plus sign. -/
def numeralDigits : List Char → List Char
  | '+' :: cs => cs
  | cs => cs

/-- Reads a numeral that is at most `limit`. -/
def readNat? (limit : Nat) (s : String) : Option Nat :=
  match numeralDigits s.toList with
  | [] => none
  | cs => (digitsValue 0 cs).filter (· ≤ limit)

/-- Reads a count. -/
def readCount? (s : String) : Option Nat := readNat? maxCount s

example : readCount? "+12" = some 12 := by decide
example : readCount? "4294967296" = none := by decide

end Text
end SchemaAssist
