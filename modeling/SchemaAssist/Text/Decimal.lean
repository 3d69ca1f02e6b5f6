/-
# Decimal numerals with a point and an exponent

A numeral is an optional sign, digits with at most one point among or around them, and an optional
exponent; the words for infinity and for "not a number" are numerals too.  A numeral is kept
exactly, so that it can be compared with a fraction without rounding.
-/

import SchemaAssist.Text.Numeral

namespace SchemaAssist
namespace Text

/-- What a numeral denotes. -/
inductive Decimal where
  /-- `digits` times ten to the power of `exponent`. -/
  | finite (negative : Bool) (digits : Nat) (exponent : Int)
  | infinite (negative : Bool)
  | notNumber
  deriving DecidableEq, Repr

namespace Decimal

/-- A sign, if there is one, and what follows: whether the sign is a minus. -/
def cutSign : List Char → Bool × List Char
  | '-' :: cs => (true, cs)
  | '+' :: cs => (false, cs)
  | cs => (false, cs)

/-- The exponent that the end of a numeral gives; an end of nothing gives zero. -/
def exponent? : List Char → Option Int
  | [] => some 0
  | c :: cs =>
    if c = 'e' || c = 'E' then
      let (negative, digits) := cutSign cs
      if digits.isEmpty then none
      else (digitsValue 0 digits).map fun n => if negative then -n else n
    else none

/-- Reads digits, a point and digits, of which there must be some, and an exponent. -/
def unsigned? (negative : Bool) (cs : List Char) : Option Decimal :=
  let whole := cs.takeWhile Char.isDigit
  let (places, rest) :=
    match cs.dropWhile Char.isDigit with
    | '.' :: cs => (cs.takeWhile Char.isDigit, cs.dropWhile Char.isDigit)
    | cs => ([], cs)
  if whole.isEmpty && places.isEmpty then none
  else do
    let digits ← digitsValue 0 (whole ++ places)
    return finite negative digits ((← exponent? rest) - places.length)

/-- Reads a numeral; letters may be of either case. -/
def read? (s : String) : Option Decimal :=
  let (negative, cs) := cutSign s.toList
  match String.ofList (cs.map Char.toLower) with
  | "inf" => some (infinite negative)
  | "infinity" => some (infinite negative)
  | "nan" => some notNumber
  | _ => unsigned? negative cs

/-- The number of decimal digits of a number, none for zero. -/
def digitCount (n : Nat) : Nat := if n = 0 then 0 else (toString n).length

/-- Whether a numeral denotes more than `num / den`, a fraction from one up to ten.  The magnitude
decides unless the value is in the same range. -/
def above (num den : Nat) : Decimal → Bool
  | finite negative digits exponent =>
    let magnitude := digitCount digits + exponent
    !negative && digits ≠ 0 &&
      (1 < magnitude || (magnitude = 1 && num * Nat.pow 10 (digitCount digits - 1) < digits * den))
  | infinite negative => !negative
  | notNumber => false

end Decimal
end Text
end SchemaAssist
