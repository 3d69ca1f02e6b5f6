/-
# Tables of code points

A table says something of ranges of code points.  It is written as a text of words: a range is two
hexadecimal numerals with a hyphen between them, or one numeral; a list of code points has dots
between its numerals; a run is a code point, a colon, and the lists for it and for those after it.
-/

import SchemaAssist.Text.Blank
import SchemaAssist.Text.Cut

namespace SchemaAssist
namespace Character

/-- The value of a hexadecimal numeral in capital letters. -/
def hexValue (cs : List Char) : Nat :=
  cs.foldl (fun n c => 16 * n + (if c.isDigit then c.toNat - 48 else c.toNat - 55)) 0

/-- What is said of the code points from a first to a last one. -/
structure Row (α : Type) where
  first : Nat
  last : Nat
  value : α

/-- Rows in ascending order, none of which meets another. -/
abbrev Table (α : Type) := Array (Row α)

/-- The words of a text. -/
def words (text : String) : List (List Char) := Text.wordsOf text.toList

/-- The row of the range that a word is. -/
def rowOf {α : Type} (value : α) (word : List Char) : Row α :=
  let (first, last) := (Text.cutList '-' word).getD (word, word)
  ⟨hexValue first, hexValue last, value⟩

/-- The rows of the ranges in a text, of all of which the same is said. -/
def rowsOf {α : Type} (value : α) (text : String) : List (Row α) := (words text).map (rowOf value)

/-- The code points in a list. -/
def pointsOf (word : List Char) : List Nat := (Text.piecesList '.' word).map hexValue

/-- The runs so far and one more word, which starts a run or goes on with the last one. -/
def addToRuns (runs : List (Nat × Array (List Nat))) (word : List Char) :
    List (Nat × Array (List Nat)) :=
  match Text.cutList ':' word, runs with
  | some (first, value), runs => (hexValue first, #[pointsOf value]) :: runs
  | none, (first, values) :: runs => (first, values.push (pointsOf word)) :: runs
  | none, [] => []

/-- The rows of the runs in a text: the list for each code point. -/
def runsOf (text : String) : List (Row (Array (List Nat))) :=
  ((words text).foldl addToRuns []).map fun (first, values) =>
    ⟨first, first + values.size - 1, values⟩

/-- The text of a list of code points. -/
def charsOf (points : List Nat) : List Char := points.map Char.ofNat

namespace Table

variable {α : Type}

/-- The table of some rows in any order. -/
def ofRows (rows : List (Row α)) : Table α :=
  (rows.mergeSort fun a b => a.first ≤ b.first).toArray

/-- The row of a code point among those from `low` on and before `high`. -/
def search (t : Table α) (n low high : Nat) : Option (Row α) :=
  if low < high then
    let middle := (low + high) / 2
    match t[middle]? with
    | none => none
    | some r =>
      if n < r.first then search t n low middle
      else if r.last < n then search t n (middle + 1) high
      else some r
  else none
termination_by high - low

/-- The row of a code point. -/
def find? (t : Table α) (n : Nat) : Option (Row α) := search t n 0 t.size

/-- Whether a table has a row for a character. -/
def has (t : Table α) (c : Char) : Bool := (t.find? c.toNat).isSome

/-- What a table says of a character. -/
def value? (t : Table α) (c : Char) : Option α := (t.find? c.toNat).map (·.value)

/-- The row that is found is one for the code point. -/
theorem le_of_search_eq_some {t : Table α} {n low high : Nat} {r : Row α}
    (h : t.search n low high = some r) : r.first ≤ n ∧ n ≤ r.last := by
  fun_induction search t n low high with grind

end Table
end Character
end SchemaAssist
