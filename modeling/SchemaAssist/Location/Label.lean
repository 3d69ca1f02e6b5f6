/-
# Labels of domains

A domain consists of labels with dots between them.  A label beyond ASCII is written in its code,
after `xn--`.  No label may start with a mark that belongs to the character before it, a joiner must
stand between characters that it joins, and where a domain holds text from right to left, each label
keeps to one direction.
-/

import SchemaAssist.Character.Composition
import SchemaAssist.Character.Direction
import SchemaAssist.Character.Fold
import SchemaAssist.Character.Joining
import SchemaAssist.Character.Mark
import SchemaAssist.Location.LabelCode

namespace SchemaAssist

/-- A label: its characters, and as it is written in ASCII. -/
structure Label where
  chars : List Char
  written : List Char
  deriving DecidableEq, Repr

namespace Label

open Character (Direction Joining)

/-- What stands before the code of a label. -/
def codeMark : List Char := "xn--".toList

/-- The most characters of a code. -/
def maxCode : Nat := 2000

/-- The most characters of a label beyond ASCII. -/
def maxLength : Nat := 1000

/-- A character of ASCII. -/
def isAscii (c : Char) : Bool := c.toNat < 0x80

/-- Whether a text, read from its start, goes on with a character that joins as asked. -/
def joins (asked : List Joining) (cs : List Char) : Bool :=
  match cs.find? fun c => Character.joining c ≠ .through with
  | some c => asked.contains (Character.joining c)
  | none => false

/-- Whether a text, given in reverse, ends with a sign that joins two consonants. -/
def endsInJoiner (before : List Char) : Bool :=
  before.head?.any fun c => Character.combiningClass c = Character.joinerClass

/-- Whether each joiner stands where it may, given in reverse what stands before: both follow a sign
that joins consonants, and the one that keeps letters apart also stands between letters that would
join. -/
def joinersInPlace (before : List Char) : List Char → Bool
  | [] => true
  | c :: cs =>
    let inPlace :=
      if c = '\u200c' then
        endsInJoiner before || (joins [.both, .next] before && joins [.both, .previous] cs)
      else c ≠ '\u200d' || endsInJoiner before
    inPlace && joinersInPlace (c :: before) cs

/-- Whether characters beyond ASCII may be a label. -/
def mayStand (cs : List Char) : Bool := !cs.head?.any Character.isMark && joinersInPlace [] cs

/-- Reads a label of folded characters.  A code must be that of a label beyond ASCII, as it would be
folded and composed. -/
def read? (cs : List Char) : Option Label :=
  match Text.dropLead codeMark cs with
  | some code => do
    if code.isEmpty || code.getLast? = some '-' || maxCode < code.length || !code.all isAscii then
      none
    let label ← LabelCode.decode? code
    let isFolded := label.all (Character.fold · = .kept) && Character.compose label = label
    if isFolded && mayStand label then some ⟨label, cs⟩ else none
  | none =>
    if cs.all isAscii then some ⟨cs, cs⟩
    else if cs.length ≤ maxLength && mayStand cs then
      some ⟨cs, codeMark ++ LabelCode.encode cs⟩
    else none

/-- A label holds text from right to left. -/
def holdsRightToLeft (l : Label) : Bool :=
  l.chars.any fun c => !isAscii c &&
    [Direction.rightToLeft, .arabicDigit].contains (Character.direction c)

/-- Whether all directions after the first are among some, and the last one that is not a mark is
among those that may end a label. -/
def keepsTo (inside last directions : List Direction) : Bool :=
  directions.all inside.contains &&
    (directions.reverse.find? (· ≠ .mark)).all last.contains

/-- Whether a label keeps to the direction of its first character, and to one kind of digits where
that is from right to left. -/
def keepsDirection (l : Label) : Bool :=
  match l.chars.map Character.direction with
  | [] => true
  | .leftToRight :: ds =>
    keepsTo [.leftToRight, .digit, .neutral, .mark] [.leftToRight, .digit] ds
  | .rightToLeft :: ds =>
    keepsTo [.rightToLeft, .digit, .arabicDigit, .neutral, .mark]
      [.rightToLeft, .digit, .arabicDigit] ds &&
    !(ds.contains .digit && ds.contains .arabicDigit)
  | _ => false

/-- Whether the labels of a domain keep their directions, which counts where one of them holds text
from right to left. -/
def keepDirections (ls : List Label) : Bool :=
  !ls.any holdsRightToLeft || ls.all keepsDirection

end Label
end SchemaAssist
