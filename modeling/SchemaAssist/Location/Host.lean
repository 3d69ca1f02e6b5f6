/-
# Hosts of URLs

The host of a URL is a domain name, the number of a machine in one of two formats, or, for schemes
that say nothing of hosts, any text.  It is kept in the one form that it is written in.
-/

import SchemaAssist.Location.Label
import SchemaAssist.Location.Percent

namespace SchemaAssist
namespace Host

/-- Characters that no host may hold. -/
def forbidden (c : Char) : Bool :=
  ['\x00', '\t', '\n', '\r', ' ', '#', '/', ':', '<', '>', '?', '@', '[', '\\', ']', '^',
    '|'].contains c

/-- Characters that no domain may hold. -/
def forbiddenInDomain (c : Char) : Bool :=
  forbidden c || c.toNat < 0x20 || c = '%' || c.toNat = 0x7F

/-- The value of digits in a base, none of them standing for zero. -/
def digits? (base : Nat) (cs : List Char) : Option Nat :=
  cs.foldl (fun n? c => do
    let n ← n?
    let d ← Percent.digitValue? c
    if d < base then some (base * n + d) else none) (some 0)

/-- A part of an address: decimal, octal after a zero, or hexadecimal after `0x`. -/
def addressPart? : List Char → Option Nat
  | [] => none
  | '0' :: 'x' :: cs => digits? 16 cs
  | '0' :: 'X' :: cs => digits? 16 cs
  | '0' :: cs => digits? 8 cs
  | cs => digits? 10 cs

/-- The parts of a domain between dots, without an empty one at the end. -/
def labels (cs : List Char) : List (List Char) :=
  let ps := Text.piecesList '.' cs
  if 1 < ps.length ∧ ps.getLast? = some [] then ps.dropLast else ps

/-- Whether the last part of a domain is a number, so that the whole must be an address. -/
def endsInNumber (cs : List Char) : Bool :=
  match (labels cs).getLast? with
  | some last => (!last.isEmpty && last.all Char.isDigit) ||
      (match last with
        | '0' :: 'x' :: _ => (addressPart? last).isSome
        | '0' :: 'X' :: _ => (addressPart? last).isSome
        | _ => false)
  | none => false

/-- The value of the parts of an address, the last of which fills all bytes that are left. -/
def addressValue? : (room : Nat) → List Nat → Option Nat
  | _, [] => none
  | room, [last] => if last < Nat.pow 256 room then some last else none
  | 0, _ => none
  | room + 1, n :: ns =>
    if n < 256 then (addressValue? room ns).map fun rest => n * Nat.pow 256 room + rest else none

/-- An address in its usual form. -/
def addressText (n : Nat) : String :=
  ".".intercalate ([n / 0x1000000, n / 0x10000 % 256, n / 256 % 256, n % 256].map toString)

/-- The usual form of an address of four bytes. -/
def address? (cs : List Char) : Option String := do
  let parts ← (labels cs).mapM addressPart?
  if 4 < parts.length then none
  return addressText (← addressValue? 4 parts)

/-- A group of an address of eight groups: one to four hexadecimal digits. -/
def group? (cs : List Char) : Option Nat :=
  if cs.isEmpty ∨ 4 < cs.length then none else digits? 16 cs

/-- The two groups of an address of four bytes at the end of one of eight groups. -/
def tail? (cs : List Char) : Option (List Nat) := do
  let parts := Text.piecesList '.' cs
  if parts.length ≠ 4 then none
  let bytes ← parts.mapM fun p =>
    if p.isEmpty ∨ (p.head? = some '0' ∧ 1 < p.length) then none
    else (digits? 10 p).filter (· < 256)
  match bytes with
  | [a, b, c, d] => some [256 * a + b, 256 * c + d]
  | _ => none

/-- The groups between colons, the last of which may be an address of four bytes. -/
def groups? (cs : List Char) : Option (List Nat) :=
  if cs.isEmpty then some []
  else go (Text.piecesList ':' cs)
where
  /-- The groups that pieces between colons stand for. -/
  go : List (List Char) → Option (List Nat)
    | [] => some []
    | [p] => if p.contains '.' then tail? p else (group? p).map fun n => [n]
    | p :: ps => do return (← group? p) :: (← go ps)

/-- What stands before and after the first two colons in a row. -/
def cutDoubleColon : List Char → Option (List Char × List Char)
  | ':' :: ':' :: cs => some ([], cs)
  | c :: cs => (cutDoubleColon cs).map fun (before, after) => (c :: before, after)
  | [] => none

/-- The eight groups of an address; two colons stand for one or more groups of zero. -/
def eightGroups? (cs : List Char) : Option (List Nat) :=
  match cutDoubleColon cs with
  | none => (groups? cs).filter (·.length = 8)
  | some (before, after) => do
    if before.contains '.' then none
    let front ← groups? before
    let back ← groups? after
    let given := front.length + back.length
    if 7 < given then none
    return front ++ List.replicate (8 - given) 0 ++ back

/-- The length of the run of zeros at the start of a list. -/
def zeros (ns : List Nat) : Nat := (ns.takeWhile (· = 0)).length

/-- The start and the length of the first longest run of zeros. -/
def longestZeros : List Nat → Nat × Nat
  | [] => (0, 0)
  | n :: ns =>
    let (start, length) := longestZeros ns
    if length ≤ zeros (n :: ns) ∧ n = 0 then (0, zeros (n :: ns)) else (start + 1, length)

/-- A number in hexadecimal digits, small letters. -/
def hexText (n : Nat) : String := String.ofList (Nat.toDigits 16 n)

/-- Groups between colons. -/
def groupsText (ns : List Nat) : String := ":".intercalate (ns.map hexText)

/-- Eight groups in their usual form: the first longest run of two or more zeros becomes two
colons. -/
def eightGroupsText (ns : List Nat) : String :=
  let (start, length) := longestZeros ns
  if length < 2 then groupsText ns
  else groupsText (ns.take start) ++ "::" ++ groupsText (ns.drop (start + length))

/-- The form of an address in brackets. -/
def bracketed? (cs : List Char) : Option String :=
  if cs.getLast? ≠ some ']' then none
  else (eightGroups? cs.dropLast).map fun ns => "[" ++ eightGroupsText ns ++ "]"

/-- The form of a domain or of an address of four bytes.  The name is folded and composed before it
is cut into labels, so that what stands for a dot is one. -/
def domain? (cs : List Char) : Option String := do
  let text ← Percent.text? (Percent.decode cs)
  let name := Character.compose (← Character.foldAll? text.toList)
  if name.any forbiddenInDomain then none
  let ls ← (Text.piecesList '.' name).mapM Label.read?
  if !Label.keepDirections ls then none
  let domain := ['.'].intercalate (ls.map (·.written))
  if domain.isEmpty then none
  if endsInNumber domain then address? domain else return String.ofList domain

/-- The form of the host of a scheme that knows hosts. -/
def special? : List Char → Option String
  | '[' :: cs => bracketed? cs
  | cs => domain? cs

/-- The form of the host of a scheme that knows nothing of hosts. -/
def opaque? : List Char → Option String
  | '[' :: cs => bracketed? cs
  | cs => if cs.any forbidden then none else some (String.ofList (Percent.encode [] cs))

end Host
end SchemaAssist
