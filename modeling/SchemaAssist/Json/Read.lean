/-
# Reading JSON

A text is read as one JSON value with nothing but blanks around it.
-/

import SchemaAssist.Json
import SchemaAssist.Text.Space

namespace SchemaAssist
namespace Json

/-- What follows blanks. -/
def skip (cs : List Char) : List Char := cs.dropWhile Text.isSpace

/-- The value of a hexadecimal digit. -/
def hexValue? (c : Char) : Option Nat :=
  if c.isDigit then some (c.toNat - '0'.toNat)
  else if 'a' ≤ c ∧ c ≤ 'f' then some (c.toNat - 'a'.toNat + 10)
  else if 'A' ≤ c ∧ c ≤ 'F' then some (c.toNat - 'A'.toNat + 10)
  else none

/-- The character that a letter after a backslash stands for. -/
def escaped? : Char → Option Char
  | '"' => some '"'
  | '\\' => some '\\'
  | '/' => some '/'
  | 'b' => some '\x08'
  | 'f' => some '\x0c'
  | 'n' => some '\n'
  | 'r' => some '\r'
  | 't' => some '\t'
  | _ => none

/-- The content of a string up to its quote, as characters and as numbered UTF-16 units, and what
follows. -/
def stringUnits : List Char → Option (List (Char ⊕ Nat) × List Char)
  | [] => none
  | '"' :: rest => some ([], rest)
  | '\\' :: 'u' :: a :: b :: c :: d :: rest => do
    let n := 4096 * (← hexValue? a) + 256 * (← hexValue? b) + 16 * (← hexValue? c) + (← hexValue? d)
    let (units, rest) ← stringUnits rest
    return (.inr n :: units, rest)
  | '\\' :: c :: rest => do
    let c ← escaped? c
    let (units, rest) ← stringUnits rest
    return (.inl c :: units, rest)
  | c :: rest => do
    if c.toNat < 0x20 then none
    let (units, rest) ← stringUnits rest
    return (.inl c :: units, rest)

/-- The text of characters and units, whose halves of pairs must meet. -/
def textOf? : List (Char ⊕ Nat) → Option (List Char)
  | [] => some []
  | .inl c :: rest => (textOf? rest).map (c :: ·)
  | .inr n :: .inr m :: rest =>
    if 0xD800 ≤ n ∧ n < 0xDC00 ∧ 0xDC00 ≤ m ∧ m < 0xE000 then
      (textOf? rest).map (Char.ofNat (0x10000 + 1024 * (n - 0xD800) + (m - 0xDC00)) :: ·)
    else if 0xD800 ≤ n ∧ n < 0xE000 then none
    else (textOf? (.inr m :: rest)).map (Char.ofNat n :: ·)
  | .inr n :: rest =>
    if 0xD800 ≤ n ∧ n < 0xE000 then none else (textOf? rest).map (Char.ofNat n :: ·)

/-- A string after its first quote, and what follows. -/
def string? (cs : List Char) : Option (Option String × List Char) := do
  let (units, rest) ← stringUnits cs
  return ((textOf? units).map String.ofList, rest)

/-- Digits, of which there must be some, and what follows. -/
def digits? (cs : List Char) : Option (List Char × List Char) :=
  match cs.takeWhile Char.isDigit with
  | [] => none
  | ds => some (ds, cs.dropWhile Char.isDigit)

/-- The places after a point, if there are any, and what follows. -/
def places? : List Char → Option (List Char × List Char)
  | '.' :: cs => (digits? cs).map fun (ds, rest) => ('.' :: ds, rest)
  | cs => some ([], cs)

/-- The exponent, if there is one, and what follows. -/
def exponent? : List Char → Option (List Char × List Char)
  | [] => some ([], [])
  | e :: cs =>
    if e = 'e' || e = 'E' then
      match cs with
      | '+' :: cs => (digits? cs).map fun (ds, rest) => (e :: '+' :: ds, rest)
      | '-' :: cs => (digits? cs).map fun (ds, rest) => (e :: '-' :: ds, rest)
      | cs => (digits? cs).map fun (ds, rest) => (e :: ds, rest)
    else some ([], e :: cs)

/-- A number without a sign, whose first digit is zero only if it is the only one, and what
follows. -/
def unsigned? (cs : List Char) : Option (List Char × List Char) := do
  let (whole, cs) ← digits? cs
  if whole.head? = some '0' ∧ 1 < whole.length then none
  let (places, cs) ← places? cs
  let (exponent, cs) ← exponent? cs
  return (whole ++ places ++ exponent, cs)

/-- A number, and what follows. -/
def number? : List Char → Option (Json × List Char)
  | '-' :: cs =>
    (unsigned? cs).map fun (written, rest) => (number (String.ofList ('-' :: written)), rest)
  | cs => (unsigned? cs).map fun (written, rest) => (number (String.ofList written), rest)

/-- A value that is a word or a number, and what follows. -/
def plain? (cs : List Char) : Option (Json × List Char) :=
  match Text.dropLead "null".toList cs with
  | some rest => some (null, rest)
  | none =>
    match Text.dropLead "true".toList cs with
    | some rest => some (bool true, rest)
    | none =>
      match Text.dropLead "false".toList cs with
      | some rest => some (bool false, rest)
      | none => number? cs

mutual

/-- A value after blanks, and what follows.  `room` bounds the nesting. -/
def value? : (room : Nat) → List Char → Option (Json × List Char)
  | 0, _ => none
  | room + 1, cs =>
    match skip cs with
    | '"' :: cs => (string? cs).map fun (s, rest) => (string s, rest)
    | '[' :: cs =>
      match skip cs with
      | ']' :: rest => some (array [], rest)
      | cs => (items? room cs).map fun (vs, rest) => (array vs, rest)
    | '\x7b' :: cs =>
      match skip cs with
      | '\x7d' :: rest => some (object [], rest)
      | cs => (members? room cs).map fun (ms, rest) => (object ms, rest)
    | cs => plain? cs

/-- The items of an array up to its bracket, and what follows. -/
def items? : (room : Nat) → List Char → Option (List Json × List Char)
  | 0, _ => none
  | room + 1, cs => do
    let (v, cs) ← value? room cs
    match skip cs with
    | ',' :: cs =>
      let (vs, rest) ← items? room cs
      return (v :: vs, rest)
    | ']' :: rest => return ([v], rest)
    | _ => none

/-- The members of an object up to its brace, and what follows. -/
def members? : (room : Nat) → List Char → Option (List (Option String × Json) × List Char)
  | 0, _ => none
  | room + 1, cs => do
    match skip cs with
    | '"' :: cs =>
      let (key, cs) ← string? cs
      match skip cs with
      | ':' :: cs =>
        let (v, cs) ← value? room cs
        match skip cs with
        | ',' :: cs =>
          let (ms, rest) ← members? room cs
          return ((key, v) :: ms, rest)
        | '\x7d' :: rest => return ([(key, v)], rest)
        | _ => none
      | _ => none
    | _ => none

end

/-- Reads one value with nothing but blanks around it.  Each level of nesting takes a character and
two steps. -/
def read? (s : String) : Option Json := do
  let cs := s.toList
  let (v, rest) ← value? (2 * cs.length + 2) cs
  if (skip rest).isEmpty then return v else none

end Json
end SchemaAssist
