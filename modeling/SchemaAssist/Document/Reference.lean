/-
# Character references in attribute values

An attribute value of an editor document may hold references to characters, by name or by number.
They are replaced all together: one reference that is unknown, not ended or out of range leaves the
whole value as it is written.
-/

namespace SchemaAssist
namespace Document

/-- The value of a hexadecimal digit. -/
def hexValue? (c : Char) : Option Nat :=
  if c.isDigit then some (c.toNat - '0'.toNat)
  else if 'a' ≤ c ∧ c ≤ 'f' then some (c.toNat - 'a'.toNat + 10)
  else if 'A' ≤ c ∧ c ≤ 'F' then some (c.toNat - 'A'.toNat + 10)
  else none

/-- The value of a decimal digit. -/
def decimalValue? (c : Char) : Option Nat :=
  if c.isDigit then some (c.toNat - '0'.toNat) else none

/-- The number that digits of a base write, zero if there are none. -/
def numberOf? (base : Nat) (digit? : Char → Option Nat) (cs : List Char) : Option Nat :=
  cs.foldl (fun n? c => do return base * (← n?) + (← digit? c)) (some 0)

/-- The character of a code point other than zero; surrogates have none. -/
def charOf? (n : Nat) : Option Char :=
  if n = 0 then none else if h : n.isValidChar then some (Char.ofNatAux n h) else none

/-- The character that a number in a reference denotes: up to six hexadecimal digits after an `x`,
or up to seven decimal digits. -/
def numbered? : List Char → Option Char
  | 'x' :: cs => if 6 < cs.length then none else (numberOf? 16 hexValue? cs).bind charOf?
  | cs => if 7 < cs.length then none else (numberOf? 10 decimalValue? cs).bind charOf?

/-- The character that a reference denotes, given what stands between `&` and `;`. -/
def referenced? : List Char → Option Char
  | '#' :: cs => numbered? cs
  | cs =>
    match String.ofList cs with
    | "lt" => some '<'
    | "gt" => some '>'
    | "amp" => some '&'
    | "apos" => some '\''
    | "quot" => some '"'
    | _ => none

/-- A text with its references replaced, where `reference` holds what has been read of one in
reverse; `none` if one cannot be. -/
def replaceFrom? : (reference : Option (List Char)) → List Char → Option (List Char)
  | none, [] => some []
  | some _, [] => none
  | none, c :: cs =>
    if c = '&' then replaceFrom? (some []) cs else (c :: ·) <$> replaceFrom? none cs
  | some read, c :: cs =>
    if c = ';' then
      match referenced? read.reverse with
      | some d => (d :: ·) <$> replaceFrom? none cs
      | none => none
    else if c = '&' then none
    else replaceFrom? (some (c :: read)) cs

/-- A value with its references replaced, or as written if one of them cannot be. -/
def replaceReferences (cs : List Char) : List Char := (replaceFrom? none cs).getD cs

/-- A value without `&` is as written. -/
theorem replaceReferences_eq_self {cs : List Char} (h : '&' ∉ cs) : replaceReferences cs = cs := by
  suffices replaceFrom? none cs = some cs by rw [replaceReferences, this, Option.getD_some]
  induction cs with
  | nil => rfl
  | cons c cs ih =>
    rw [List.mem_cons, not_or] at h
    rw [replaceFrom?, if_neg (Ne.symm h.1), ih h.2]
    rfl

end Document
end SchemaAssist
