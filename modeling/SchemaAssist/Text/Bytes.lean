/-
# Bytes shown as text

Bytes that are no text are shown with a replacement character for each stretch of them that starts
no character, or a character that does not end.
-/

namespace SchemaAssist
namespace Text

/-- What the first byte of a character beyond ASCII says: its bits, the least and the largest byte
that may follow it, and how many more bytes follow that one. -/
def lead? (b : UInt8) : Option (Nat × UInt8 × UInt8 × Nat) :=
  if 0xC2 ≤ b ∧ b ≤ 0xDF then some (b.toNat % 32, 0x80, 0xBF, 0)
  else if b = 0xE0 then some (0, 0xA0, 0xBF, 1)
  else if b = 0xED then some (0xD, 0x80, 0x9F, 1)
  else if 0xE1 ≤ b ∧ b ≤ 0xEF then some (b.toNat % 16, 0x80, 0xBF, 1)
  else if b = 0xF0 then some (0, 0x90, 0xBF, 2)
  else if b = 0xF4 then some (4, 0x80, 0x8F, 2)
  else if 0xF1 ≤ b ∧ b ≤ 0xF3 then some (b.toNat % 8, 0x80, 0xBF, 2)
  else none

/-- Takes the bytes that follow in a character: the next lies between two bounds, and `more` come
after it.  Gives the character, or the replacement where it does not end, and the number of bytes
taken. -/
def takeCharacter (bits : Nat) (low high : UInt8) : (more : Nat) → List UInt8 → Char × Nat
  | _, [] => ('\ufffd', 0)
  | more, b :: bs =>
    if b < low ∨ high < b then ('\ufffd', 0)
    else
      let bits := 64 * bits + b.toNat % 64
      match more with
      | 0 => (Char.ofNat bits, 1)
      | more + 1 =>
        let (c, taken) := takeCharacter bits 0x80 0xBF more bs
        (c, taken + 1)

/-- The characters that bytes are shown as. -/
def shownBytes : List UInt8 → List Char
  | [] => []
  | b :: bs =>
    if b < 0x80 then Char.ofNat b.toNat :: shownBytes bs
    else match lead? b with
      | none => '\ufffd' :: shownBytes bs
      | some (bits, low, high, more) =>
        let (c, taken) := takeCharacter bits low high more bs
        c :: shownBytes (bs.drop taken)
termination_by bs => bs.length

end Text
end SchemaAssist
