/-
# The code of labels beyond ASCII

A label with characters beyond ASCII is written as its ASCII characters, a hyphen, and digits to the
base 36 that say where the others stand: for each of them, in the order of code points and then of
places, the number of places passed over since the one before.
-/

namespace SchemaAssist
namespace LabelCode

/-- The digit for a value. -/
def digit (n : Nat) : Char := if n < 26 then Char.ofNat (97 + n) else Char.ofNat (22 + n)

/-- The value of a digit. -/
def digitValue? (c : Char) : Option Nat :=
  if c.isLower then some (c.toNat - 97)
  else if c.isUpper then some (c.toNat - 65)
  else if c.isDigit then some (c.toNat - 22)
  else none

/-- The value of a digit is read back from it. -/
theorem digitValue?_digit {n : Nat} (h : n < 36) : digitValue? (digit n) = some n := by
  have all : ∀ m ∈ List.range 36, digitValue? (digit m) = some m := by decide
  exact all n (List.mem_range.2 h)

/-- Digits below this value end a numeral, given how far into it they stand. -/
def threshold (bias k : Nat) : Nat :=
  if k ≤ bias then 1 else if bias + 26 ≤ k then 26 else k - bias

theorem one_le_threshold (bias k : Nat) : 1 ≤ threshold bias k := by
  unfold threshold; grind

theorem threshold_le (bias k : Nat) : threshold bias k ≤ 26 := by
  unfold threshold; grind

/-- The next bias from a difference that is cut down until it is small. -/
def biasFrom (k delta : Nat) : Nat :=
  if 455 < delta then biasFrom (k + 36) (delta / 35) else k + 36 * delta / (delta + 38)
termination_by delta

/-- The bias after a difference, given the number of characters that stand now; the first difference
is damped more than others. -/
def nextBias (delta count : Nat) (first : Bool) : Nat :=
  let delta := if first then delta / 700 else delta / 2
  biasFrom 0 (delta + delta / count)

/-- The bias at the start. -/
def firstBias : Nat := 72

/-- The first code point beyond ASCII. -/
def firstPoint : Nat := 128

/-- The numeral of a difference under a bias, from place `k` on. -/
def numeral (bias k q : Nat) : List Char :=
  let t := threshold bias k
  if q < t then [digit q]
  else digit (t + (q - t) % (36 - t)) :: numeral bias (k + 36) ((q - t) / (36 - t))
termination_by q
decreasing_by
  have h₁ := one_le_threshold bias k
  have h₂ := Nat.div_le_self (q - threshold bias k) (36 - threshold bias k)
  omega

/-- Where writing a label stands: the places passed over, the bias, the characters written, and the
digits. -/
structure Writing where
  delta : Nat
  bias : Nat
  count : Nat
  digits : List Char

/-- Passes over a character of a label on the way to the places of code point `n`; `basic` is the
number of its ASCII characters. -/
def Writing.pass (basic n : Nat) (w : Writing) (c : Char) : Writing :=
  if c.toNat < n then { w with delta := w.delta + 1 }
  else if c.toNat = n then
    { delta := 0
      bias := nextBias w.delta (w.count + 1) (w.count = basic)
      count := w.count + 1
      digits := w.digits ++ numeral w.bias 36 w.delta }
  else w

/-- Writes the places of some code points of a label, in ascending order and from `n` on. -/
def Writing.points (basic : Nat) (label : List Char) : (n : Nat) → List Nat → Writing → Writing
  | _, [], w => w
  | n, p :: ps, w =>
    let w := { w with delta := w.delta + (p - n) * (w.count + 1) }
    let w := label.foldl (Writing.pass basic p) w
    Writing.points basic label (p + 1) ps { w with delta := w.delta + 1 }

/-- The code of a label. -/
def encode (label : List Char) : List Char :=
  let basic := label.filter (·.toNat < firstPoint)
  let more := ((label.map Char.toNat).filter (firstPoint ≤ ·)).mergeSort.eraseDups
  let w := Writing.points basic.length label firstPoint more ⟨0, firstBias, basic.length, []⟩
  basic ++ (if basic.isEmpty then [] else ['-']) ++ w.digits

/-- The bound of the numbers in a code. -/
def numberBound : Nat := 0x100000000

/-- Takes a numeral: the number so far with its value added, and what follows. -/
def takeNumeral? (bias : Nat) : (k weight number : Nat) → List Char → Option (Nat × List Char)
  | _, _, _, [] => none
  | k, weight, number, c :: cs => do
    let value ← digitValue? c
    let number := number + value * weight
    if numberBound ≤ number then none
    let t := threshold bias k
    if value < t then return (number, cs)
    let weight := weight * (36 - t)
    if numberBound ≤ weight then none
    takeNumeral? bias (k + 36) weight number cs

/-- A numeral has digits. -/
theorem length_lt_of_takeNumeral? {bias k weight number : Nat} {cs : List Char}
    {taken : Nat × List Char} (h : takeNumeral? bias k weight number cs = some taken) :
    taken.2.length < cs.length := by
  induction cs generalizing k weight number with
  | nil => simp [takeNumeral?] at h
  | cons c cs ih =>
    rw [takeNumeral?] at h
    cases hv : digitValue? c with
    | none => simp [hv] at h
    | some value =>
      simp only [hv, Option.bind_eq_bind, Option.bind_some] at h
      grind

/-- Reads the digits of a code, given the characters of the label that stand already: at code point
`n` and place `place`, under a bias. -/
def readDigits? (bias n place : Nat) (label : List Char) (cs : List Char) : Option (List Char) :=
  if cs.isEmpty then some label
  else
    match h : takeNumeral? bias 36 1 place cs with
    | none => none
    | some (number, rest) =>
      let count := label.length + 1
      let n := n + number / count
      if n.isValidChar then
        have := length_lt_of_takeNumeral? h
        readDigits? (nextBias (number - place) count (place = 0)) n (number % count + 1)
          (label.insertIdx (number % count) (Char.ofNat n)) rest
      else none
termination_by cs.length

/-- The label of a code; `none` if it is the code of none. -/
def decode? (code : List Char) : Option (List Char) :=
  let digits := (code.reverse.takeWhile (· ≠ '-')).reverse
  let basic := code.take (code.length - digits.length - 1)
  if basic.isEmpty && code.contains '-' then none
  else readDigits? firstBias firstPoint 0 basic digits

example : encode "m\u00fcnchen".toList = "mnchen-3ya".toList := by decide +kernel
example : decode? "mnchen-3ya".toList = some "m\u00fcnchen".toList := by decide +kernel

end LabelCode
end SchemaAssist
