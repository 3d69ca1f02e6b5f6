/-
# Occurrence bounds

A particle occurs at least `min` and at most `max` times.  The bounds come from the attributes
`minOccurs` and `maxOccurs`, which default to one.
-/

import SchemaAssist.Text.Blank
import SchemaAssist.Text.Numeral

namespace SchemaAssist

/-- Bounds on the number of occurrences; no `max` is unbounded. -/
structure Occurs where
  min : Nat
  max : Option Nat
  deriving DecidableEq, Repr, Inhabited

namespace Occurs

/-- Exactly once. -/
def once : Occurs := ⟨1, some 1⟩

/-- Any number of times. -/
def anyNumber : Occurs := ⟨0, none⟩

/-- A particle may be left out. -/
def emptiable (o : Occurs) : Bool := o.min == 0

/-- A particle may never occur. -/
def never (o : Occurs) : Bool := o.max == some 0

/-- A particle has no upper bound. -/
def unbounded (o : Occurs) : Bool := o.max.isNone

/-- A particle may occur more than once. -/
def multiple (o : Occurs) : Bool := o.max != some 0 && o.max != some 1

/-- `count` is below the lower bound. -/
def missing (o : Occurs) (count : Nat) : Bool := count < o.min

/-- `count` has reached the upper bound, so that no occurrence may follow. -/
def full (o : Occurs) (count : Nat) : Bool :=
  match o.max with
  | some max => max ≤ count
  | none => false

/-- The number of occurrences is not fixed: one more than `min` is allowed. -/
def repeatable (o : Occurs) : Bool :=
  match o.max with
  | some max => o.min < max
  | none => true

/-- The lower bound does not exceed the upper one. -/
def Valid (o : Occurs) : Prop := ∀ max ∈ o.max, o.min ≤ max

/-- `count` occurrences are within the bounds. -/
def Allows (o : Occurs) (count : Nat) : Prop := o.min ≤ count ∧ ∀ max ∈ o.max, count ≤ max

/-- Bounds are written in brackets, a star for no upper bound. -/
def toString (o : Occurs) : String :=
  match o.max with
  | some max => s!"[{o.min}..{max}]"
  | none => s!"[{o.min}..*]"

instance : ToString Occurs := ⟨Occurs.toString⟩

/-- Why a pair of attribute values is no pair of bounds. -/
inductive Invalid where
  /-- `minOccurs` is no count. -/
  | min (value : String)
  /-- `maxOccurs` is neither a count nor `unbounded`. -/
  | max (value : String)
  /-- `maxOccurs` is below `minOccurs`. -/
  | maxBelowMin
  /-- `minOccurs` is above the default of a missing `maxOccurs`. -/
  | minAboveDefault
  deriving DecidableEq, Repr

/-- The wording of a refusal. -/
def Invalid.message : Invalid → String
  | .min value => s!"minOccurs value '{value}' is not a valid non-negative integer"
  | .max value => s!"maxOccurs value '{value}' must be a non-negative integer or 'unbounded'"
  | .maxBelowMin => "maxOccurs must be 'unbounded' or greater than minOccurs"
  | .minAboveDefault => "minOccurs must be lesser or equal than maxOccurs"

/-- The lower bound that `minOccurs` gives. -/
def readMin : Option String → Except Invalid Nat
  | none => .ok 1
  | some value =>
    match Text.readCount? (Text.trim value) with
    | some min => .ok min
    | none => .error (.min value)

/-- The bounds with the given lower bound that `maxOccurs` gives. -/
def readMax (min : Nat) : Option String → Except Invalid Occurs
  | none => if 1 < min then .error .minAboveDefault else .ok ⟨min, some 1⟩
  | some value =>
    let value := Text.trim value
    if value = "unbounded" then .ok ⟨min, none⟩
    else match Text.readCount? value with
      | none => .error (.max value)
      | some max => if max < min then .error .maxBelowMin else .ok ⟨min, some max⟩

/-- The bounds that the attributes `minOccurs` and `maxOccurs` give; `minOccurs` is read first. -/
def read (minOccurs maxOccurs : Option String) : Except Invalid Occurs := do
  readMax (← readMin minOccurs) maxOccurs

theorem valid_of_readMax {min : Nat} {maxOccurs : Option String} {o : Occurs}
    (h : readMax min maxOccurs = .ok o) : o.Valid := by
  unfold readMax at h
  split at h
  · split at h <;> cases h
    rintro _ ⟨⟩
    exact Nat.le_of_not_lt ‹_›
  · dsimp only at h
    split at h
    · cases h
      rintro _ ⟨⟩
    · split at h
      · cases h
      · split at h <;> cases h
        rintro _ ⟨⟩
        exact Nat.le_of_not_lt ‹_›

/-- Bounds that were read are in order. -/
theorem valid_of_read {minOccurs maxOccurs : Option String} {o : Occurs}
    (h : read minOccurs maxOccurs = .ok o) : o.Valid := by
  unfold read at h
  cases hmin : readMin minOccurs with
  | error e => rw [hmin] at h; cases h
  | ok min => rw [hmin] at h; exact valid_of_readMax h

end Occurs
end SchemaAssist
