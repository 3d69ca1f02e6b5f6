/-
# Replaying a list of elements

A list of elements is replayed through a content model one by one; what may come after it is then
read off the state reached.  Only a few things are asked of a content model, so that any can be
replayed (`Replayable`).
-/

import SchemaAssist.ContentModel.Compile

namespace SchemaAssist

open ContentModel (Term Variant)

/-- What a replay asks of a content model with states `σ`. -/
structure Replayable (σ : Type) where
  /-- The state before the first element. -/
  start : σ
  /-- The state after one more element and the term that matched it. -/
  step : σ → Name → Option (σ × Term)
  /-- The name under which an element without a step is rejected. -/
  rejectedAs : σ → Name → Name := fun _ n => n
  /-- The terms that may come next. -/
  candidates : σ → List Term
  /-- The variant of the model. -/
  variant : Variant
  /-- The members without an upper bound of an unordered group. -/
  unboundedMembers : List Term

namespace Replayable

variable {σ : Type}

/-- An element that does not fit: how many came before it, and the name it is rejected under. -/
structure Rejection where
  position : Nat
  name : Name
  deriving DecidableEq, Repr

/-- The wording of a rejection. -/
def Rejection.message (r : Rejection) : String :=
  s!"child '{r.name}' at position {r.position} is not allowed by the content model"

/-- The state after some elements, the first of which is the `position`-th; the first one that does
not fit is the error. -/
def runFrom (m : Replayable σ) (st : σ) (position : Nat) : List Name → Except Rejection σ
  | [] => .ok st
  | n :: ns =>
    match m.step st n with
    | some (st, _) => m.runFrom st (position + 1) ns
    | none => .error ⟨position, m.rejectedAs st n⟩

/-- The state after a list of elements. -/
def run (m : Replayable σ) (names : List Name) : Except Rejection σ := m.runFrom m.start 0 names

/-- The terms offered in a state: those that may come next and, in an unordered group of the later
version, the members without an upper bound. -/
def offered (m : Replayable σ) (st : σ) : List Term :=
  match m.variant with
  | .standard => distinct (m.candidates st)
  | .unordered11 => addAllNew (distinct (m.candidates st)) m.unboundedMembers

/-- The terms that may come after a list of elements. -/
def nextTerms (m : Replayable σ) (names : List Name) : Except Rejection (List Term) :=
  m.offered <$> m.run names

end Replayable

/-- A compiled content model can be replayed. -/
def ContentModel.Automaton.replayable (m : ContentModel.Automaton) :
    Replayable ContentModel.Progress where
  start := m.start
  step := m.step
  candidates := m.candidates
  variant := m.variant
  unboundedMembers := m.unboundedMembers

end SchemaAssist
