/-
# The places of a progress

A progress is walked along its tree: the particle that a sequence is at, the one that a choice has
taken, each one of an unordered group with the member in the same position (`Node.places`).  After
any number of steps every place is well formed (`Automaton.wellFormed_of_run`).  So all indices are
those of particles, the walk passes every part of the progress, and no count exceeds its bound or
the number of elements taken.  Nothing is asked of the tree, not even that its bounds are in order.
-/

import SchemaAssist.Proofs.Steps

namespace SchemaAssist
namespace ContentModel

namespace Progress

mutual

/-- A progress and all that it is made of. -/
def parts : Progress → List Progress
  | leaf k => [leaf k]
  | sequence k i cur => sequence k i cur :: cur.parts
  | choice k i cur => choice k i cur :: cur.parts
  | all k sts => all k sts :: partsOf sts

/-- Several progresses and all that they are made of. -/
def partsOf : List Progress → List Progress
  | [] => []
  | st :: sts => st.parts ++ partsOf sts

end
end Progress

namespace Node

mutual

/-- The places that a progress has come to, from the root down: each particle under way with the
progress through it. -/
def places : Node → Progress → List (Node × Progress)
  | n@(group _ _ cs), st => (n, st) :: match st with
      | .leaf _ => []
      | .sequence _ i cur => placesAt cs i cur
      | .choice _ i cur => placesAt cs i cur
      | .all _ sts => placesEach cs sts
  | n, st => [(n, st)]

/-- The places inside the particle at an index. -/
def placesAt : List Node → Nat → Progress → List (Node × Progress)
  | [], _, _ => []
  | c :: _, 0, st => places c st
  | _ :: cs, i + 1, st => placesAt cs i st

/-- The places inside each particle, as far as there are progresses. -/
def placesEach : List Node → List Progress → List (Node × Progress)
  | c :: cs, st :: sts => places c st ++ placesEach cs sts
  | _, _ => []

end

/-- The places inside the occurrence of a group under way. -/
def placesInside (cs : List Node) : Progress → List (Node × Progress)
  | .leaf _ => []
  | .sequence _ i cur => placesAt cs i cur
  | .choice _ i cur => placesAt cs i cur
  | .all _ sts => placesEach cs sts

/-- A progress has the shape of its particle.  Something is inside exactly if the particle is a group
that has occurred, and it is of the kind of the group: a particle that has occurred too, or one
member for each particle. -/
def Shaped : Node → Progress → Prop
  | group _ .sequence cs, .sequence k i cur => 0 < k ∧ i < cs.length ∧ 0 < cur.count
  | group _ .choice cs, .choice k i cur => 0 < k ∧ i < cs.length ∧ 0 < cur.count
  | group _ .all cs, .all k sts => 0 < k ∧ sts.length = cs.length
  | group .., .leaf k => k = 0
  | _, .leaf _ => True
  | _, _ => False

/-- What holds at a place after `elements` elements. -/
structure WellPlaced (elements : Nat) (n : Node) (st : Progress) : Prop where
  count_le : st.count ≤ elements
  within : n.occurs.Within st.count
  shaped : n.Shaped st

/-- Every place of a progress is as it has to be after `elements` elements. -/
def WellFormed (elements : Nat) (n : Node) (st : Progress) : Prop :=
  ∀ p ∈ n.places st, WellPlaced elements p.1 p.2

theorem WellPlaced.mono {j k : Nat} {n : Node} {st : Progress} (h : WellPlaced j n st)
    (hjk : j ≤ k) : WellPlaced k n st := ⟨h.count_le.trans hjk, h.within, h.shaped⟩

section Lists

variable {o : Occurs} {c : Compositor} {cs : List Node} {n : Node} {st : Progress}

theorem places_group : (group o c cs).places st = (group o c cs, st) :: placesInside cs st := by
  cases st <;> rfl

theorem places_of_leaf {s : Symbol} (hs : n.symbol? = some s) : n.places st = [(n, st)] := by
  cases n <;> cases hs <;> rfl

/-- Before its first occurrence a particle is the only place. -/
theorem places_fresh (n : Node) : n.places .fresh = [(n, .fresh)] := by
  cases n <;> rfl

theorem self_mem_places (n : Node) (st : Progress) : (n, st) ∈ n.places st := by
  cases n <;> exact List.mem_cons_self

theorem wellFormed_fresh (k : Nat) (n : Node) : n.WellFormed k .fresh := by
  intro p hp
  rw [places_fresh, List.mem_singleton] at hp
  subst hp
  refine ⟨Nat.zero_le k, fun _ _ => Nat.zero_le _, ?_⟩
  cases n with
  | group o c cs => cases c <;> rfl
  | _ => trivial

theorem WellFormed.self {k : Nat} (h : n.WellFormed k st) : WellPlaced k n st :=
  h _ (self_mem_places n st)

theorem placesEach_fresh (cs : List Node) :
    placesEach cs (cs.map fun _ => .fresh) = cs.map fun c => (c, .fresh) := by
  induction cs with
  | nil => rfl
  | cons c cs ih =>
    rw [List.map_cons, placesEach, places_fresh, ih]
    rfl

end Lists

/-! ### Steps -/

section Steps

variable {name : Name} {cs : List Node} {k i i' : Nat} {st st' : Progress} {sts sts' : List Progress}
  {t : Term}

/-- A step of a tree keeps its places well formed, and an element more has been taken. -/
def StepKeepsForm (name : Name) (n : Node) : Prop :=
  ∀ k st st' t, n.WellFormed k st → n.step name st = some (st', t) →
    n.WellFormed (k + 1) st' ∧ 0 < st'.count

variable (hcs : ∀ c ∈ cs, StepKeepsForm name c)

include hcs

theorem wellFormed_sequenceStep (hst : ∀ p ∈ placesAt cs i st, WellPlaced k p.1 p.2)
    (h : sequenceStep name cs i st = some (i', st', t)) :
    (∀ p ∈ placesAt cs i' st', WellPlaced (k + 1) p.1 p.2) ∧ i' < cs.length ∧ 0 < st'.count := by
  induction cs generalizing i i' st with
  | nil => cases h
  | cons c cs ih =>
    rw [List.forall_mem_cons] at hcs
    cases i with
    | zero =>
      rcases sequenceStep_zero_cases h with ⟨hstep, rfl⟩ | ⟨-, j, hlater, rfl⟩
      · obtain ⟨hplaces, hcount⟩ := hcs.1 k st st' t hst hstep
        exact ⟨hplaces, Nat.zero_lt_succ _, hcount⟩
      · have hfresh : ∀ p ∈ placesAt cs 0 .fresh, WellPlaced k p.1 p.2 := by
          cases cs with
          | nil => nofun
          | cons d cs => exact wellFormed_fresh k d
        obtain ⟨hplaces, hindex, hcount⟩ := ih hcs.2 hfresh hlater
        exact ⟨hplaces, Nat.succ_lt_succ hindex, hcount⟩
    | succ i =>
      rw [sequenceStep] at h
      obtain ⟨⟨j, st₁, t₁⟩, hlater, hfound⟩ := Option.map_eq_some_iff.1 h
      cases hfound
      obtain ⟨hplaces, hindex, hcount⟩ := ih hcs.2 hst hlater
      exact ⟨hplaces, Nat.succ_lt_succ hindex, hcount⟩

/-- At its start a sequence has no place that is not as it has to be. -/
theorem wellFormed_sequenceStep_fresh (h : sequenceStep name cs 0 .fresh = some (i', st', t)) :
    (∀ p ∈ placesAt cs i' st', WellPlaced (k + 1) p.1 p.2) ∧ i' < cs.length ∧ 0 < st'.count := by
  refine wellFormed_sequenceStep hcs ?_ h
  cases cs with
  | nil => nofun
  | cons c cs => exact wellFormed_fresh k c

theorem wellFormed_branchStep (hst : ∀ p ∈ placesAt cs i st, WellPlaced k p.1 p.2)
    (h : branchStep name cs i st = some (st', t)) :
    (∀ p ∈ placesAt cs i st', WellPlaced (k + 1) p.1 p.2) ∧ 0 < st'.count := by
  induction cs generalizing i with
  | nil => cases h
  | cons c cs ih =>
    rw [List.forall_mem_cons] at hcs
    cases i with
    | zero => exact hcs.1 k st st' t hst h
    | succ i => exact ih hcs.2 hst h

theorem wellFormed_choiceStep (h : choiceStep name cs = some ((i, st'), t)) :
    (∀ p ∈ placesAt cs i st', WellPlaced (k + 1) p.1 p.2) ∧ i < cs.length ∧ 0 < st'.count := by
  induction cs generalizing i with
  | nil => cases h
  | cons c cs ih =>
    rw [List.forall_mem_cons] at hcs
    rw [choiceStep] at h
    rcases preferElement_eq_some h with h | h
    · obtain ⟨⟨st₁, t₁⟩, hstep, hfound⟩ := Option.map_eq_some_iff.1 h
      cases hfound
      obtain ⟨hplaces, hcount⟩ := hcs.1 k .fresh _ _ (wellFormed_fresh k c) hstep
      exact ⟨hplaces, Nat.zero_lt_succ _, hcount⟩
    · obtain ⟨⟨⟨j, st₁⟩, t₁⟩, hlater, hfound⟩ := Option.map_eq_some_iff.1 h
      cases hfound
      obtain ⟨hplaces, hindex, hcount⟩ := ih hcs.2 hlater
      exact ⟨hplaces, Nat.succ_lt_succ hindex, hcount⟩

theorem wellFormed_allStep (hst : ∀ p ∈ placesEach cs sts, WellPlaced k p.1 p.2)
    (h : allStep name cs sts = some (sts', t)) :
    (∀ p ∈ placesEach cs sts', WellPlaced (k + 1) p.1 p.2) ∧ sts'.length = sts.length := by
  induction cs generalizing sts sts' t with
  | nil => cases sts <;> cases h
  | cons c cs ih =>
    cases sts with
    | nil => cases h
    | cons st sts =>
      rw [List.forall_mem_cons] at hcs
      rw [placesEach, List.forall_mem_append] at hst
      rw [allStep] at h
      rcases preferElement_eq_some h with h | h
      · obtain ⟨⟨st₁, t₁⟩, hstep, hfound⟩ := Option.map_eq_some_iff.1 h
        cases hfound
        rw [placesEach, List.forall_mem_append]
        exact ⟨⟨(hcs.1 k st _ _ hst.1 hstep).1, fun p hp => (hst.2 p hp).mono k.le_succ⟩, rfl⟩
      · obtain ⟨⟨sts₁, t₁⟩, hlater, hfound⟩ := Option.map_eq_some_iff.1 h
        cases hfound
        obtain ⟨hplaces, hlength⟩ := ih hcs.2 hst.2 hlater
        rw [placesEach, List.forall_mem_append]
        exact ⟨⟨fun p hp => (hst.1 p hp).mono k.le_succ, hplaces⟩, congrArg (· + 1) hlength⟩

/-- A step inside an occurrence keeps the places inside and the number of occurrences. -/
theorem wellFormed_stepInside {o : Occurs} {c : Compositor} (hst : (group o c cs).WellFormed k st)
    (h : stepInside name cs st = some (st', t)) :
    (∀ p ∈ placesInside cs st', WellPlaced (k + 1) p.1 p.2) ∧ (group o c cs).Shaped st' ∧
      st'.count = st.count ∧ 0 < st.count := by
  have hshaped := hst.self.shaped
  rw [WellFormed, places_group, List.forall_mem_cons] at hst
  cases st with
  | leaf j => cases h
  | sequence j i cur =>
    cases c <;> simp only [Shaped] at hshaped
    obtain ⟨⟨i', cur', t'⟩, hstep, hfound⟩ := Option.map_eq_some_iff.1 h
    cases hfound
    obtain ⟨hplaces, hindex, hcount⟩ := wellFormed_sequenceStep hcs hst.2 hstep
    exact ⟨hplaces, ⟨hshaped.1, hindex, hcount⟩, rfl, hshaped.1⟩
  | choice j i cur =>
    cases c <;> simp only [Shaped] at hshaped
    obtain ⟨⟨cur', t'⟩, hstep, hfound⟩ := Option.map_eq_some_iff.1 h
    cases hfound
    obtain ⟨hplaces, hcount⟩ := wellFormed_branchStep hcs hst.2 hstep
    exact ⟨hplaces, ⟨hshaped.1, hshaped.2.1, hcount⟩, rfl, hshaped.1⟩
  | all j sts =>
    cases c <;> simp only [Shaped] at hshaped
    obtain ⟨⟨sts', t'⟩, hstep, hfound⟩ := Option.map_eq_some_iff.1 h
    cases hfound
    obtain ⟨hplaces, hlength⟩ := wellFormed_allStep hcs hst.2 hstep
    exact ⟨hplaces, ⟨hshaped.1, hlength.trans hshaped.2⟩, rfl, hshaped.1⟩

/-- A step that starts an occurrence has all its places from there. -/
theorem wellFormed_stepAfresh {o : Occurs} {c : Compositor} {j : Nat}
    (h : stepAfresh name cs (j + 1) c = some (st', t)) :
    (∀ p ∈ placesInside cs st', WellPlaced (k + 1) p.1 p.2) ∧ (group o c cs).Shaped st' ∧
      st'.count = j + 1 := by
  cases c with
  | sequence =>
    obtain ⟨⟨i', cur', t'⟩, hstep, hfound⟩ := Option.map_eq_some_iff.1 h
    cases hfound
    obtain ⟨hplaces, hindex, hcount⟩ := wellFormed_sequenceStep_fresh hcs hstep
    exact ⟨hplaces, ⟨j.succ_pos, hindex, hcount⟩, rfl⟩
  | choice =>
    obtain ⟨⟨⟨i', cur'⟩, t'⟩, hstep, hfound⟩ := Option.map_eq_some_iff.1 h
    cases hfound
    obtain ⟨hplaces, hindex, hcount⟩ := wellFormed_choiceStep hcs hstep
    exact ⟨hplaces, ⟨j.succ_pos, hindex, hcount⟩, rfl⟩
  | all =>
    obtain ⟨⟨sts', t'⟩, hstep, hfound⟩ := Option.map_eq_some_iff.1 h
    cases hfound
    have hfresh : ∀ p ∈ placesEach cs (cs.map fun _ => .fresh), WellPlaced k p.1 p.2 := by
      rw [placesEach_fresh, List.forall_mem_map]
      exact fun c _ => (wellFormed_fresh k c).self
    obtain ⟨hplaces, hlength⟩ := wellFormed_allStep hcs hfresh hstep
    exact ⟨hplaces, ⟨j.succ_pos, hlength.trans (List.length_map _)⟩, rfl⟩

end Steps

/-- **A step keeps every place well formed**, and no count grows by more than one. -/
theorem stepKeepsForm (name : Name) (n : Node) : StepKeepsForm name n := by
  induction n using Node.induct with
  | leaf n s hs =>
    intro k st st' t hst h
    rw [step_leaf name hs] at h
    split at h
    next hstart =>
      obtain ⟨t₁, -, hfound⟩ := Option.map_eq_some_iff.1 h
      cases hfound
      rw [Bool.and_eq_true, canStart, Bool.and_eq_true, Bool.not_eq_true'] at hstart
      refine ⟨fun p hp => ?_, Nat.succ_pos _⟩
      rw [places_of_leaf hs, List.mem_singleton] at hp
      subst hp
      refine ⟨Nat.succ_le_succ hst.self.count_le, Occurs.full_eq_false_iff.1 hstart.1.1, ?_⟩
      cases n <;> cases hs <;> trivial
    next => cases h
  | group o c cs ih =>
    intro k st st' t hst h
    have hwithin := hst.self.within
    have hle := hst.self.count_le
    rw [WellFormed, places_group, List.forall_mem_cons]
    rw [step_group] at h
    rcases Option.or_eq_some_iff.1 h with h | ⟨-, h⟩
    · obtain ⟨hplaces, hshaped, hcount, hpos⟩ := wellFormed_stepInside ih hst h
      exact ⟨⟨⟨hcount ▸ hle.trans k.le_succ, hcount ▸ hwithin, hshaped⟩, hplaces⟩, hcount ▸ hpos⟩
    · split at h
      next hstart =>
        rw [canStart, Bool.and_eq_true, Bool.not_eq_true'] at hstart
        obtain ⟨hplaces, hshaped, hcount⟩ := wellFormed_stepAfresh (o := o) (k := k) ih h
        refine ⟨⟨⟨?_, ?_, hshaped⟩, hplaces⟩, hcount ▸ Nat.succ_pos _⟩
        · exact hcount ▸ Nat.succ_le_succ hle
        · exact hcount ▸ Occurs.full_eq_false_iff.1 hstart.1
      next => cases h

/-! ### Nothing is passed over -/

section Parts

variable {cs : List Node}

theorem map_placesAt {i : Nat} {st : Progress} (hi : i < cs.length)
    (hcs : ∀ c ∈ cs, (∀ p ∈ c.places st, p.1.Shaped p.2) → (c.places st).map Prod.snd = st.parts)
    (h : ∀ p ∈ placesAt cs i st, p.1.Shaped p.2) : (placesAt cs i st).map Prod.snd = st.parts := by
  induction cs generalizing i with
  | nil => cases hi
  | cons c cs ih =>
    rw [List.forall_mem_cons] at hcs
    cases i with
    | zero => exact hcs.1 h
    | succ i => exact ih (Nat.lt_of_succ_lt_succ hi) hcs.2 h

theorem map_placesEach {sts : List Progress} (hlength : sts.length = cs.length)
    (hcs : ∀ c ∈ cs, ∀ st, (∀ p ∈ c.places st, p.1.Shaped p.2) →
      (c.places st).map Prod.snd = st.parts)
    (h : ∀ p ∈ placesEach cs sts, p.1.Shaped p.2) :
    (placesEach cs sts).map Prod.snd = Progress.partsOf sts := by
  induction cs generalizing sts with
  | nil =>
    cases sts with
    | nil => rfl
    | cons st sts => cases hlength
  | cons c cs ih =>
    cases sts with
    | nil => cases hlength
    | cons st sts =>
      rw [List.forall_mem_cons] at hcs
      rw [placesEach, List.forall_mem_append] at h
      rw [placesEach, List.map_append, hcs.1 st h.1, ih (Nat.succ.inj hlength) hcs.2 h.2,
        Progress.partsOf]

/-- **The places of a progress of the right shape are all its parts.** -/
theorem map_places {n : Node} {st : Progress} (h : ∀ p ∈ n.places st, p.1.Shaped p.2) :
    (n.places st).map Prod.snd = st.parts := by
  induction n using Node.induct generalizing st with
  | leaf n s hs =>
    have hshaped := h _ (self_mem_places n st)
    rw [places_of_leaf hs]
    cases st with
    | leaf k => rfl
    | _ => cases n <;> cases hs <;> exact hshaped.elim
  | group o c cs ih =>
    have hshaped := h _ (self_mem_places _ st)
    rw [places_group, List.forall_mem_cons] at h
    rw [places_group, List.map_cons]
    cases st with
    | leaf k => rfl
    | sequence k i cur =>
      cases c <;> simp only [Shaped] at hshaped
      exact congrArg _ (map_placesAt hshaped.2.1 (fun c hc => ih c hc) h.2)
    | choice k i cur =>
      cases c <;> simp only [Shaped] at hshaped
      exact congrArg _ (map_placesAt hshaped.2.1 (fun c hc => ih c hc) h.2)
    | all k sts =>
      cases c <;> simp only [Shaped] at hshaped
      exact congrArg _ (map_placesEach hshaped.2 (fun c hc _ => ih c hc) h.2)

end Parts
end Node

namespace Automaton

variable {m : Automaton} {w : List Name}

theorem wellFormed_of_runFrom {k position : Nat} {st st' : Progress}
    (hst : m.root.WellFormed k st) (h : m.replayable.runFrom st position w = .ok st') :
    m.root.WellFormed (k + w.length) st' := by
  induction w generalizing k st position with
  | nil =>
    cases h
    exact hst
  | cons name w ih =>
    rw [Replayable.runFrom] at h
    cases hstep : m.replayable.step st name with
    | none =>
      rw [hstep] at h
      cases h
    | some found =>
      rw [hstep] at h
      have hnext := (Node.stepKeepsForm name m.root k st found.1 found.2 hst hstep).1
      rw [List.length_cons, Nat.add_comm w.length, ← Nat.add_assoc]
      exact ih hnext h

/-- **Whatever steps lead to is well formed.**  At every place the count is within the bounds and no
higher than the number of elements taken, and the progress has the shape of the particle; and every
part of the progress has a place. -/
theorem wellFormed_of_run {st : Progress} (h : m.replayable.run w = .ok st) :
    m.root.WellFormed w.length st ∧ (m.root.places st).map Prod.snd = st.parts := by
  have hform := wellFormed_of_runFrom (Node.wellFormed_fresh 0 m.root) h
  rw [Nat.zero_add] at hform
  exact ⟨hform, Node.map_places fun p hp => (hform p hp).shaped⟩

/-- Up to two elements `a` and an element `b` in an unordered group, all of it again and again. -/
def rounds : ModelGroup :=
  ⟨.sequence, [.group .choice [.element ⟨0⟩ .once] ⟨0, some 2⟩,
    .group .all [.element ⟨1⟩ .once] .once], ⟨1, none⟩⟩

/-- The content model of `rounds`. -/
def roundsModel : Automaton :=
  ⟨.group ⟨1, none⟩ .sequence [.group ⟨0, some 2⟩ .choice [.element .once 1 ⟨0⟩ (twoNames ⟨0⟩)],
    .group .once .all [.element .once 2 ⟨1⟩ (twoNames ⟨1⟩)]], .standard⟩

/-- The second round has come to its `b`, the first one is over. -/
theorem wellFormed_of_run_rounds :
    compile rounds twoNames .v10 {} = .ok roundsModel ∧
      roundsModel.replayable.run (["a", "a", "b", "a", "b"].map .unqualified) =
        .ok (.sequence 2 1 (.all 1 [.leaf 1])) ∧
      roundsModel.root.WellFormed 5 (.sequence 2 1 (.all 1 [.leaf 1])) ∧
      (roundsModel.root.places (.sequence 2 1 (.all 1 [.leaf 1]))).map Prod.snd =
        [.sequence 2 1 (.all 1 [.leaf 1]), .all 1 [.leaf 1], .leaf 1] := by
  have hrun : roundsModel.replayable.run (["a", "a", "b", "a", "b"].map .unqualified) =
      .ok (.sequence 2 1 (.all 1 [.leaf 1])) := rfl
  obtain ⟨hform, hparts⟩ := wellFormed_of_run hrun
  exact ⟨rfl, hrun, hform, hparts⟩

end Automaton
end ContentModel
end SchemaAssist
