/-
# What a step does

A step of a group goes on inside the occurrence under way or starts a further one (`step_group`); a
step of a leaf starts one (`step_leaf`).  Whichever it does, every way to end the content from the
progress that it leads to is, with the element in front, one to end it from where the step was taken
(`step_spec`), and so for a run of steps (`run_spec`).
-/

import SchemaAssist.Proofs.Remainder
import SchemaAssist.Replay

namespace SchemaAssist
namespace ContentModel

/-- With an element of the name in front, attributed to one leaf, the words of `m` are words of
`l`. -/
def Leads (name : Name) (l m : Language Letter) : Prop :=
  ∃ leaf : Leaf, ∀ w ∈ m, (name, leaf) :: w ∈ l

namespace Leads

variable {name : Name} {l m l' : Language Letter}

theorem mono (h : Leads name l m) (hl : ∀ w ∈ l, w ∈ l') : Leads name l' m :=
  h.imp fun _ h w hw => hl _ (h w hw)

theorem mul (h : Leads name l m) (k : Language Letter) : Leads name (l * k) (m * k) := by
  obtain ⟨leaf, h⟩ := h
  refine ⟨leaf, fun w hw => ?_⟩
  obtain ⟨u, hu, v, hv, rfl⟩ := Language.mem_mul.1 hw
  exact Language.append_mem_mul (h u hu) hv

theorem shuffle_right (h : Leads name l m) (k : Language Letter) :
    Leads name (shuffle l k) (shuffle m k) := by
  obtain ⟨leaf, h⟩ := h
  refine ⟨leaf, fun w hw => ?_⟩
  obtain ⟨u, hu, v, hv, hw⟩ := hw
  exact ⟨_, h u hu, v, hv, .left _ hw⟩

theorem shuffle_left (h : Leads name l m) (k : Language Letter) :
    Leads name (shuffle k l) (shuffle k m) := by
  obtain ⟨leaf, h⟩ := h
  refine ⟨leaf, fun w hw => ?_⟩
  obtain ⟨u, hu, v, hv, hw⟩ := hw
  exact ⟨u, hu, _, h v hv, .right _ hw⟩

end Leads

namespace Node

section Equations

variable (name : Name)

/-- A step inside the occurrence of a group that is under way. -/
def stepInside (cs : List Node) : Progress → Option (Progress × Term)
  | .leaf _ => none
  | .sequence k i cur => (sequenceStep name cs i cur).map fun (i, cur, t) => (.sequence k i cur, t)
  | .choice k i cur => (branchStep name cs i cur).map fun (cur, t) => (.choice k i cur, t)
  | .all k sts => (allStep name cs sts).map fun (sts, t) => (.all k sts, t)

/-- A step that starts the `k`-th occurrence of a group. -/
def stepAfresh (cs : List Node) (k : Nat) : Compositor → Option (Progress × Term)
  | .sequence => (sequenceStep name cs 0 .fresh).map fun (i, cur, t) => (.sequence k i cur, t)
  | .choice => (choiceStep name cs).map fun ((i, cur), t) => (.choice k i cur, t)
  | .all => (allStep name cs (cs.map fun _ => .fresh)).map fun (sts, t) => (.all k sts, t)

theorem match_eq_or (a b : Option (Progress × Term)) :
    (match a with | some found => some found | none => b) = a.or b := by
  cases a <;> rfl

/-- A step of a group goes on inside, or else starts a further occurrence. -/
theorem step_group (o : Occurs) (c : Compositor) (cs : List Node) (st : Progress) :
    step name (group o c cs) st = (stepInside name cs st).or
      (if (group o c cs).canStart st then stepAfresh name cs (st.count + 1) c else none) := by
  rw [← match_eq_or, step.eq_def]
  cases st <;> cases c <;> rfl

/-- A step of a leaf starts a further occurrence if the name matches. -/
theorem step_leaf {n : Node} {s : Symbol} (hs : n.symbol? = some s) (st : Progress) :
    step name n st = if n.canStart st && s.matcher.matchesName name then
      n.leafTerm?.map fun t => (.leaf (st.count + 1), t) else none := by
  cases n <;> cases hs <;> rfl

end Equations

theorem preferElement_eq_some {α : Type} {a b : Option (α × Term)} {x : α × Term}
    (h : preferElement a b = some x) : a = some x ∨ b = some x := by
  cases a with
  | none => exact Or.inr h
  | some a =>
    cases b with
    | none => exact Or.inl h
    | some b =>
      simp only [preferElement] at h
      split at h
      · exact Or.inl h
      · split at h
        · exact Or.inr h
        · exact Or.inl h

/-- A further occurrence may start only where the bounds leave room for it and the one under way
may end. -/
theorem canStart_iff {n : Node} {st : Progress} (hn : n.Ordered) (hst : n.Fits st) :
    n.canStart st = true ↔ n.occurs.full st.count = false ∧ [] ∈ n.underWay st := by
  rw [nil_mem_underWay_iff hn hst, canStart, Bool.and_eq_true, Bool.not_eq_true', Bool.or_eq_true,
    decide_eq_true_eq]
  refine and_congr_right fun _ => ⟨fun h => h.elim (fun hcount => ?_) id, Or.inr⟩
  rw [hst.eq_fresh hcount]
  cases n <;> rfl

section Spec

variable {name : Name}

/-- What a step of a tree keeps to. -/
def StepSpec (name : Name) (n : Node) : Prop :=
  ∀ st st' t, n.Fits st → n.step name st = some (st', t) →
    n.Fits st' ∧ Leads name (n.rest st) (n.rest st')

/-- A step of a sequence is one of its current particle, or else of a later one if that may end. -/
theorem sequenceStep_zero_cases {c : Node} {cs : List Node} {i : Nat} {st st' : Progress} {t : Term}
    (h : sequenceStep name (c :: cs) 0 st = some (i, st', t)) :
    (c.step name st = some (st', t) ∧ i = 0) ∨
      (c.canEnd st = true ∧ ∃ j, sequenceStep name cs 0 .fresh = some (j, st', t) ∧ i = j + 1) := by
  rw [sequenceStep] at h
  cases hc : c.step name st with
  | some found =>
    rw [hc] at h
    cases h
    exact Or.inl ⟨rfl, rfl⟩
  | none =>
    rw [hc] at h
    simp only at h
    split at h
    next hend =>
      obtain ⟨⟨j, st₁, t₁⟩, hlater, hfound⟩ := Option.map_eq_some_iff.1 h
      cases hfound
      exact Or.inr ⟨hend, j, hlater, rfl⟩
    next => cases h

theorem fitsAt_fresh_of_step {cs : List Node} {found : Nat × Progress × Term}
    (h : sequenceStep name cs 0 .fresh = some found) : FitsAt cs 0 .fresh := by
  cases cs with
  | nil => cases h
  | cons c cs => exact fits_fresh c

theorem sequenceStep_spec {cs : List Node} (hn : ∀ m ∈ cs, m.Ordered)
    (hcs : ∀ m ∈ cs, StepSpec name m) {i i' : Nat} {st st' : Progress} {t : Term}
    (hst : FitsAt cs i st) (h : sequenceStep name cs i st = some (i', st', t)) :
    FitsAt cs i' st' ∧ Leads name (sequenceUnderWay cs i st) (sequenceUnderWay cs i' st') := by
  induction cs generalizing i i' st with
  | nil => exact hst.elim
  | cons c cs ih =>
    rw [List.forall_mem_cons] at hn hcs
    cases i with
    | zero =>
      rcases sequenceStep_zero_cases h with ⟨hstep, rfl⟩ | ⟨hend, j, hlater, rfl⟩
      · obtain ⟨hfits, hleads⟩ := hcs.1 _ _ _ hst hstep
        exact ⟨hfits, hleads.mul _⟩
      · obtain ⟨hfits, hleads⟩ := ih hn.2 hcs.2 (fitsAt_fresh_of_step hlater) hlater
        rw [sequenceUnderWay_fresh] at hleads
        refine ⟨hfits, hleads.mono fun w hw => mem_mul_of_nil_mem ?_ hw⟩
        exact (nil_mem_rest_iff hn.1 hst).2 hend
    | succ i =>
      rw [sequenceStep] at h
      obtain ⟨⟨j, st₁, t₁⟩, hlater, hfound⟩ := Option.map_eq_some_iff.1 h
      cases hfound
      exact ih hn.2 hcs.2 hst hlater

/-- The particle taken of a choice. -/
theorem exists_branch (name : Name) {cs : List Node} {i : Nat} {st : Progress}
    (h : FitsAt cs i st) :
    ∃ m ∈ cs, ∀ st', (FitsAt cs i st' ↔ m.Fits st') ∧ branchUnderWay cs i st' = m.rest st' ∧
      branchStep name cs i st' = m.step name st' := by
  induction cs generalizing i with
  | nil => exact h.elim
  | cons c cs ih =>
    cases i with
    | zero => exact ⟨c, List.mem_cons_self, fun _ => ⟨Iff.rfl, rfl, rfl⟩⟩
    | succ i => exact (ih h).imp fun m hm => ⟨List.mem_cons_of_mem c hm.1, hm.2⟩

theorem branchStep_spec {cs : List Node} (hcs : ∀ m ∈ cs, StepSpec name m) {i : Nat}
    {st st' : Progress} {t : Term} (hst : FitsAt cs i st)
    (h : branchStep name cs i st = some (st', t)) :
    FitsAt cs i st' ∧ Leads name (branchUnderWay cs i st) (branchUnderWay cs i st') := by
  obtain ⟨m, hm, hbranch⟩ := exists_branch name hst
  rw [(hbranch st).2.2] at h
  rw [(hbranch st').1, (hbranch st).2.1, (hbranch st').2.1]
  exact hcs m hm _ _ _ ((hbranch st).1.1 hst) h

/-- A choice that is made leads to a word of one of its particles. -/
theorem choiceStep_spec {cs : List Node} (hcs : ∀ m ∈ cs, StepSpec name m) {i : Nat}
    {st' : Progress} {t : Term} (h : choiceStep name cs = some ((i, st'), t)) :
    FitsAt cs i st' ∧ ∃ m ∈ cs, Leads name m.words (branchUnderWay cs i st') := by
  induction cs generalizing i with
  | nil => cases h
  | cons c cs ih =>
    rw [List.forall_mem_cons] at hcs
    rw [choiceStep] at h
    rcases preferElement_eq_some h with h | h
    · obtain ⟨⟨st₁, t₁⟩, hc, hfound⟩ := Option.map_eq_some_iff.1 h
      cases hfound
      obtain ⟨hfits, hleads⟩ := hcs.1 _ _ _ (fits_fresh c) hc
      rw [rest_fresh] at hleads
      exact ⟨hfits, c, List.mem_cons_self, hleads⟩
    · obtain ⟨⟨⟨j, st₁⟩, t₁⟩, hlater, hfound⟩ := Option.map_eq_some_iff.1 h
      cases hfound
      obtain ⟨hfits, m, hm, hleads⟩ := ih hcs.2 hlater
      exact ⟨hfits, m, List.mem_cons_of_mem c hm, hleads⟩

theorem allStep_spec {cs : List Node} (hcs : ∀ m ∈ cs, StepSpec name m)
    {sts sts' : List Progress} {t : Term} (hst : FitsEach cs sts)
    (h : allStep name cs sts = some (sts', t)) :
    FitsEach cs sts' ∧ Leads name (allUnderWay cs sts) (allUnderWay cs sts') := by
  induction cs generalizing sts sts' t with
  | nil => cases sts <;> cases h
  | cons c cs ih =>
    rw [List.forall_mem_cons] at hcs
    cases sts with
    | nil => cases h
    | cons st sts =>
      rw [allStep] at h
      rcases preferElement_eq_some h with h | h
      · obtain ⟨⟨st₁, t₁⟩, hc, hfound⟩ := Option.map_eq_some_iff.1 h
        cases hfound
        obtain ⟨hfits, hleads⟩ := hcs.1 _ _ _ hst.1 hc
        exact ⟨⟨hfits, hst.2⟩, hleads.shuffle_right _⟩
      · obtain ⟨⟨sts₁, t₁⟩, hlater, hfound⟩ := Option.map_eq_some_iff.1 h
        cases hfound
        obtain ⟨hfits, hleads⟩ := ih hcs.2 hst.2 hlater
        exact ⟨⟨hst.1, hfits⟩, hleads.shuffle_left _⟩

/-- A step inside an occurrence keeps the number of occurrences. -/
theorem stepInside_spec {o : Occurs} {c : Compositor} {cs : List Node}
    (hn : ∀ m ∈ cs, m.Ordered) (hcs : ∀ m ∈ cs, StepSpec name m) {st st' : Progress} {t : Term}
    (hst : (group o c cs).Fits st) (h : stepInside name cs st = some (st', t)) :
    (group o c cs).Fits st' ∧ st'.count = st.count ∧
      Leads name ((group o c cs).underWay st) ((group o c cs).underWay st') := by
  cases st with
  | leaf k => cases h
  | sequence k i st =>
    cases c <;> simp only [Fits] at hst
    obtain ⟨⟨j, st₁, t₁⟩, hstep, hfound⟩ := Option.map_eq_some_iff.1 h
    cases hfound
    obtain ⟨hfits, hleads⟩ := sequenceStep_spec hn hcs hst.2.2 hstep
    exact ⟨⟨hst.1, hst.2.1, hfits⟩, rfl, hleads⟩
  | choice k i st =>
    cases c <;> simp only [Fits] at hst
    obtain ⟨⟨st₁, t₁⟩, hstep, hfound⟩ := Option.map_eq_some_iff.1 h
    cases hfound
    obtain ⟨hfits, hleads⟩ := branchStep_spec hcs hst.2.2 hstep
    exact ⟨⟨hst.1, hst.2.1, hfits⟩, rfl, hleads⟩
  | all k sts =>
    cases c <;> simp only [Fits] at hst
    obtain ⟨⟨sts₁, t₁⟩, hstep, hfound⟩ := Option.map_eq_some_iff.1 h
    cases hfound
    obtain ⟨hfits, hleads⟩ := allStep_spec hcs hst.2.2 hstep
    exact ⟨⟨hst.1, hst.2.1, hfits⟩, rfl, hleads⟩

/-- A step that starts an occurrence leads to a word of one occurrence. -/
theorem stepAfresh_spec {o : Occurs} {c : Compositor} {cs : List Node}
    (hn : ∀ m ∈ cs, m.Ordered) (hcs : ∀ m ∈ cs, StepSpec name m) {k : Nat} {st' : Progress}
    {t : Term} (hk : o.Within (k + 1)) (h : stepAfresh name cs (k + 1) c = some (st', t)) :
    (group o c cs).Fits st' ∧ st'.count = k + 1 ∧
      Leads name (group o c cs).occurrence ((group o c cs).underWay st') := by
  rw [occurrence]
  cases c with
  | sequence =>
    obtain ⟨⟨j, st₁, t₁⟩, hstep, hfound⟩ := Option.map_eq_some_iff.1 h
    cases hfound
    obtain ⟨hfits, hleads⟩ := sequenceStep_spec hn hcs (fitsAt_fresh_of_step hstep) hstep
    rw [sequenceUnderWay_fresh] at hleads
    exact ⟨⟨k.succ_pos, hk, hfits⟩, rfl, hleads⟩
  | choice =>
    obtain ⟨⟨⟨j, st₁⟩, t₁⟩, hstep, hfound⟩ := Option.map_eq_some_iff.1 h
    cases hfound
    obtain ⟨hfits, m, hm, hleads⟩ := choiceStep_spec hcs hstep
    refine ⟨⟨k.succ_pos, hk, hfits⟩, rfl, hleads.mono fun w hw => ?_⟩
    rw [mem_combine_choice, wordsOf_eq]
    exact Or.inr ⟨m.words, List.mem_map_of_mem hm, hw⟩
  | all =>
    obtain ⟨⟨sts₁, t₁⟩, hstep, hfound⟩ := Option.map_eq_some_iff.1 h
    cases hfound
    obtain ⟨hfits, hleads⟩ := allStep_spec hcs (fitsEach_fresh cs) hstep
    rw [allUnderWay_fresh] at hleads
    exact ⟨⟨k.succ_pos, hk, hfits⟩, rfl, hleads⟩

/-- **Every step leads to words that the content may end with.** -/
theorem step_spec {n : Node} (hn : n.Ordered) : StepSpec name n := by
  induction n using Node.induct with
  | leaf n s hs =>
    intro st st' t hst h
    rw [step_leaf name hs] at h
    split at h
    next hstart =>
      rw [Bool.and_eq_true, canStart_iff hn hst] at hstart
      obtain ⟨⟨hfull, hnil⟩, hname⟩ := hstart
      obtain ⟨t₁, -, hfound⟩ := Option.map_eq_some_iff.1 h
      cases hfound
      refine ⟨?_, s.toLeaf, fun w hw => ?_⟩
      · have hwithin := Occurs.full_eq_false_iff.1 hfull
        cases n <;> cases hs <;> exact hwithin
      · rw [rest, underWay_leaf, one_mul] at hw
        have hletter : [(name, s.toLeaf)] ∈ n.occurrence := by
          rw [occurrence_of_leaf hs]
          exact ⟨_, ⟨hname, rfl⟩, rfl⟩
        exact mem_mul_of_nil_mem hnil (Occurs.append_mem_further hletter hw)
    next => cases h
  | group o c cs ih =>
    intro st st' t hst h
    have hcs : ∀ m ∈ cs, StepSpec name m := fun m hm => ih m hm (hn.of_mem hm)
    have hord : ∀ m ∈ cs, m.Ordered := fun m hm => hn.of_mem hm
    rw [step_group] at h
    rcases Option.or_eq_some_iff.1 h with h | ⟨-, h⟩
    · obtain ⟨hfits, hcount, hleads⟩ := stepInside_spec hord hcs hst h
      refine ⟨hfits, ?_⟩
      rw [rest, rest, hcount]
      exact hleads.mul _
    · split at h
      next hstart =>
        obtain ⟨hfull, hnil⟩ := (canStart_iff hn hst).1 hstart
        obtain ⟨hfits, hcount, leaf, hleads⟩ :=
          stepAfresh_spec (o := o) hord hcs (Occurs.full_eq_false_iff.1 hfull) h
        refine ⟨hfits, leaf, fun w hw => ?_⟩
        rw [rest, hcount] at hw
        obtain ⟨u, hu, v, hv, rfl⟩ := Language.mem_mul.1 hw
        exact mem_mul_of_nil_mem hnil (Occurs.append_mem_further (hleads u hu) hv)
      next => cases h

section Group

variable {o : Occurs} {c : Compositor} {cs : List Node} {st st' : Progress} {t : Term}
  (hn : (group o c cs).Ordered)

include hn

theorem leads_of_stepInside (hst : (group o c cs).Fits st)
    (h : stepInside name cs st = some (st', t)) :
    (group o c cs).Fits st' ∧ st'.count = st.count ∧
      Leads name ((group o c cs).underWay st) ((group o c cs).underWay st') :=
  stepInside_spec (fun _ hm => hn.of_mem hm) (fun _ hm => step_spec (hn.of_mem hm)) hst h

theorem leads_of_stepAfresh {k : Nat} (hk : o.Within (k + 1))
    (h : stepAfresh name cs (k + 1) c = some (st', t)) :
    (group o c cs).Fits st' ∧ st'.count = k + 1 ∧
      Leads name (group o c cs).occurrence ((group o c cs).underWay st') :=
  stepAfresh_spec (fun _ hm => hn.of_mem hm) (fun _ hm => step_spec (hn.of_mem hm)) hk h

end Group

end Spec

end Node
end ContentModel
end SchemaAssist
