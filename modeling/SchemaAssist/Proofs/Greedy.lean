/-
# What a step keeps

A step goes on inside the occurrence under way where it can.  Where a name can be attributed to one
leaf only, a step that does not have to choose between going on and starting afresh keeps every way
to end the content (`Node.Follows`): so does one inside an occurrence (`stepInside_follows`) and one
that begins an occurrence (`stepAfresh_follows`).
-/

import SchemaAssist.Proofs.Prefixes
import SchemaAssist.Proofs.Steps

namespace SchemaAssist
namespace ContentModel

/-- Words that begin with the name attribute it to the leaf `p`. -/
def Only (name : Name) (p : Leaf) (l : Language Letter) : Prop := ∀ q v, (name, q) :: v ∈ l → q = p

namespace Only

variable {name : Name} {p : Leaf} {l k : Language Letter}

theorem of_mul_left (h : Only name p (l * k)) (hk : ∃ w, w ∈ k) : Only name p l := by
  intro q v hv
  obtain ⟨w, hw⟩ := hk
  exact h q (v ++ w) (Language.append_mem_mul hv hw)

theorem of_mul_right (h : Only name p (l * k)) (hl : [] ∈ l) : Only name p k :=
  fun q v hv => h q v (mem_mul_of_nil_mem hl hv)

theorem of_shuffle (h : Only name p (shuffle l k)) (hk : ∃ w, w ∈ k) : Only name p l := by
  intro q v hv
  obtain ⟨w, hw⟩ := hk
  exact h q (v ++ w) (append_mem_shuffle hv hw)

theorem of_further {o : Occurs} {count : Nat} (h : Only name p (o.further count l))
    (hmore : ∃ w, w ∈ o.further (count + 1) l) : Only name p l := by
  intro q v hv
  obtain ⟨w, hw⟩ := hmore
  exact h q (v ++ w) (Occurs.append_mem_further hv hw)

/-- Only one leaf takes the name, so a step that takes it reads a letter of that leaf. -/
theorem mem_of_leads (h : Only name p l) (hleads : Leads name l k) (hk : ∃ w, w ∈ k) :
    ∃ v ∈ k, (name, p) :: v ∈ l := by
  obtain ⟨leaf, hleads⟩ := hleads
  obtain ⟨v, hv⟩ := hk
  obtain rfl := h leaf v (hleads v hv)
  exact ⟨v, hv, hleads v hv⟩

end Only

theorem head_mem_letters {l : Language Letter} {a : Letter} {v : List Letter} (h : a :: v ∈ l) :
    a ∈ letters l := ⟨_, h, List.mem_cons_self⟩

namespace Node

variable {name : Name} {p : Leaf}

/-- Steps of a tree keep what can be done after the leaf `p` has taken the name, where no other leaf
can. -/
def Follows (name : Name) (p : Leaf) (n : Node) : Prop :=
  ∀ st, n.Fits st → Only name p (n.rest st) → ∀ z, (name, p) :: z ∈ n.rest st →
    ∃ st' t, n.step name st = some (st', t) ∧ z ∈ n.rest st'

/-- A step that takes the name reads a letter that may come next. -/
theorem exists_mem_rest_of_step {n : Node} (hn : n.Proper) {st st' : Progress} {t : Term}
    (hst : n.Fits st) (honly : Only name p (n.rest st)) (h : n.step name st = some (st', t)) :
    ∃ v, (name, p) :: v ∈ n.rest st := by
  obtain ⟨hfits, hleads⟩ := step_spec hn.ordered st st' t hst h
  obtain ⟨v, -, hv⟩ := honly.mem_of_leads hleads (exists_mem_rest hn.ordered hn.matchable hfits)
  exact ⟨v, hv⟩

theorem step_eq_none {n : Node} (hn : n.Proper) {st : Progress} (hst : n.Fits st)
    (honly : Only name p (n.rest st)) (h : (name, p) ∉ letters n.words) :
    n.step name st = none := by
  cases hstep : n.step name st with
  | none => rfl
  | some found =>
    obtain ⟨v, hv⟩ := exists_mem_rest_of_step hn hst honly hstep
    exact absurd (letters_rest_subset hn hst (head_mem_letters hv)) h

section Lists

variable {cs : List Node} (hn : ∀ m ∈ cs, m.Proper) (hcs : ∀ m ∈ cs, Follows name p m)

include hn

theorem exists_mem_prod_wordsOf : ∃ w, w ∈ (wordsOf cs).prod := exists_mem_prod <| by
  rw [wordsOf_eq, List.forall_mem_map]
  exact fun m hm => (hn m hm).exists_mem_words

theorem exists_mem_allUnderWay_of_fits {sts : List Progress} (h : FitsEach cs sts) :
    ∃ w, w ∈ allUnderWay cs sts :=
  exists_mem_allUnderWay (fun m hm _ hst =>
    exists_mem_rest (hn m hm).ordered (hn m hm).matchable hst) h

/-- No particle of a choice takes a name that only a leaf elsewhere does. -/
theorem choiceStep_eq_none (honly : ∀ m ∈ cs, Only name p m.words)
    (h : ∀ m ∈ cs, (name, p) ∉ letters m.words) : choiceStep name cs = none := by
  cases hstep : choiceStep name cs with
  | none => rfl
  | some found =>
    obtain ⟨⟨i, st'⟩, t⟩ := found
    obtain ⟨hfits, m, hm, hleads⟩ :=
      choiceStep_spec (fun m hm => step_spec (hn m hm).ordered) hstep
    have hne := exists_mem_branchUnderWay (fun m hm _ hst =>
      exists_mem_rest (hn m hm).ordered (hn m hm).matchable hst) hfits
    obtain ⟨v, -, hv⟩ := (honly m hm).mem_of_leads hleads hne
    exact absurd (head_mem_letters hv) (h m hm)

/-- No particle of an unordered group takes a name that only a leaf elsewhere does. -/
theorem allStep_eq_none {sts : List Progress} (hst : FitsEach cs sts)
    (honly : Only name p (allUnderWay cs sts))
    (h : (name, p) ∉ letters (allUnderWay cs sts)) : allStep name cs sts = none := by
  cases hstep : allStep name cs sts with
  | none => rfl
  | some found =>
    obtain ⟨sts', t⟩ := found
    obtain ⟨hfits, hleads⟩ := allStep_spec (fun m hm => step_spec (hn m hm).ordered) hst hstep
    obtain ⟨v, -, hv⟩ := honly.mem_of_leads hleads (exists_mem_allUnderWay_of_fits hn hfits)
    exact absurd (head_mem_letters hv) h

theorem letters_allUnderWay_subset {sts : List Progress} (hst : FitsEach cs sts) {a : Letter}
    (ha : a ∈ letters (allUnderWay cs sts)) : ∃ m ∈ cs, a ∈ letters m.words := by
  have hprecedes := precedes_allUnderWay (fun m hm st => precedes_rest (hn m hm)) hst
  obtain ⟨l, hl, ha⟩ := letters_foldr_shuffle_subset (hprecedes.letters_subset ha)
  rw [wordsOf_eq] at hl
  obtain ⟨m, hm, rfl⟩ := List.mem_map.1 hl
  exact ⟨m, hm, ha⟩

variable (hdisjoint : (wordsOf cs).Pairwise fun l m => Disjoint (letters l) (letters m))

include hcs hdisjoint

theorem sequenceStep_follows {i : Nat} {st : Progress} (hst : FitsAt cs i st)
    (honly : Only name p (sequenceUnderWay cs i st)) {z : List Letter}
    (hz : (name, p) :: z ∈ sequenceUnderWay cs i st) :
    ∃ i' st' t, sequenceStep name cs i st = some (i', st', t) ∧
      z ∈ sequenceUnderWay cs i' st' := by
  induction cs generalizing i st with
  | nil => exact hst.elim
  | cons c cs ih =>
    rw [List.forall_mem_cons] at hn hcs
    rw [wordsOf, List.pairwise_cons] at hdisjoint
    cases i with
    | zero =>
      rw [sequenceUnderWay_zero] at honly hz
      have hlater : ∃ w, w ∈ (wordsOf cs).prod := exists_mem_prod_wordsOf hn.2
      have hfirst := honly.of_mul_left hlater
      rcases cons_mem_mul.1 hz with ⟨u, v, rfl, hu, hv⟩ | ⟨hnil, hz⟩
      · obtain ⟨st', t, hstep, hu⟩ := hcs.1 st hst hfirst u hu
        exact ⟨0, st', t, by rw [sequenceStep, hstep], Language.append_mem_mul hu hv⟩
      · -- the leaf is one of a later particle, so the current one cannot take the name
        have hnot : (name, p) ∉ letters c.words := fun hmem =>
          Set.disjoint_left.1 (disjoint_letters_of hdisjoint.1 fun a => letters_prod_subset) hmem
            (head_mem_letters hz)
        have hfresh : FitsAt cs 0 .fresh := by
          cases cs with
          | nil => exact absurd hz (by simp [wordsOf, Language.mem_one])
          | cons d cs => exact fits_fresh d
        have hstep := step_eq_none hn.1 hst hfirst hnot
        have hend := (nil_mem_rest_iff hn.1.ordered hst).1 hnil
        rw [← sequenceUnderWay_fresh] at hz honly
        obtain ⟨i', st', t, hlater, hz⟩ :=
          ih hn.2 hcs.2 hdisjoint.2 hfresh (honly.of_mul_right hnil) hz
        refine ⟨i' + 1, st', t, ?_, hz⟩
        rw [canEnd] at hend
        rw [sequenceStep, hstep]
        simp only [hend, if_true, hlater, Option.map_some]
    | succ i =>
      obtain ⟨i', st', t, hstep, hz⟩ := ih hn.2 hcs.2 hdisjoint.2 hst honly hz
      exact ⟨i' + 1, st', t, by rw [sequenceStep, hstep, Option.map_some], hz⟩

omit hn hdisjoint in
theorem branchStep_follows {i : Nat} {st : Progress} (hst : FitsAt cs i st)
    (honly : Only name p (branchUnderWay cs i st)) {z : List Letter}
    (hz : (name, p) :: z ∈ branchUnderWay cs i st) :
    ∃ st' t, branchStep name cs i st = some (st', t) ∧ z ∈ branchUnderWay cs i st' := by
  obtain ⟨m, hm, hbranch⟩ := exists_branch name hst
  obtain ⟨hfits, hrest, hstep⟩ := hbranch st
  rw [hrest] at honly hz
  obtain ⟨st', t, hfound, hz⟩ := hcs m hm st (hfits.1 hst) honly z hz
  exact ⟨st', t, hstep.trans hfound, (hbranch st').2.1 ▸ hz⟩

theorem choiceStep_follows (honly : ∀ m ∈ cs, Only name p m.words) {m : Node} (hm : m ∈ cs)
    {z : List Letter} (hz : (name, p) :: z ∈ m.words) :
    ∃ i st' t, choiceStep name cs = some ((i, st'), t) ∧ z ∈ branchUnderWay cs i st' := by
  induction cs with
  | nil => cases hm
  | cons c cs ih =>
    rw [List.forall_mem_cons] at hn hcs honly
    rw [wordsOf_eq, List.map_cons, List.pairwise_cons, List.forall_mem_map] at hdisjoint
    have hfirst : Only name p (c.rest .fresh) := rest_fresh c ▸ honly.1
    rcases List.mem_cons.1 hm with rfl | hm
    · rw [← rest_fresh] at hz
      obtain ⟨st', t, hstep, hz'⟩ := hcs.1 .fresh (fits_fresh m) hfirst z hz
      have hlater := choiceStep_eq_none hn.2 honly.2 fun d hd =>
        Set.disjoint_left.1 (hdisjoint.1 d hd) (rest_fresh m ▸ head_mem_letters hz)
      exact ⟨0, st', t, by rw [choiceStep, hstep, hlater]; rfl, hz'⟩
    · have hnot : (name, p) ∉ letters c.words := fun hmem =>
        Set.disjoint_left.1 (hdisjoint.1 m hm) hmem (head_mem_letters hz)
      have hstep := step_eq_none hn.1 (fits_fresh c) hfirst hnot
      obtain ⟨i, st', t, hlater, hz⟩ := ih hn.2 hcs.2 (wordsOf_eq cs ▸ hdisjoint.2) honly.2 hm
      exact ⟨i + 1, st', t, by rw [choiceStep, hstep, hlater]; rfl, hz⟩

theorem allStep_follows {sts : List Progress} (hst : FitsEach cs sts)
    (honly : Only name p (allUnderWay cs sts)) {z : List Letter}
    (hz : (name, p) :: z ∈ allUnderWay cs sts) :
    ∃ sts' t, allStep name cs sts = some (sts', t) ∧ z ∈ allUnderWay cs sts' := by
  induction cs generalizing sts z with
  | nil => cases sts <;> exact absurd hz (by simp [allUnderWay, Language.mem_one])
  | cons c cs ih =>
    cases sts with
    | nil => exact hst.elim
    | cons st sts =>
      rw [List.forall_mem_cons] at hn hcs
      rw [wordsOf_eq, List.map_cons, List.pairwise_cons, List.forall_mem_map] at hdisjoint
      rw [allUnderWay_cons] at honly hz
      have hfirst : Only name p (c.rest st) :=
        honly.of_shuffle (exists_mem_allUnderWay_of_fits hn.2 hst.2)
      have hothers : Only name p (allUnderWay cs sts) := Only.of_shuffle (shuffle_comm _ _ ▸ honly)
        (exists_mem_rest hn.1.ordered hn.1.matchable hst.1)
      rcases cons_mem_shuffle.1 hz with ⟨u, v, hmerge, hu, hv⟩ | ⟨u, v, hmerge, hu, hv⟩
      · obtain ⟨st', t, hstep, hu'⟩ := hcs.1 st hst.1 hfirst u hu
        have hlater : allStep name cs sts = none := by
          refine allStep_eq_none hn.2 hst.2 hothers fun hmem => ?_
          obtain ⟨m, hm, hmem⟩ := letters_allUnderWay_subset hn.2 hst.2 hmem
          exact Set.disjoint_left.1 (hdisjoint.1 m hm)
            (letters_rest_subset hn.1 hst.1 (head_mem_letters hu)) hmem
        exact ⟨st' :: sts, t, by rw [allStep, hstep, hlater]; rfl, u, hu', v, hv, hmerge⟩
      · obtain ⟨sts', t, hlater, hv'⟩ :=
          ih hn.2 hcs.2 (wordsOf_eq cs ▸ hdisjoint.2) hst.2 hothers hv
        have hstep : c.step name st = none := step_eq_none hn.1 hst.1 hfirst fun hmem => by
          obtain ⟨m, hm, hmem'⟩ := letters_allUnderWay_subset hn.2 hst.2 (head_mem_letters hv)
          exact Set.disjoint_left.1 (hdisjoint.1 m hm) hmem hmem'
        exact ⟨st :: sts', t, by rw [allStep, hstep, hlater]; rfl, u, hu, v, hv', hmerge⟩

end Lists

section Group

variable {o : Occurs} {c : Compositor} {cs : List Node} (hn : (group o c cs).Proper)
  (hcs : ∀ m ∈ cs, Follows name p m)

include hn hcs

theorem stepInside_follows {st : Progress} (hst : (group o c cs).Fits st)
    (honly : Only name p ((group o c cs).underWay st)) {z : List Letter}
    (hz : (name, p) :: z ∈ (group o c cs).underWay st) :
    ∃ st' t, stepInside name cs st = some (st', t) ∧ z ∈ (group o c cs).underWay st' := by
  have hproper : ∀ m ∈ cs, m.Proper := fun m hm => hn.of_mem hm
  have hdisjoint := disjoint_letters hn.numbered
  cases st with
  | leaf k => exact absurd hz (by simp [Language.mem_one])
  | sequence k i st =>
    cases c <;> simp only [Fits] at hst
    obtain ⟨i', st', t, hstep, hz⟩ :=
      sequenceStep_follows hproper hcs hdisjoint hst.2.2 honly hz
    exact ⟨.sequence k i' st', t, by rw [stepInside, hstep]; rfl, hz⟩
  | choice k i st =>
    cases c <;> simp only [Fits] at hst
    obtain ⟨st', t, hstep, hz⟩ := branchStep_follows hcs hst.2.2 honly hz
    exact ⟨.choice k i st', t, by rw [stepInside, hstep]; rfl, hz⟩
  | all k sts =>
    cases c <;> simp only [Fits] at hst
    obtain ⟨sts', t, hstep, hz⟩ := allStep_follows hproper hcs hdisjoint hst.2.2 honly hz
    exact ⟨.all k sts', t, by rw [stepInside, hstep]; rfl, hz⟩

theorem stepAfresh_follows (honly : Only name p (group o c cs).occurrence) (k : Nat)
    {z : List Letter} (hz : (name, p) :: z ∈ (group o c cs).occurrence) :
    ∃ st' t, stepAfresh name cs k c = some (st', t) ∧ z ∈ (group o c cs).underWay st' := by
  have hproper : ∀ m ∈ cs, m.Proper := fun m hm => hn.of_mem hm
  have hdisjoint := disjoint_letters hn.numbered
  rw [occurrence] at honly hz
  cases c with
  | sequence =>
    have hfresh : FitsAt cs 0 .fresh := by
      cases cs with
      | nil => exact absurd hz (by simp [Compositor.combine, wordsOf, Language.mem_one])
      | cons d cs => exact fits_fresh d
    rw [Compositor.combine, ← sequenceUnderWay_fresh] at honly hz
    obtain ⟨i, st', t, hstep, hz⟩ := sequenceStep_follows hproper hcs hdisjoint hfresh honly hz
    exact ⟨.sequence k i st', t, by rw [stepAfresh, hstep]; rfl, hz⟩
  | choice =>
    rcases mem_combine_choice.1 hz with ⟨-, hz⟩ | ⟨l, hl, hz⟩
    · cases hz
    rw [wordsOf_eq] at hl
    obtain ⟨m, hm, rfl⟩ := List.mem_map.1 hl
    have heach : ∀ m ∈ cs, Only name p m.words := fun m hm q v hv => honly q v <|
      mem_combine_choice.2 (Or.inr ⟨m.words, wordsOf_eq cs ▸ List.mem_map_of_mem hm, hv⟩)
    obtain ⟨i, st', t, hstep, hz⟩ := choiceStep_follows hproper hcs hdisjoint heach hm hz
    exact ⟨.choice k i st', t, by rw [stepAfresh, hstep]; rfl, hz⟩
  | all =>
    rw [Compositor.combine, ← allUnderWay_fresh] at honly hz
    obtain ⟨sts', t, hstep, hz⟩ :=
      allStep_follows hproper hcs hdisjoint (fitsEach_fresh cs) honly hz
    exact ⟨.all k sts', t, by rw [stepAfresh, hstep]; rfl, hz⟩

end Group

end Node
end ContentModel
end SchemaAssist
