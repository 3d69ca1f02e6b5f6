/-
# What comes before a progress

Every progress that fits a tree stands after some start of a word: there is a word that, put before
any of those that lead from the progress to an end, makes a word of the tree
(`Node.precedes_rest`).  So what can follow a progress is what words can go on with.
-/

import SchemaAssist.Proofs.Criterion

namespace SchemaAssist

/-- Some word makes words of `l` of all words of `m` that follow it. -/
def Precedes {α : Type*} (l m : Language α) : Prop := ∃ x, ∀ v ∈ m, x ++ v ∈ l

namespace Precedes

variable {α : Type*} {l m l' m' : Language α}

theorem refl (l : Language α) : Precedes l l := ⟨[], fun _ hv => hv⟩

theorem mul_right (h : Precedes l m) (k : Language α) : Precedes (l * k) (m * k) := by
  obtain ⟨x, h⟩ := h
  refine ⟨x, fun w hw => ?_⟩
  obtain ⟨u, hu, v, hv, rfl⟩ := Language.mem_mul.1 hw
  rw [← List.append_assoc]
  exact Language.append_mem_mul (h u hu) hv

theorem mul_left {k : Language α} (h : Precedes l m) (hk : ∃ w, w ∈ k) : Precedes (k * l) m := by
  obtain ⟨x, h⟩ := h
  obtain ⟨w, hw⟩ := hk
  refine ⟨w ++ x, fun v hv => ?_⟩
  rw [List.append_assoc]
  exact Language.append_mem_mul hw (h v hv)

theorem shuffle (h : Precedes l m) (h' : Precedes l' m') :
    Precedes (SchemaAssist.shuffle l l') (SchemaAssist.shuffle m m') := by
  obtain ⟨x, h⟩ := h
  obtain ⟨y, h'⟩ := h'
  refine ⟨x ++ y, fun w ⟨u, hu, v, hv, hw⟩ => ⟨x ++ u, h u hu, y ++ v, h' v hv, ?_⟩⟩
  rw [List.append_assoc]
  exact (hw.append_right y).append_left x

theorem mono (h : Precedes l m) (hl : ∀ w ∈ l, w ∈ l') : Precedes l' m :=
  h.imp fun _ h v hv => hl _ (h v hv)

/-- What follows has no letters that the whole has not. -/
theorem letters_subset (h : Precedes l m) : letters m ⊆ letters l := by
  obtain ⟨x, h⟩ := h
  exact fun a ⟨w, hw, ha⟩ => ⟨x ++ w, h w hw, List.mem_append_right x ha⟩

/-- Where the content may end, whatever may follow goes on. -/
theorem mem_goesOn (h : Precedes l m) (hnil : [] ∈ m) {a : α} {v : List α} (hv : a :: v ∈ m) :
    a ∈ goesOn l := by
  obtain ⟨x, h⟩ := h
  exact ⟨x, List.append_nil x ▸ h [] hnil, v, h _ hv⟩

/-- The last of several words under way stands before what ends it and further words. -/
theorem further {o : Occurs} {count : Nat} (h : Precedes l m) (hl : ∃ w, w ∈ l) :
    Precedes (o.words l) (m * o.further (count + 1) l) := by
  obtain ⟨x, h⟩ := h
  obtain ⟨w, hw⟩ := exists_mem_pow hl count
  refine ⟨w ++ x, fun v hv => ?_⟩
  obtain ⟨u, hu, z, ⟨k, hk, hz⟩, rfl⟩ := Language.mem_mul.1 hv
  refine ⟨count + 1 + k, hk, ?_⟩
  rw [pow_add, pow_succ, List.append_assoc, ← List.append_assoc x, ← List.append_assoc]
  exact Language.append_mem_mul (Language.append_mem_mul hw (h u hu)) hz

end Precedes

namespace ContentModel
namespace Node

section Lists

variable {cs : List Node} (hcs : ∀ m ∈ cs, ∀ st, m.Fits st → Precedes m.words (m.rest st))

include hcs

theorem precedes_sequenceUnderWay (hwords : ∀ m ∈ cs, ∃ w, w ∈ m.words) {i : Nat} {st : Progress}
    (h : FitsAt cs i st) : Precedes (wordsOf cs).prod (sequenceUnderWay cs i st) := by
  induction cs generalizing i with
  | nil => exact h.elim
  | cons c cs ih =>
    rw [List.forall_mem_cons] at hcs hwords
    cases i with
    | zero => exact (hcs.1 st h).mul_right _
    | succ i => exact (ih hcs.2 hwords.2 h).mul_left hwords.1

theorem precedes_branchUnderWay {i : Nat} {st : Progress} (h : FitsAt cs i st) :
    ∃ m ∈ cs, Precedes m.words (branchUnderWay cs i st) := by
  induction cs generalizing i with
  | nil => exact h.elim
  | cons c cs ih =>
    rw [List.forall_mem_cons] at hcs
    cases i with
    | zero => exact ⟨c, List.mem_cons_self, hcs.1 st h⟩
    | succ i => exact (ih hcs.2 h).imp fun m hm => ⟨List.mem_cons_of_mem c hm.1, hm.2⟩

theorem precedes_allUnderWay {sts : List Progress} (h : FitsEach cs sts) :
    Precedes ((wordsOf cs).foldr shuffle 1) (allUnderWay cs sts) := by
  induction cs generalizing sts with
  | nil =>
    cases sts with
    | nil => exact .refl 1
    | cons st sts => exact h.elim
  | cons c cs ih =>
    rw [List.forall_mem_cons] at hcs
    cases sts with
    | nil => exact h.elim
    | cons st sts => exact (hcs.1 st h.1).shuffle (ih hcs.2 h.2)

end Lists

/-- A progress stands after a start of a word if the occurrence under way does. -/
theorem precedes_rest_of {n : Node} (hn : n.Proper) {st : Progress} (hst : n.Fits st)
    (h : st.count ≠ 0 → Precedes n.occurrence (n.underWay st)) :
    Precedes n.words (n.rest st) := by
  by_cases hcount : st.count = 0
  · rw [hst.eq_fresh hcount, rest_fresh]
    exact .refl _
  · obtain ⟨k, hk⟩ := Nat.exists_eq_succ_of_ne_zero hcount
    rw [rest, hk]
    exact (h hcount).further hn.exists_mem_occurrence

/-- The occurrence under way stands after a start of a word of one occurrence. -/
theorem precedes_underWay {n : Node} (hn : n.Proper) {st : Progress} (hst : n.Fits st)
    (hcount : st.count ≠ 0) : Precedes n.occurrence (n.underWay st) := by
  induction n using Node.induct generalizing st with
  | leaf n s hs =>
    -- a whole word of the leaf has gone before
    obtain ⟨w, hw⟩ := hn.exists_mem_occurrence
    refine ⟨w, fun v hv => ?_⟩
    have hone : n.underWay st = 1 := by cases n <;> cases hs <;> rfl
    rw [hone] at hv
    obtain rfl : v = [] := hv
    rwa [List.append_nil]
  | group o c cs ih =>
    have hcs : ∀ m ∈ cs, ∀ st, m.Fits st → Precedes m.words (m.rest st) := fun m hm st hst =>
      precedes_rest_of (hn.of_mem hm) hst (ih m hm (hn.of_mem hm) hst)
    rw [occurrence]
    cases st with
    | leaf k => exact absurd hst hcount
    | sequence k i st =>
      cases c <;> simp only [Fits] at hst
      exact precedes_sequenceUnderWay hcs (fun m hm => (hn.of_mem hm).exists_mem_words) hst.2.2
    | choice k i st =>
      cases c <;> simp only [Fits] at hst
      obtain ⟨m, hm, h⟩ := precedes_branchUnderWay hcs hst.2.2
      refine h.mono fun w hw => mem_combine_choice.2 (Or.inr ⟨m.words, ?_, hw⟩)
      exact wordsOf_eq cs ▸ List.mem_map_of_mem hm
    | all k sts =>
      cases c <;> simp only [Fits] at hst
      exact precedes_allUnderWay hcs hst.2.2

/-- **Every progress that fits stands after a start of a word.** -/
theorem precedes_rest {n : Node} (hn : n.Proper) {st : Progress} (hst : n.Fits st) :
    Precedes n.words (n.rest st) := precedes_rest_of hn hst (precedes_underWay hn hst)

/-- What may follow a progress has no letters that the tree has not. -/
theorem letters_rest_subset {n : Node} (hn : n.Proper) {st : Progress} (hst : n.Fits st) :
    letters (n.rest st) ⊆ letters n.words := (precedes_rest hn hst).letters_subset

end Node
end ContentModel
end SchemaAssist
