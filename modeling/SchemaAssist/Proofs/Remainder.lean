/-
# What remains of a content

For every progress through a tree there are the attributed words that lead from it to the end of a
word of the tree (`Node.rest`).  They start from all words of the tree (`rest_fresh`), they hold the
empty word where the list of elements may stop (`nil_mem_rest_iff`).  They are words of all
derivations that agree with a progress: nothing is said here of which one a step prefers.

A progress that steps can reach has the shape of its tree and keeps to its bounds (`Node.Fits`).
-/

import SchemaAssist.Proofs.Attributions

namespace SchemaAssist
namespace ContentModel
namespace Node

mutual

/-- A progress has the shape of a tree, and its counts keep to the upper bounds. -/
def Fits : Node → Progress → Prop
  | group .., .leaf k => k = 0
  | group o .sequence cs, .sequence k i st => 0 < k ∧ o.Within k ∧ FitsAt cs i st
  | group o .choice cs, .choice k i st => 0 < k ∧ o.Within k ∧ FitsAt cs i st
  | group o .all cs, .all k sts => 0 < k ∧ o.Within k ∧ FitsEach cs sts
  | n, .leaf k => n.occurs.Within k
  | _, _ => False

/-- A progress fits the tree at an index. -/
def FitsAt : List Node → Nat → Progress → Prop
  | [], _, _ => False
  | c :: _, 0, st => Fits c st
  | _ :: cs, i + 1, st => FitsAt cs i st

/-- Each progress fits its tree. -/
def FitsEach : List Node → List Progress → Prop
  | [], [] => True
  | c :: cs, st :: sts => Fits c st ∧ FitsEach cs sts
  | _, _ => False

end

mutual

/-- The words that end the occurrence under way. -/
def underWay : Node → Progress → Language Letter
  | group _ _ cs, .sequence _ i st => sequenceUnderWay cs i st
  | group _ _ cs, .choice _ i st => branchUnderWay cs i st
  | group _ _ cs, .all _ sts => allUnderWay cs sts
  | _, _ => 1

/-- The words that end a sequence: those that end its current particle, then those of all later
ones. -/
def sequenceUnderWay : List Node → Nat → Progress → Language Letter
  | [], _, _ => 1
  | c :: cs, 0, st =>
    underWay c st * c.occurs.further st.count c.occurrence * (wordsOf cs).prod
  | _ :: cs, i + 1, st => sequenceUnderWay cs i st

/-- The words that end a choice: those that end the particle taken. -/
def branchUnderWay : List Node → Nat → Progress → Language Letter
  | [], _, _ => 1
  | c :: _, 0, st => underWay c st * c.occurs.further st.count c.occurrence
  | _ :: cs, i + 1, st => branchUnderWay cs i st

/-- The words that end an unordered group: those that end its particles, in any order. -/
def allUnderWay : List Node → List Progress → Language Letter
  | c :: cs, st :: sts =>
    shuffle (underWay c st * c.occurs.further st.count c.occurrence) (allUnderWay cs sts)
  | _, _ => 1

end

/-- The words that lead from a progress to the end of a word of the tree: what ends the occurrence
under way, then further occurrences. -/
def rest (n : Node) (st : Progress) : Language Letter :=
  n.underWay st * n.occurs.further st.count n.occurrence

theorem sequenceUnderWay_zero (c : Node) (cs : List Node) (st : Progress) :
    sequenceUnderWay (c :: cs) 0 st = c.rest st * (wordsOf cs).prod := rfl

theorem allUnderWay_cons (c : Node) (cs : List Node) (st : Progress) (sts : List Progress) :
    allUnderWay (c :: cs) (st :: sts) = shuffle (c.rest st) (allUnderWay cs sts) := rfl

@[simp] theorem underWay_leaf (n : Node) (k : Nat) : n.underWay (.leaf k) = 1 := by
  cases n <;> rfl

@[simp] theorem rest_fresh (n : Node) : n.rest .fresh = n.words := by
  rw [rest, Progress.fresh, underWay_leaf, one_mul]
  exact Occurs.further_zero

/-- At its start a sequence has all its words before it. -/
theorem sequenceUnderWay_fresh (cs : List Node) :
    sequenceUnderWay cs 0 .fresh = (wordsOf cs).prod := by
  cases cs with
  | nil => rfl
  | cons c cs => rw [sequenceUnderWay_zero, rest_fresh, wordsOf, List.prod_cons]; rfl

/-- At its start an unordered group has all its words before it. -/
theorem allUnderWay_fresh (cs : List Node) :
    allUnderWay cs (cs.map fun _ => .fresh) = (wordsOf cs).foldr shuffle 1 := by
  induction cs with
  | nil => rfl
  | cons c cs ih =>
    rw [List.map_cons, allUnderWay_cons, rest_fresh, ih]
    rfl

/-! ### Where the content may end -/

/-- A leaf makes no empty word. -/
theorem nil_notMem_words (s : Symbol) : [] ∉ s.words := by
  rintro ⟨a, -, h⟩
  cases h

/-- One occurrence may be of no elements exactly where the empty word is among its words. -/
theorem nil_mem_occurrence_iff {n : Node} (hn : n.Ordered) :
    [] ∈ n.occurrence ↔ n.termNullable = true := by
  induction n using Node.induct with
  | leaf n s hs =>
    rw [occurrence_of_leaf hs]
    cases n <;> cases hs <;> simp [termNullable, nil_notMem_words]
  | group o c cs ih =>
    have hcs : ∀ m ∈ cs, [] ∈ m.words ↔ m.nullable = true := fun m hm => by
      rw [words, Occurs.nil_mem_words (hn.of_mem hm).valid, ih m hm (hn.of_mem hm), nullable,
        Bool.or_eq_true, Occurs.emptiable, beq_iff_eq]
    rw [occurrence]
    cases c with
    | sequence =>
      rw [Compositor.combine, nil_mem_prod, termNullable, allNullable_eq, List.all_eq_true,
        wordsOf_eq, List.forall_mem_map]
      · exact forall₂_congr hcs
      · exact Compositor.noConfusion
    | choice =>
      rw [mem_combine_choice, termNullable, anyNullable_eq, Bool.or_eq_true, List.isEmpty_iff,
        List.any_eq_true, wordsOf_eq]
      simp only [List.map_eq_nil_iff, and_true, List.mem_map, exists_exists_and_eq_and]
      exact or_congr_right (exists_congr fun m => and_congr_right (hcs m))
    | all =>
      rw [Compositor.combine, nil_mem_foldr_shuffle, termNullable, allNullable_eq,
        List.all_eq_true, wordsOf_eq, List.forall_mem_map]
      · exact forall₂_congr hcs
      · exact Compositor.noConfusion

/-- A particle may be left out or may be of no elements exactly where the empty word is among its
words. -/
theorem nil_mem_words_iff {n : Node} (hn : n.Ordered) : [] ∈ n.words ↔ n.nullable = true := by
  rw [words, Occurs.nil_mem_words hn.valid, nil_mem_occurrence_iff hn, nullable, Bool.or_eq_true,
    Occurs.emptiable, beq_iff_eq]

theorem Fits.eq_fresh {n : Node} {st : Progress} (h : n.Fits st) (hcount : st.count = 0) :
    st = .fresh := by
  cases st with
  | leaf k => exact congrArg Progress.leaf hcount
  | sequence k i st =>
    cases n with
    | group o c cs => cases c <;> simp only [Fits] at h; exact absurd hcount h.1.ne'
    | _ => exact h.elim
  | choice k i st =>
    cases n with
    | group o c cs => cases c <;> simp only [Fits] at h; exact absurd hcount h.1.ne'
    | _ => exact h.elim
  | all k sts =>
    cases n with
    | group o c cs => cases c <;> simp only [Fits] at h; exact absurd hcount h.1.ne'
    | _ => exact h.elim

theorem Fits.within {n : Node} {st : Progress} (h : n.Fits st) : n.occurs.Within st.count := by
  cases n with
  | group o c cs =>
    cases st with
    | leaf k =>
      rw [Fits] at h
      exact fun _ _ => h ▸ Nat.zero_le _
    | _ => cases c <;> simp only [Fits] at h; exact h.2.1
  | _ =>
    cases st with
    | leaf k => exact h
    | _ => exact h.elim

theorem fits_fresh (n : Node) : n.Fits .fresh := by
  cases n with
  | group o c cs => rfl
  | _ => exact fun _ _ => Nat.zero_le _

theorem fitsEach_fresh (cs : List Node) : FitsEach cs (cs.map fun _ => .fresh) := by
  induction cs with
  | nil => exact trivial
  | cons c cs ih => exact ⟨fits_fresh c, ih⟩

/-- Whether a content may end, from whether the occurrence under way may. -/
theorem nil_mem_rest_iff_of {n : Node} {st : Progress} (hn : n.Ordered) (hst : n.Fits st)
    (h : [] ∈ n.underWay st ↔ n.complete st = true) :
    [] ∈ n.rest st ↔ n.canEnd st = true := by
  rw [rest, nil_mem_mul, h, Occurs.nil_mem_further hn.valid hst.within,
    nil_mem_occurrence_iff hn, canEnd, mayEnd]
  split
  next hcount =>
    have hcomplete : n.complete st = true := by
      rw [hst.eq_fresh hcount]
      cases n <;> rfl
    simp only [hcomplete, true_and, hcount, Nat.le_zero, nullable, Bool.or_eq_true,
      Occurs.emptiable, beq_iff_eq]
  next hcount =>
    simp only [Bool.and_eq_true, Bool.or_eq_true, decide_eq_true_eq]

section Lists

variable {cs : List Node} (hcs : ∀ m ∈ cs, ∀ st, m.Fits st → ([] ∈ m.rest st ↔ m.canEnd st = true))

include hcs

theorem nil_mem_sequenceUnderWay_iff (hn : ∀ m ∈ cs, m.Ordered) {i : Nat} {st : Progress}
    (h : FitsAt cs i st) :
    [] ∈ sequenceUnderWay cs i st ↔ sequenceCanEnd cs i st = true := by
  induction cs generalizing i with
  | nil => exact h.elim
  | cons c cs ih =>
    rw [List.forall_mem_cons] at hcs hn
    cases i with
    | zero =>
      rw [sequenceUnderWay_zero, nil_mem_mul, hcs.1 st h, nil_mem_prod, wordsOf_eq,
        List.forall_mem_map, sequenceCanEnd, Bool.and_eq_true, allNullable_eq, List.all_eq_true]
      exact and_congr_right fun _ => forall₂_congr fun m hm => nil_mem_words_iff (hn.2 m hm)
    | succ i => exact ih hcs.2 hn.2 h

theorem nil_mem_branchUnderWay_iff {i : Nat} {st : Progress} (h : FitsAt cs i st) :
    [] ∈ branchUnderWay cs i st ↔ branchCanEnd cs i st = true := by
  induction cs generalizing i with
  | nil => exact h.elim
  | cons c cs ih =>
    rw [List.forall_mem_cons] at hcs
    cases i with
    | zero => exact hcs.1 st h
    | succ i => exact ih hcs.2 h

theorem nil_mem_allUnderWay_iff {sts : List Progress} (h : FitsEach cs sts) :
    [] ∈ allUnderWay cs sts ↔ allCanEnd cs sts = true := by
  induction cs generalizing sts with
  | nil =>
    cases sts with
    | nil => exact iff_of_true Language.nil_mem_one rfl
    | cons st sts => exact h.elim
  | cons c cs ih =>
    rw [List.forall_mem_cons] at hcs
    cases sts with
    | nil => exact h.elim
    | cons st sts =>
      rw [allUnderWay_cons, nil_mem_shuffle, hcs.1 st h.1, ih hcs.2 h.2, allCanEnd,
        Bool.and_eq_true]
      rfl

end Lists

/-- The occurrence under way may end exactly where the empty word is among those that end it. -/
theorem nil_mem_underWay_iff {n : Node} (hn : n.Ordered) {st : Progress} (h : n.Fits st) :
    [] ∈ n.underWay st ↔ n.complete st = true := by
  induction n using Node.induct generalizing st with
  | leaf n s hs => cases n <;> cases hs <;> exact iff_of_true Language.nil_mem_one rfl
  | group o c cs ih =>
    have hcs : ∀ m ∈ cs, ∀ st, m.Fits st → ([] ∈ m.rest st ↔ m.canEnd st = true) :=
      fun m hm st hst => nil_mem_rest_iff_of (hn.of_mem hm) hst (ih m hm (hn.of_mem hm) hst)
    cases st with
    | leaf k => exact iff_of_true Language.nil_mem_one rfl
    | sequence k i st =>
      cases c <;> simp only [Fits] at h
      exact nil_mem_sequenceUnderWay_iff hcs (fun m hm => hn.of_mem hm) h.2.2
    | choice k i st =>
      cases c <;> simp only [Fits] at h
      exact nil_mem_branchUnderWay_iff hcs h.2.2
    | all k sts =>
      cases c <;> simp only [Fits] at h
      exact nil_mem_allUnderWay_iff hcs h.2.2

/-- **A content may end exactly where the empty word remains.** -/
theorem nil_mem_rest_iff {n : Node} (hn : n.Ordered) {st : Progress} (h : n.Fits st) :
    [] ∈ n.rest st ↔ n.canEnd st = true :=
  nil_mem_rest_iff_of hn h (nil_mem_underWay_iff hn h)

/-! ### Something always remains -/

/-- A tree whose leaves match something has a word for every occurrence. -/
theorem exists_mem_occurrence {n : Node} (hn : n.Ordered) (hm : n.Matchable) :
    ∃ w, w ∈ n.occurrence := by
  induction n using Node.induct with
  | leaf n s hs =>
    obtain ⟨a, ha⟩ := hm.exists_reads hs
    exact ⟨[a], occurrence_of_leaf hs ▸ ⟨a, ha, rfl⟩⟩
  | group o c cs ih =>
    have hcs : ∀ l ∈ wordsOf cs, ∃ w, w ∈ l := by
      rw [wordsOf_eq, List.forall_mem_map]
      exact fun m hmem => Occurs.nonempty_words (hn.of_mem hmem).valid
        (ih m hmem (hn.of_mem hmem) (hm.of_mem hmem))
    rw [occurrence]
    exact exists_mem_combine hcs

/-- A tree whose leaves match something has a word. -/
theorem exists_mem_words {n : Node} (hn : n.Ordered) (hm : n.Matchable) : ∃ w, w ∈ n.words :=
  Occurs.nonempty_words hn.valid (exists_mem_occurrence hn hm)

theorem exists_mem_rest_of {n : Node} {st : Progress} (hn : n.Ordered) (hm : n.Matchable)
    (hst : n.Fits st) (h : ∃ w, w ∈ n.underWay st) : ∃ w, w ∈ n.rest st := by
  obtain ⟨u, hu⟩ := h
  obtain ⟨v, hv⟩ := Occurs.nonempty_further hn.valid hst.within (exists_mem_occurrence hn hm)
  exact ⟨u ++ v, Language.append_mem_mul hu hv⟩

section Lists

variable {cs : List Node} (hcs : ∀ m ∈ cs, ∀ st, m.Fits st → ∃ w, w ∈ m.rest st)

include hcs

theorem exists_mem_sequenceUnderWay (hwords : ∀ m ∈ cs, ∃ w, w ∈ m.words) {i : Nat}
    {st : Progress} (h : FitsAt cs i st) : ∃ w, w ∈ sequenceUnderWay cs i st := by
  induction cs generalizing i with
  | nil => exact h.elim
  | cons c cs ih =>
    rw [List.forall_mem_cons] at hcs hwords
    cases i with
    | zero =>
      obtain ⟨u, hu⟩ := hcs.1 st h
      have hls : ∀ l ∈ wordsOf cs, ∃ w, w ∈ l := by
        rw [wordsOf_eq, List.forall_mem_map]
        exact hwords.2
      obtain ⟨v, hv⟩ := exists_mem_prod hls
      exact ⟨u ++ v, Language.append_mem_mul hu hv⟩
    | succ i => exact ih hcs.2 hwords.2 h

theorem exists_mem_branchUnderWay {i : Nat} {st : Progress} (h : FitsAt cs i st) :
    ∃ w, w ∈ branchUnderWay cs i st := by
  induction cs generalizing i with
  | nil => exact h.elim
  | cons c cs ih =>
    rw [List.forall_mem_cons] at hcs
    cases i with
    | zero => exact hcs.1 st h
    | succ i => exact ih hcs.2 h

theorem exists_mem_allUnderWay {sts : List Progress} (h : FitsEach cs sts) :
    ∃ w, w ∈ allUnderWay cs sts := by
  induction cs generalizing sts with
  | nil => exact ⟨[], Language.nil_mem_one⟩
  | cons c cs ih =>
    rw [List.forall_mem_cons] at hcs
    cases sts with
    | nil => exact h.elim
    | cons st sts => exact exists_mem_shuffle (hcs.1 st h.1) (ih hcs.2 h.2)

end Lists

/-- **Every progress that fits can be led to an end.** -/
theorem exists_mem_rest {n : Node} {st : Progress} (hn : n.Ordered) (hm : n.Matchable)
    (hst : n.Fits st) : ∃ w, w ∈ n.rest st := by
  refine exists_mem_rest_of hn hm hst ?_
  induction n using Node.induct generalizing st with
  | leaf n s hs => cases n <;> cases hs <;> exact ⟨[], Language.nil_mem_one⟩
  | group o c cs ih =>
    have hcs : ∀ m ∈ cs, ∀ st, m.Fits st → ∃ w, w ∈ m.rest st := fun m hmem st hst =>
      exists_mem_rest_of (hn.of_mem hmem) (hm.of_mem hmem) hst
        (ih m hmem (hn.of_mem hmem) (hm.of_mem hmem) hst)
    cases st with
    | leaf k => exact ⟨[], Language.nil_mem_one⟩
    | sequence k i st =>
      cases c <;> simp only [Fits] at hst
      exact exists_mem_sequenceUnderWay hcs
        (fun m hmem => exists_mem_words (hn.of_mem hmem) (hm.of_mem hmem)) hst.2.2
    | choice k i st =>
      cases c <;> simp only [Fits] at hst
      exact exists_mem_branchUnderWay hcs hst.2.2
    | all k sts =>
      cases c <;> simp only [Fits] at hst
      exact exists_mem_allUnderWay hcs hst.2.2

end Node
end ContentModel
end SchemaAssist
