/-
# Occurrences that absorb their successors

Where an element may go on with an occurrence as well as start the next one, a step goes on.  What
the next occurrence would have needed must then be found in the one under way and those after it:
the one under way absorbs the beginning of the next (`Node.Absorbs`).  So it does if one occurrence
is enough for its bounds, or if there is no upper bound, and if the same holds of every particle
that can go on with what it begins with (`Node.Absorbent`).
-/

import SchemaAssist.Proofs.Ends
import SchemaAssist.Proofs.Greedy

namespace SchemaAssist

namespace Occurs

variable {α : Type*} {o : Occurs} {l : Language α} {count : Nat}

/-- Where one occurrence is enough, one more word than given leaves nothing out. -/
theorem further_succ_le (h : o.min ≤ 1 ∨ [] ∈ l) (hcount : 1 ≤ count) :
    o.further (count + 1) l ≤ o.further count l := by
  rintro w ⟨k, hk, hw⟩
  rcases h with hmin | hnil
  · exact ⟨k, ⟨by omega, fun max hmax => by have := hk.2 max hmax; omega⟩, hw⟩
  · refine ⟨k + 1, by rwa [show count + (k + 1) = count + 1 + k by omega], ?_⟩
    exact pow_mono_of_nil_mem hnil k.le_succ hw

/-- What may follow one word may follow any number of them if some of it may be left to a new start
of the whole. -/
theorem further_one_le (ho : o.Valid) (h : o.min ≤ 1 ∨ [] ∈ l ∨ o.max = none)
    (hcount : 1 ≤ count) (hwithin : o.Within count) :
    o.further 1 l ≤ o.further count l * (1 + o.words l) := by
  rintro w ⟨k, hk, hw⟩
  by_cases hall : o.Within (count + k)
  · have hw : w ∈ o.further count l := ⟨k, ⟨by have := hk.1; omega, hall⟩, hw⟩
    exact List.append_nil w ▸ Language.append_mem_mul hw (Or.inl Language.nil_mem_one)
  -- as many of the words as there is room for, and then the others
  obtain ⟨max, hmax, hlt⟩ : ∃ max ∈ o.max, max < count + k := by simpa [Within] using hall
  have hroom := hwithin max hmax
  obtain ⟨j, hj⟩ := Nat.exists_eq_add_of_le hroom
  obtain ⟨i, hi⟩ := Nat.exists_eq_add_of_le (show j ≤ k by omega)
  have hk' := hk.2 max hmax
  rw [hi, pow_add] at hw
  obtain ⟨u, hu, v, hv, rfl⟩ := Language.mem_mul.1 hw
  have hallows : ∀ n, o.min ≤ n → n ≤ max → o.Allows n := fun n hmin hle =>
    ⟨hmin, fun max' hmax' => by rwa [Option.mem_unique hmax' hmax]⟩
  refine Language.append_mem_mul ⟨j, hj ▸ hallows max (ho max hmax) le_rfl, hu⟩ (Or.inr ?_)
  rcases h with hmin | hnil | hnone
  · exact ⟨i, hallows i (by omega) (by omega), hv⟩
  · exact ⟨max, hallows max (ho max hmax) le_rfl, pow_mono_of_nil_mem hnil (by omega) hv⟩
  · rw [hnone] at hmax
    cases hmax

end Occurs

namespace ContentModel
namespace Node

/-- One occurrence is enough for the bounds of a tree. -/
def onceIsEnough (n : Node) : Bool := n.termNullable || n.occurs.min ≤ 1

/-- A tree whose occurrences never end where they might go on needs no more than one occurrence, or
any number of them is allowed. -/
def roomy (n : Node) : Bool := n.onceIsEnough || n.occurs.unbounded

mutual

/-- A tree goes on with nothing that it begins with, or else it has room for more occurrences and
they absorb what they begin with. -/
def Absorbent : Node → Prop
  | n@(group _ c cs) => Disjoint (goesOn n.words) (starts n.words) ∨ n.roomy = true ∧
      (Disjoint (goesOn n.occurrence) (starts n.occurrence) ∨ AbsorbentEach c cs)
  | n => Disjoint (goesOn n.words) (starts n.words) ∨ n.roomy = true

/-- The particles of a group absorb what they begin with where all others may be left out. -/
def AbsorbentEach : Compositor → List Node → Prop
  | .all, _ => False
  | _, [] => True
  | .choice, n :: cs => Absorbent n ∧ AbsorbentEach .choice cs
  | .sequence, n :: cs =>
    (allNullable cs = true → Absorbent n) ∧ (n.nullable = true → AbsorbentEach .sequence cs)

end

/-- One occurrence of a tree goes on with nothing that it begins with, or else its particles absorb
what they begin with. -/
def AbsorbentInside : Node → Prop
  | n@(group _ c cs) => Disjoint (goesOn n.occurrence) (starts n.occurrence) ∨ AbsorbentEach c cs
  | _ => True

variable {name : Name} {p : Leaf} {n : Node} {o : Occurs} {c : Compositor} {cs : List Node}

theorem absorbent_iff : n.Absorbent ↔
    Disjoint (goesOn n.words) (starts n.words) ∨ n.roomy = true ∧ n.AbsorbentInside := by
  cases n with
  | group o c cs => rw [Absorbent, AbsorbentInside]
  | _ => simp only [Absorbent, AbsorbentInside, and_true]

theorem absorbentEach_choice_iff : AbsorbentEach .choice cs ↔ ∀ m ∈ cs, m.Absorbent := by
  induction cs with
  | nil => simp [AbsorbentEach]
  | cons c cs ih => rw [AbsorbentEach, ih, List.forall_mem_cons]

/-- Where a tree may end, a step that goes on with the leaf `p` finds later all that another start
of the tree would have found. -/
def Absorbs (name : Name) (p : Leaf) (n : Node) : Prop :=
  ∀ st st' t, n.Fits st → Only name p (n.rest st) → [] ∈ n.rest st →
    n.step name st = some (st', t) → ∀ z, (name, p) :: z ∈ n.words → z ∈ n.rest st' * (1 + n.words)

/-- Where an occurrence may end, a step inside it that goes on with the leaf `p` finds later all
that another occurrence would have found. -/
def AbsorbsInside (name : Name) (p : Leaf) (n : Node) : Prop :=
  ∀ st st' t, n.Fits st → Only name p (n.underWay st) → [] ∈ n.underWay st →
    stepInside name n.children st = some (st', t) → ∀ z, (name, p) :: z ∈ n.occurrence →
      z ∈ n.underWay st' * (1 + n.occurrence)

theorem absorbs_of_disjoint (hn : n.Proper) (h : Disjoint (goesOn n.words) (starts n.words)) :
    Absorbs name p n := by
  intro st st' t hst honly hnil hstep z hz
  obtain ⟨v, hv⟩ := exists_mem_rest_of_step hn hst honly hstep
  exact absurd ⟨z, hz⟩ (Set.disjoint_left.1 h ((precedes_rest hn hst).mem_goesOn hnil hv))

section Inside

variable {st st' : Progress} {t : Term} (hst : (group o c cs).Fits st)
  (h : stepInside name cs st = some (st', t))

include hst h

theorem one_le_count_of_stepInside : 1 ≤ st.count := by
  rw [Nat.one_le_iff_ne_zero]
  intro hcount
  rw [hst.eq_fresh hcount] at h
  cases h

/-- A step inside an occurrence reads a letter that the occurrence may go on with. -/
theorem exists_mem_underWay_of_stepInside (hn : (group o c cs).Proper)
    (honly : Only name p ((group o c cs).underWay st)) :
    ∃ v, (name, p) :: v ∈ (group o c cs).underWay st := by
  obtain ⟨hfits, -, hleads⟩ := leads_of_stepInside hn.ordered hst h
  obtain ⟨w, hw⟩ := exists_mem_rest hn.ordered hn.matchable hfits
  obtain ⟨u, hu, -⟩ := Language.mem_mul.1 hw
  obtain ⟨v, -, hv⟩ := honly.mem_of_leads hleads ⟨u, hu⟩
  exact ⟨v, hv⟩

/-- A step inside an occurrence that may end takes what the occurrence goes on with. -/
theorem mem_goesOn_of_stepInside (hn : (group o c cs).Proper)
    (honly : Only name p ((group o c cs).underWay st)) (hnil : [] ∈ (group o c cs).underWay st) :
    (name, p) ∈ goesOn (group o c cs).occurrence := by
  obtain ⟨v, hv⟩ := exists_mem_underWay_of_stepInside hst h hn honly
  have hcount := Nat.one_le_iff_ne_zero.1 (one_le_count_of_stepInside hst h)
  exact (precedes_underWay hn hst hcount).mem_goesOn hnil hv

end Inside

theorem absorbsInside_of_disjoint (hn : (group o c cs).Proper)
    (h : Disjoint (goesOn (group o c cs).occurrence) (starts (group o c cs).occurrence)) :
    AbsorbsInside name p (group o c cs) := by
  intro st st' t hst honly hnil hstep z hz
  exact absurd ⟨z, hz⟩ (Set.disjoint_left.1 h (mem_goesOn_of_stepInside hst hstep hn honly hnil))

/-- What one part absorbs of its next start, the whole absorbs of its own if the other part may be
left out. -/
theorem append_mem_mul_one_add {l k m : Language Letter} {u v : List Letter}
    (hu : u ∈ l * (1 + k)) (hv : v ∈ m) (hnil : [] ∈ m) : u ++ v ∈ l * m * (1 + k * m) := by
  obtain ⟨a, ha, b, hb, rfl⟩ := Language.mem_mul.1 hu
  rw [List.append_assoc]
  rcases hb with rfl | hb
  · exact List.append_nil (a ++ v) ▸
      Language.append_mem_mul (Language.append_mem_mul ha hv) (Or.inl Language.nil_mem_one)
  · exact List.append_nil a ▸ Language.append_mem_mul (Language.append_mem_mul ha hnil)
      (Or.inr (Language.append_mem_mul hb hv))

section Lists

variable (hn : ∀ m ∈ cs, m.Proper)

include hn

/-- A step inside a sequence reads a letter of one of its particles. -/
theorem mem_letters_of_sequenceStep {i i' : Nat} {st st' : Progress} {t : Term}
    (hst : FitsAt cs i st) (honly : Only name p (sequenceUnderWay cs i st))
    (h : sequenceStep name cs i st = some (i', st', t)) :
    (name, p) ∈ letters (wordsOf cs).prod := by
  obtain ⟨hfits, hleads⟩ := sequenceStep_spec (fun m hm => (hn m hm).ordered)
    (fun m hm => step_spec (hn m hm).ordered) hst h
  have hne := exists_mem_sequenceUnderWay
    (fun m hm _ hst => exists_mem_rest (hn m hm).ordered (hn m hm).matchable hst)
    (fun m hm => (hn m hm).exists_mem_words) hfits
  obtain ⟨v, -, hv⟩ := honly.mem_of_leads hleads hne
  have hprecedes := precedes_sequenceUnderWay (fun m hm st => precedes_rest (hn m hm))
    (fun m hm => (hn m hm).exists_mem_words) hst
  exact hprecedes.letters_subset (head_mem_letters hv)

variable (hcs : ∀ m ∈ cs, Follows name p m) (habsorbs : ∀ m ∈ cs, m.Absorbent → Absorbs name p m)
  (hdisjoint : (wordsOf cs).Pairwise fun l m => Disjoint (letters l) (letters m))

include hcs habsorbs hdisjoint

theorem sequenceStep_absorbs (habsorbent : AbsorbentEach .sequence cs) {i i' : Nat}
    {st st' : Progress} {t : Term} (hst : FitsAt cs i st)
    (honly : Only name p (sequenceUnderWay cs i st)) (hnil : [] ∈ sequenceUnderWay cs i st)
    (h : sequenceStep name cs i st = some (i', st', t)) {z : List Letter}
    (hz : (name, p) :: z ∈ (wordsOf cs).prod) :
    z ∈ sequenceUnderWay cs i' st' * (1 + (wordsOf cs).prod) := by
  induction cs generalizing i i' st with
  | nil => exact hst.elim
  | cons c cs ih =>
    have hfollows := fun z => sequenceStep_follows hn hcs hdisjoint hst honly (z := z)
    rw [List.forall_mem_cons] at hn hcs habsorbs
    rw [wordsOf, List.pairwise_cons] at hdisjoint
    rw [AbsorbentEach] at habsorbent
    have hlater : Disjoint (letters c.words) (letters (wordsOf cs).prod) :=
      disjoint_letters_of hdisjoint.1 fun a => letters_prod_subset
    have hprod : (wordsOf (c :: cs)).prod = c.words * (wordsOf cs).prod := List.prod_cons
    rw [hprod] at hz ⊢
    cases i with
    | zero =>
      rw [sequenceUnderWay_zero] at honly hnil hfollows
      obtain ⟨hend, hothers⟩ := nil_mem_mul.1 hnil
      have hfirst := honly.of_mul_left (exists_mem_prod_wordsOf hn.2)
      rcases cons_mem_mul.1 hz with ⟨u, v, rfl, hu, hv⟩ | ⟨hnil', hz⟩
      · -- the leaf is one of the current particle, so no later one takes the name
        rcases sequenceStep_zero_cases h with ⟨hstep, rfl⟩ | ⟨-, j, hstep, rfl⟩
        · have hall := (nil_mem_prod_wordsOf_iff fun m hm => (hn.2 m hm).ordered).1 hothers
          rw [← allNullable_eq] at hall
          have hu := habsorbs.1 (habsorbent.1 hall) st st' t hst hfirst hend hstep u hu
          exact append_mem_mul_one_add hu hv hothers
        · have hrest := honly.of_mul_right hend
          rw [← sequenceUnderWay_fresh] at hrest
          have hletter :=
            mem_letters_of_sequenceStep hn.2 (fitsAt_fresh_of_step hstep) hrest hstep
          exact absurd hletter (Set.disjoint_left.1 hlater (head_mem_letters hu))
      · -- the leaf is one of a later particle, which is as it was at the start
        have hz' := mem_mul_of_nil_mem hend hz
        obtain ⟨j, st₁, t₁, hstep, hz⟩ := hfollows z hz'
        obtain ⟨rfl, rfl, rfl⟩ : i' = j ∧ st' = st₁ ∧ t = t₁ := by simpa [hstep] using h.symm
        exact List.append_nil z ▸ Language.append_mem_mul hz (Or.inl Language.nil_mem_one)
    | succ i =>
      rw [sequenceStep] at h
      obtain ⟨⟨j, st₁, t₁⟩, hstep, hfound⟩ := Option.map_eq_some_iff.1 h
      cases hfound
      rcases cons_mem_mul.1 hz with ⟨u, v, rfl, hu, hv⟩ | ⟨hnil', hz⟩
      · have hletter := mem_letters_of_sequenceStep hn.2 hst honly hstep
        exact absurd hletter (Set.disjoint_left.1 hlater (head_mem_letters hu))
      · have hskip := habsorbent.2 ((nil_mem_words_iff hn.1.ordered).1 hnil')
        obtain ⟨a, ha, b, hb, rfl⟩ := Language.mem_mul.1 <|
          ih hn.2 hcs.2 habsorbs.2 hdisjoint.2 hskip hst honly hnil hstep hz
        exact Language.append_mem_mul ha (hb.imp_right (mem_mul_of_nil_mem hnil'))

omit hcs in
theorem branchStep_absorbs (habsorbent : AbsorbentEach .choice cs) {i : Nat}
    {st st' : Progress} {t : Term} (hst : FitsAt cs i st)
    (honly : Only name p (branchUnderWay cs i st)) (hnil : [] ∈ branchUnderWay cs i st)
    (h : branchStep name cs i st = some (st', t)) {m : Node} (hm : m ∈ cs) {z : List Letter}
    (hz : (name, p) :: z ∈ m.words) :
    z ∈ branchUnderWay cs i st' * (1 + m.words) := by
  obtain ⟨d, hd, hbranch⟩ := exists_branch name hst
  obtain ⟨hfits, hrest, hstep⟩ := hbranch st
  rw [hrest] at honly hnil
  rw [hstep] at h
  obtain ⟨v, hv⟩ := exists_mem_rest_of_step (hn d hd) (hfits.1 hst) honly h
  have hletter := letters_rest_subset (hn d hd) (hfits.1 hst) (head_mem_letters hv)
  -- the leaf is one of the particle taken, so the word is one of this particle
  obtain rfl : m = d := eq_of_mem_letters hdisjoint hm hd (head_mem_letters hz) hletter
  rw [(hbranch st').2.1]
  exact habsorbs m hm (absorbentEach_choice_iff.1 habsorbent m hm) st st' t (hfits.1 hst) honly hnil
    h z hz

end Lists

theorem onceIsEnough_iff (hn : n.Ordered) :
    n.onceIsEnough = true ↔ n.occurs.min ≤ 1 ∨ [] ∈ n.occurrence := by
  rw [onceIsEnough, Bool.or_eq_true, decide_eq_true_eq, nil_mem_occurrence_iff hn, or_comm]

theorem roomy_iff (hn : n.Ordered) :
    n.roomy = true ↔ n.occurs.min ≤ 1 ∨ [] ∈ n.occurrence ∨ n.occurs.max = none := by
  rw [roomy, Bool.or_eq_true, onceIsEnough_iff hn, Occurs.unbounded, Option.isNone_iff_eq_none,
    or_assoc]

theorem absorbs_of_leaf {s : Symbol} (hs : n.symbol? = some s) (hn : n.Proper)
    (hroomy : n.roomy = true) : Absorbs name p n := by
  intro st st' t hst honly hnil h z hz
  rw [step_leaf name hs] at h
  split at h
  next hstart =>
    rw [Bool.and_eq_true, canStart_iff hn.ordered hst] at hstart
    obtain ⟨t₁, -, hfound⟩ := Option.map_eq_some_iff.1 h
    cases hfound
    rw [words, ← Occurs.further_zero] at hz
    obtain ⟨-, u, v, rfl, hu, hv⟩ := Occurs.exists_of_cons_mem_further hz
    -- the leaf takes the element, and nothing else is left of its occurrence
    rw [occurrence_of_leaf hs] at hu
    obtain ⟨a, -, hu⟩ := hu
    obtain rfl := (List.cons_eq_cons.1 hu).2
    rw [rest, underWay_leaf, one_mul]
    exact Occurs.further_one_le hn.ordered.valid ((roomy_iff hn.ordered).1 hroomy) st.count.succ_pos
      (Occurs.full_eq_false_iff.1 hstart.1.1) hv
  next => cases h

section Group

variable (hn : (group o c cs).Proper) (hcs : ∀ m ∈ cs, Follows name p m)

include hn hcs

/-- An occurrence absorbs what it begins with if the particles do. -/
theorem absorbsInside_of_absorbent (habsorbs : ∀ m ∈ cs, m.Absorbent → Absorbs name p m)
    (h : (group o c cs).AbsorbentInside) : AbsorbsInside name p (group o c cs) := by
  rcases h with h | h
  · exact absorbsInside_of_disjoint hn h
  intro st st' t hst honly hnil hstep z hz
  have hproper : ∀ m ∈ cs, m.Proper := fun m hm => hn.of_mem hm
  have hdisjoint := disjoint_letters hn.numbered
  cases st with
  | leaf k => cases hstep
  | sequence k i st =>
    cases c <;> simp only [Fits] at hst
    obtain ⟨⟨i', st₁, t₁⟩, hstep, hfound⟩ := Option.map_eq_some_iff.1 hstep
    cases hfound
    exact sequenceStep_absorbs hproper hcs habsorbs hdisjoint h hst.2.2 honly hnil hstep hz
  | choice k i st =>
    cases c <;> simp only [Fits] at hst
    obtain ⟨⟨st₁, t₁⟩, hstep, hfound⟩ := Option.map_eq_some_iff.1 hstep
    cases hfound
    rcases mem_combine_choice.1 hz with ⟨-, hz⟩ | ⟨l, hl, hz⟩
    · cases hz
    rw [wordsOf_eq] at hl
    obtain ⟨m, hm, rfl⟩ := List.mem_map.1 hl
    obtain ⟨a, ha, b, hb, rfl⟩ := Language.mem_mul.1 <|
      branchStep_absorbs hproper habsorbs hdisjoint h hst.2.2 honly hnil hstep hm hz
    refine Language.append_mem_mul ha (hb.imp_right fun hb => mem_combine_choice.2 (Or.inr ?_))
    exact ⟨m.words, wordsOf_eq cs ▸ List.mem_map_of_mem hm, hb⟩
  | all k sts =>
    cases c <;> simp only [Fits] at hst
    rw [AbsorbentEach] at h
    exact h.elim

theorem absorbs_of_absorbsInside (hroomy : (group o c cs).roomy = true)
    (hinside : AbsorbsInside name p (group o c cs)) : Absorbs name p (group o c cs) := by
  intro st st' t hst honly hnil h z hz
  have hfurther : ∀ k, 1 ≤ k → o.Within k → o.further 1 (group o c cs).occurrence ≤
      o.further k (group o c cs).occurrence * (1 + (group o c cs).words) := fun k =>
    Occurs.further_one_le hn.ordered.valid ((roomy_iff hn.ordered).1 hroomy)
  obtain ⟨hend, hmore⟩ := nil_mem_mul.1 hnil
  rw [words, ← Occurs.further_zero] at hz
  obtain ⟨-, u, v, rfl, hu, hv⟩ := Occurs.exists_of_cons_mem_further hz
  rw [step_group] at h
  rcases Option.or_eq_some_iff.1 h with h | ⟨-, h⟩
  · have hcount := one_le_count_of_stepInside hst h
    obtain ⟨-, hsame, -⟩ := leads_of_stepInside hn.ordered hst h
    have hrest := honly.of_mul_left (Occurs.nonempty_further hn.ordered.valid hst.within
      hn.exists_mem_occurrence)
    obtain ⟨a, ha, b, hb, rfl⟩ := Language.mem_mul.1 (hinside st st' t hst hrest hend h u hu)
    rw [rest, hsame, List.append_assoc]
    rcases hb with rfl | hb
    · rw [mul_assoc]
      exact Language.append_mem_mul ha (hfurther _ hcount hst.within hv)
    · refine List.append_nil a ▸ Language.append_mem_mul (Language.append_mem_mul ha hmore) ?_
      refine Or.inr ?_
      rw [words, ← Occurs.further_zero]
      exact Occurs.append_mem_further hb hv
  · split at h
    next hstart =>
      have hwithin := Occurs.full_eq_false_iff.1 ((canStart_iff hn.ordered hst).1 hstart).1
      have hterm := (honly.of_mul_right hend).of_further <|
        Occurs.nonempty_further hn.ordered.valid hwithin hn.exists_mem_occurrence
      obtain ⟨-, hcount, -⟩ := leads_of_stepAfresh hn.ordered hwithin h
      obtain ⟨st₁, t₁, hstep, hu⟩ := stepAfresh_follows hn hcs hterm (st.count + 1) hu
      obtain ⟨rfl, rfl⟩ : st' = st₁ ∧ t = t₁ := by simpa [hstep] using h.symm
      rw [rest, hcount, mul_assoc]
      exact Language.append_mem_mul hu (hfurther _ st.count.succ_pos hwithin hv)
    next => cases h

end Group

end Node
end ContentModel
end SchemaAssist
