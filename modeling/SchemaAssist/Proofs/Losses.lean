/-
# Where going on loses something

A tree that is not steady has a group that may occur more than once and whose occurrences go on with
what they begin with.  If more than one occurrence is needed, going on costs one of them
(`costly_occurrence`); if one is enough but it does not absorb what it begins with, going on wastes
letters (`wasteful_occurrence`).  Both are facts on languages only.  Unordered groups are left out:
their particles may make up for each other.
-/

import SchemaAssist.Proofs.Overlap
import SchemaAssist.Proofs.Steadiness

namespace SchemaAssist
namespace ContentModel
namespace Node

/-- No group of a tree is unordered. -/
def Ranked (n : Node) : Prop := ∀ m ∈ n.subtrees, ∀ o cs, m ≠ group o .all cs

variable {n : Node} {o : Occurs} {c : Compositor} {cs : List Node}

theorem Ranked.of_mem {m : Node} (h : (group o c cs).Ranked) (hm : m ∈ cs) : m.Ranked :=
  fun x hx => h x (mem_subtrees_group.2 (Or.inr ⟨m, hm, hx⟩))

theorem Ranked.ne_all (h : (group o c cs).Ranked) : c ≠ .all := by
  rintro rfl
  exact h _ (self_mem_subtrees _) o cs rfl

/-- One occurrence of a leaf does not go on. -/
theorem disjoint_of_leaf {s : Symbol} (hs : n.symbol? = some s) :
    Disjoint (goesOn n.occurrence) (starts n.occurrence) := by
  refine Set.disjoint_left.2 ?_
  rintro a ⟨u, hu, v, hv⟩ -
  rw [occurrence_of_leaf hs] at hu hv
  obtain ⟨b, -, rfl⟩ := hu
  obtain ⟨b', -, hb'⟩ := hv
  cases hb'

/-- **Going on costs an occurrence** where occurrences that are not empty go on with what they begin
with. -/
theorem costly_occurrence (hn : n.Proper) (hranked : n.Ranked) (hnil : [] ∉ n.occurrence)
    (h : ¬ Disjoint (goesOn n.occurrence) (starts n.occurrence)) : Costly n.occurrence := by
  induction n using Node.induct with
  | leaf n s hs => exact absurd (disjoint_of_leaf hs) h
  | group o c cs ih =>
    have hcostly : ∀ l ∈ wordsOf cs, [] ∉ l → ¬ Disjoint (goesOn l) (starts l) → Costly l := by
      rw [wordsOf_eq, List.forall_mem_map]
      intro m hm hnil
      have hm' := hn.of_mem hm
      refine Costly.words_of_not_disjoint hm'.exists_mem_occurrence hm'.ordered.valid hnil ?_
      refine ih m hm hm' (hranked.of_mem hm) fun hterm => hnil ?_
      exact (Occurs.nil_mem_words hm'.ordered.valid).2 (Or.inr hterm)
    have hdisjoint := disjoint_letters hn.numbered
    rw [occurrence] at hnil h ⊢
    cases c with
    | sequence => exact Costly.prod hn.exists_mem_of_mem_wordsOf hdisjoint hcostly hnil h
    | choice =>
      cases cs with
      | nil => exact absurd Language.nil_mem_one hnil
      | cons d cs => exact Costly.sum hdisjoint hcostly hnil h
    | all => exact absurd rfl hranked.ne_all

/-- A group whose particles waste letters where they do not absorb what they begin with does so
itself. -/
theorem wasteful_occurrence (hn : (group o c cs).Proper) (hranked : c ≠ .all)
    (hcs : ∀ m ∈ cs, ¬ m.Absorbent → Wasteful m.words) (h : ¬ AbsorbentEach c cs) :
    Wasteful (group o c cs).occurrence := by
  have hdisjoint := disjoint_letters hn.numbered
  have hproper : ∀ m ∈ cs, m.Proper := fun m hm => hn.of_mem hm
  rw [occurrence]
  clear hn
  cases c with
  | sequence =>
    rw [Compositor.combine]
    induction cs with
    | nil => exact absurd (by simp [AbsorbentEach]) h
    | cons d cs ih =>
      rw [List.forall_mem_cons] at hcs hproper
      rw [wordsOf, List.pairwise_cons] at hdisjoint
      have hlater : Disjoint (letters d.words) (letters (wordsOf cs).prod) :=
        disjoint_letters_of hdisjoint.1 fun a => letters_prod_subset
      have hprod : (wordsOf (d :: cs)).prod = d.words * (wordsOf cs).prod := List.prod_cons
      rw [AbsorbentEach, not_and_or] at h
      rw [hprod]
      rcases h with h | h
      · obtain ⟨hall, hd⟩ := Classical.not_imp.1 h
        rw [allNullable_eq] at hall
        refine (hcs.1 hd).mul_left hlater ?_
        exact (nil_mem_prod_wordsOf_iff fun m hm => (hproper.2 m hm).ordered).2 hall
      · obtain ⟨hd, hlater'⟩ := Classical.not_imp.1 h
        refine (ih hcs.2 hdisjoint.2 hproper.2 hlater').mul_right hlater ?_
        exact (nil_mem_words_iff hproper.1.ordered).2 hd
  | choice =>
    rw [absorbentEach_choice_iff] at h
    simp only [not_forall] at h
    obtain ⟨m, hm, habsorbent⟩ := h
    cases cs with
    | nil => cases hm
    | cons d cs =>
      have hmem : m.words ∈ wordsOf (d :: cs) := wordsOf_eq (d :: cs) ▸ List.mem_map_of_mem hm
      exact (hcs m hm habsorbent).sum hdisjoint hmem
  | all => exact absurd rfl hranked

/-- A tree without room for more occurrences wastes letters where it does not absorb what it begins
with. -/
theorem wasteful_words_of_disjoint (hn : n.Proper) (hroomy : n.roomy = false)
    (hdisjoint : Disjoint (goesOn n.occurrence) (starts n.occurrence)) (h : ¬ n.Absorbent) :
    Wasteful n.words := by
  rw [← Bool.not_eq_true, roomy_iff hn.ordered, not_or, not_or, not_le] at hroomy
  obtain ⟨hmin, hnil, hnone⟩ := hroomy
  obtain ⟨max, hmax⟩ := Option.ne_none_iff_exists'.1 hnone
  refine Wasteful.of_bounded hdisjoint hn.exists_mem_occurrence hnil hmin hmax ?_
  by_contra hexact
  refine h (absorbent_iff.2 (Or.inl ?_))
  have hgoes : Disjoint (goesOn n.words) (starts n.occurrence) := by
    refine disjoint_goesOn_words (n := n.occurs.min) hdisjoint fun k hk => ?_
    have := hk.1
    have := hk.2 max hmax
    omega
  exact hgoes.mono_right ((starts_mono Occurs.words_le_kstar).trans starts_kstar_subset)

/-- **Going on wastes letters** in a steady tree that does not absorb what it begins with. -/
theorem wasteful_words (hn : n.Proper) (hmax : n.occurs.never = false) (hranked : n.Ranked)
    (hsteady : n.Steady) (h : ¬ n.Absorbent) : Wasteful n.words := by
  induction n using Node.induct with
  | leaf n s hs =>
    have hroomy : n.roomy = false := by
      rw [absorbent_iff, not_or, not_and_or] at h
      refine Bool.eq_false_iff.2 (h.2.resolve_right fun hinside => hinside ?_)
      cases n <;> cases hs <;> exact trivial
    exact wasteful_words_of_disjoint hn hroomy (disjoint_of_leaf hs) h
  | group o c cs ih =>
    rw [Steady, steadyEach_iff] at hsteady
    have hinside : ¬ ((group o c cs).roomy = true ∧ (group o c cs).AbsorbentInside) :=
      fun hinside => h (absorbent_iff.2 (Or.inr hinside))
    by_cases hterm : Disjoint (goesOn (group o c cs).occurrence) (starts (group o c cs).occurrence)
    · have hroomy := Bool.eq_false_iff.2 fun hroomy => hinside ⟨hroomy, Or.inl hterm⟩
      exact wasteful_words_of_disjoint hn hroomy hterm h
    -- a group that may be repeated would absorb what it begins with, as it is steady
    have honce : o.multiple = false := by
      rw [← Bool.not_eq_true]
      intro hmultiple
      obtain ⟨henough, heach⟩ := (hsteady.2 hmultiple).resolve_left hterm
      exact hinside ⟨by rw [roomy, henough, Bool.true_or], Or.inr heach⟩
    have henough : (group o c cs).onceIsEnough = true := by
      obtain ⟨k, hk⟩ := hn.ordered.valid.exists_allows_succ hmax
      have := hk.1
      have := hk.le_one honce
      exact (onceIsEnough_iff hn.ordered).2 (Or.inl (by omega))
    have heach : ¬ AbsorbentEach c cs := fun heach =>
      hinside ⟨by rw [roomy, henough, Bool.true_or], Or.inr heach⟩
    refine Wasteful.words_of_once ?_ hn.ordered.valid hmax honce
    refine wasteful_occurrence hn hranked.ne_all (fun m hm => ?_) heach
    exact ih m hm (hn.of_mem hm) (hn.trimmed.never_eq_false hm) (hranked.of_mem hm) (hsteady.1 m hm)

end Node
end ContentModel
end SchemaAssist
