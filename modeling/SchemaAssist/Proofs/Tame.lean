/-
# Tame languages

Whether repetitions of a language keep letters apart is in general not decided by the letters that
its words begin with and go on with: after several words in a row there may be more to go on with
than after one.  In a tame language it is (`Tame`).  The words of a single leaf are tame, and so are
unions, concatenations, interleavings and repetitions of tame languages without common letters, as
long as they keep letters apart.  These are all the constructions that content models are made by.
-/

import SchemaAssist.Proofs.Alternation

namespace SchemaAssist

open Computability

variable {α : Type*} {R : α → α → Prop} {l m : Language α} {o : Occurs} {s : Set α}

/-- A language that keeps letters apart, also when it is repeated, if what its words go on with does
not contest what they begin with. -/
structure Tame (R : α → α → Prop) (l : Language α) : Prop where
  exists_mem : ∃ w, w ∈ l
  separate : Separate R l
  separate_kstar : Apart R (goesOn l) (starts l) → Separate R l∗
  goesOn_kstar : goesOn l∗ ⊆ goesOn l ∪ starts l

/-- Where each of two letters goes on with a word or comes after it, they are kept apart if the
language keeps its letters apart from those that come after. -/
theorem not_contest_of_next (hR : ∀ a b, R a b → R b a) {y : List α} {a b : α}
    (hl : Separate R l) (hs : Apart R s s) (hnext : Apart R (goesOn l) s)
    (ha : (∃ v, y ++ a :: v ∈ l) ∨ (y ∈ l ∧ a ∈ s))
    (hb : (∃ v, y ++ b :: v ∈ l) ∨ (y ∈ l ∧ b ∈ s)) : ¬ R a b := by
  rcases ha with ⟨v, ha⟩ | ⟨hy, ha⟩ <;> rcases hb with ⟨v', hb⟩ | ⟨hy', hb⟩
  · exact hl y a b v v' ha hb
  · exact hnext a ⟨y, hy', v, ha⟩ b hb
  · exact hnext.symm hR a ha b ⟨y, hy, v', hb⟩
  · exact hs a ha b hb

/-- One of two words is both of them, one left out. -/
theorem add_le_one_add_mul (l m : Language α) : l + m ≤ (1 + l) * (1 + m) := by
  rintro w (hw | hw)
  · exact Language.mem_mul.2 ⟨w, Or.inr hw, [], Or.inl rfl, List.append_nil w⟩
  · exact Language.mem_mul.2 ⟨[], Or.inl rfl, w, Or.inr hw, rfl⟩

theorem starts_one_add_mul_subset : starts ((1 + l) * (1 + m)) ⊆ starts (l + m) := by
  refine starts_mul_subset.trans ?_
  rw [starts_one_add, starts_one_add, starts_add]
  exact Set.union_subset_union_right _ fun _ ha => ha.2

theorem goesOn_one_add_mul_subset (hlm : Disjoint (letters l) (letters m)) :
    goesOn ((1 + l) * (1 + m)) ⊆ goesOn l ∪ goesOn m ∪ starts (l + m) := by
  have hdisjoint : Disjoint (letters (1 + l)) (letters (1 + m)) := by
    rwa [letters_one_add, letters_one_add]
  intro a ha
  rw [starts_add]
  rcases goesOn_mul_subset hdisjoint ha with ha | ⟨-, ha⟩ <;> rw [goesOn_one_add] at ha
  · exact ha.imp Or.inr Or.inr
  · exact ha.imp Or.inl Or.inl

/-- Interleaved words, repeated, are interleavings of repeated words. -/
theorem shuffle_kstar_le : (shuffle l m)∗ ≤ shuffle l∗ m∗ := by
  intro w hw
  obtain ⟨ws, rfl, hws⟩ := Language.mem_kstar.1 hw
  clear hw
  induction ws with
  | nil => exact ⟨[], Language.nil_mem_kstar l, [], Language.nil_mem_kstar m, .nil⟩
  | cons w ws ih =>
    rw [List.forall_mem_cons] at hws
    obtain ⟨u, hu, v, hv, hw⟩ := hws.1
    obtain ⟨u', hu', v', hv', hws'⟩ := ih hws.2
    exact ⟨u ++ u', append_mem_kstar hu hu', v ++ v', append_mem_kstar hv hv', hw.append hws'⟩

namespace Tame

/-- A language whose letters never contest one another, and whose words are of one letter. -/
theorem of_single (hne : ∃ w, w ∈ l) (hl : ∀ w ∈ l, ∃ a, w = [a])
    (hR : Apart R (letters l) (letters l)) : Tame R l where
  exists_mem := hne
  separate u a b v v' ha hb := hR a ⟨_, ha, by simp⟩ b ⟨_, hb, by simp⟩
  separate_kstar _ u a b v v' ha hb := hR a (letters_kstar_subset ⟨_, ha, by simp⟩) b
    (letters_kstar_subset ⟨_, hb, by simp⟩)
  goesOn_kstar a ha := by
    obtain ⟨w, hw, ha⟩ := letters_kstar_subset (goesOn_subset_letters ha)
    obtain ⟨b, rfl⟩ := hl w hw
    obtain rfl := List.mem_singleton.1 ha
    exact Or.inr ⟨[], hw⟩

theorem one : Tame R (1 : Language α) where
  exists_mem := ⟨[], Language.nil_mem_one⟩
  separate u a b v v' ha := absurd ha (by simp [Language.mem_one])
  separate_kstar _ u a b v v' ha := absurd ha (by simp [Language.mem_one])
  goesOn_kstar := by
    rintro a ⟨u, -, v, hv⟩
    simp [Language.mem_one] at hv

/-- Words that may be left out are as tame as words that may not. -/
theorem one_add (h : Tame R l) : Tame R (1 + l) := by
  have hkstar : (1 + l)∗ ≤ l∗ := by
    rw [← kstar_idem l]
    exact kstar_mono (add_le one_le_kstar le_kstar)
  refine ⟨⟨[], Or.inl rfl⟩, separate_one_add_iff.2 h.separate, fun hnext => ?_, ?_⟩
  · exact (h.separate_kstar (hnext.mono goesOn_add_right starts_one_add.ge)).mono hkstar
  · rw [starts_one_add]
    refine ((goesOn_mono hkstar).trans h.goesOn_kstar).trans ?_
    exact Set.union_subset_union_left _ goesOn_add_right

/-- Bounds that allow a further word need what a word goes on with not to contest what the next one
begins with. -/
theorem words (h : Tame R l) (ho : o.Valid) (hmax : o.never = false)
    (hmultiple : o.multiple = true → Apart R (goesOn l) (starts l)) : Tame R (o.words l) := by
  have hkstar : (o.words l)∗ ≤ l∗ := by
    rw [← kstar_idem l]
    exact kstar_mono Occurs.words_le_kstar
  refine ⟨Occurs.nonempty_words ho h.exists_mem, ?_, fun hnext => ?_, ?_⟩
  · cases hm : o.multiple with
    | true => exact (h.separate_kstar (hmultiple hm)).mono Occurs.words_le_kstar
    | false => exact (separate_one_add_iff.2 h.separate).mono (Occurs.words_le_one_add hm)
  · refine (h.separate_kstar (hnext.mono ?_ ?_)).mono hkstar
    · exact goesOn_subset_goesOn_words ho hmax h.exists_mem
    · exact (starts_words ho hmax h.exists_mem).ge
  · rw [starts_words ho hmax h.exists_mem]
    refine ((goesOn_mono hkstar).trans h.goesOn_kstar).trans ?_
    exact Set.union_subset_union_left _ (goesOn_subset_goesOn_words ho hmax h.exists_mem)

/-- Words in a row are kept apart as far as they are needed. -/
theorem separate_runs (h : Tame R l) (hm : [] ∈ m → Apart R (goesOn l) (starts l)) :
    Separate R (runs l m) := by
  by_cases hnil : [] ∈ m
  · exact (h.separate_kstar (hm hnil)).mono runs_le_kstar
  · exact h.separate.mono (runs_le_of_nil_notMem hnil)

theorem goesOn_runs_subset (h : Tame R l) :
    goesOn (runs l m) ⊆ goesOn l ∪ {a | [] ∈ m ∧ a ∈ starts l} := by
  by_cases hnil : [] ∈ m
  · refine ((goesOn_mono runs_le_kstar).trans h.goesOn_kstar).trans ?_
    exact Set.union_subset_union_right _ fun a ha => ⟨hnil, ha⟩
  · exact (goesOn_mono (runs_le_of_nil_notMem hnil)).trans Set.subset_union_left

section Parts

variable (hR : ∀ a b, R a b → R b a) (hl : Tame R l) (hm : Tame R m)
  (hlm : Disjoint (letters l) (letters m))

include hl hm hlm

theorem goesOn_kstar_mul :
    goesOn (l * m)∗ ⊆ goesOn (l * m) ∪ starts (l * m) := by
  rintro a ⟨u, hu, v, hv⟩
  have hletters : ∀ c ∈ u, c ∈ letters l ∨ c ∈ letters m := fun c hc =>
    letters_mul_subset (letters_kstar_subset ⟨u, hu, hc⟩)
  rcases exists_trails hletters with rfl | ⟨y, hy | hy⟩
  · exact Or.inr (starts_kstar_subset ⟨v, hv⟩)
  · obtain ⟨hmem, hnil⟩ := (mem_runs_of_mem_kstar hlm hu).1 hy
    rcases (next_of_mem_kstar hlm hv).1 hy with ⟨v, hv⟩ | ⟨-, ha⟩
    · rcases hl.goesOn_runs_subset ⟨y, hmem, v, hv⟩ with ha | ⟨-, ha⟩
      · exact Or.inl (goesOn_subset_goesOn_mul_of_nil_mem hnil ha)
      · exact Or.inr (starts_subset_starts_mul hm.exists_mem ha)
    · exact Or.inl (starts_subset_goesOn_mul hl.exists_mem hnil ha)
  · have hmem := (mem_runs_of_mem_kstar hlm hu).2 hy
    rcases (next_of_mem_kstar hlm hv).2 hy with ⟨v, hv⟩ | ⟨-, ha⟩
    · rcases hm.goesOn_runs_subset ⟨y, hmem, v, hv⟩ with ha | ⟨hnil, ha⟩
      · exact Or.inl (goesOn_subset_goesOn_mul hl.exists_mem ha)
      · exact Or.inr (starts_subset_starts_mul_of_nil_mem hnil ha)
    · exact Or.inr (starts_subset_starts_mul hm.exists_mem ha)

include hR

theorem separate_kstar_mul (hnext : Apart R (goesOn l) (starts m))
    (h : Apart R (goesOn (l * m)) (starts (l * m))) : Separate R (l * m)∗ := by
  have hmul := (separate_mul_iff hR hlm hl.exists_mem hm.exists_mem).2
    ⟨hl.separate, hm.separate, hnext⟩
  have hstarts : starts l ⊆ starts (l * m) := starts_subset_starts_mul hm.exists_mem
  have hgoes : goesOn m ⊆ goesOn (l * m) := goesOn_subset_goesOn_mul hl.exists_mem
  -- after a last stretch of the first part
  have hruns : Separate R (runs l m) := hl.separate_runs fun hnil =>
    h.mono (goesOn_subset_goesOn_mul_of_nil_mem hnil) hstarts
  have hrunsNext : Apart R (goesOn (runs l m)) (starts m) := by
    refine Apart.mono (Apart.union_left hnext ?_) hl.goesOn_runs_subset le_rfl
    rintro a ⟨hnil, ha⟩ b hb
    exact h.symm hR a (hstarts ha) b (starts_subset_goesOn_mul hl.exists_mem hnil hb)
  -- after a last stretch of the second part
  have hruns' : Separate R (runs m l) := hm.separate_runs fun hnil =>
    h.mono hgoes (starts_subset_starts_mul_of_nil_mem hnil)
  have hrunsNext' : Apart R (goesOn (runs m l)) (starts l) := by
    refine Apart.mono (Apart.union_left (h.mono hgoes hstarts) ?_) hm.goesOn_runs_subset le_rfl
    rintro a ⟨hnil, ha⟩ b hb
    exact hnext.symm hR a ha b (starts_subset_goesOn hnil hb)
  intro u a b v v' ha hb
  have hletters : ∀ c ∈ u, c ∈ letters l ∨ c ∈ letters m := fun c hc =>
    letters_mul_subset (letters_kstar_subset ⟨_, ha, List.mem_append_left _ hc⟩)
  rcases exists_trails hletters with rfl | ⟨y, hy | hy⟩
  · exact hmul.starts a (starts_kstar_subset ⟨v, ha⟩) b (starts_kstar_subset ⟨v', hb⟩)
  · exact not_contest_of_next hR hruns hm.separate.starts hrunsNext
      ((next_of_mem_kstar hlm ha).1 hy) ((next_of_mem_kstar hlm hb).1 hy)
  · exact not_contest_of_next hR hruns' hl.separate.starts hrunsNext'
      ((next_of_mem_kstar hlm ha).2 hy) ((next_of_mem_kstar hlm hb).2 hy)

/-- **Concatenations of tame languages are tame.** -/
theorem mul (hnext : Apart R (goesOn l) (starts m)) : Tame R (l * m) where
  exists_mem := by
    obtain ⟨u, hu⟩ := hl.exists_mem
    obtain ⟨v, hv⟩ := hm.exists_mem
    exact ⟨u ++ v, Language.append_mem_mul hu hv⟩
  separate := (separate_mul_iff hR hlm hl.exists_mem hm.exists_mem).2
    ⟨hl.separate, hm.separate, hnext⟩
  separate_kstar := hl.separate_kstar_mul hR hm hlm hnext
  goesOn_kstar := hl.goesOn_kstar_mul hm hlm

omit hR in
/-- Repeated words of two tame languages go on with what they do or begin with. -/
theorem goesOn_kstar_add : goesOn (l + m)∗ ⊆ goesOn (l + m) ∪ starts (l + m) := by
  have hle : (l + m)∗ ≤ ((1 + l) * (1 + m))∗ := kstar_mono (add_le_one_add_mul l m)
  have hdisjoint : Disjoint (letters (1 + l)) (letters (1 + m)) := by
    rwa [letters_one_add, letters_one_add]
  refine (goesOn_mono hle).trans ((hl.one_add.goesOn_kstar_mul hm.one_add hdisjoint).trans ?_)
  refine Set.union_subset ((goesOn_one_add_mul_subset hlm).trans ?_) ?_
  · exact Set.union_subset_union_left _ (Set.union_subset goesOn_add_left goesOn_add_right)
  · exact (starts_one_add_mul_subset).trans Set.subset_union_right

/-- **Unions of tame languages are tame.** -/
theorem add (hstarts : Apart R (starts l) (starts m)) : Tame R (l + m) := by
  have hadd := (separate_add_iff hR hlm).2 ⟨hl.separate, hm.separate, hstarts⟩
  refine ⟨hl.exists_mem.imp fun _ hw => Or.inl hw, hadd, fun h => ?_,
    hl.goesOn_kstar_add hm hlm⟩
  have hle : (l + m)∗ ≤ ((1 + l) * (1 + m))∗ := kstar_mono (add_le_one_add_mul l m)
  have hdisjoint : Disjoint (letters (1 + l)) (letters (1 + m)) := by
    rwa [letters_one_add, letters_one_add]
  refine (hl.one_add.separate_kstar_mul hR hm.one_add hdisjoint ?_ ?_).mono hle
  · rw [goesOn_one_add, starts_one_add]
    refine Apart.union_left (h.mono goesOn_add_left ?_) hstarts
    exact starts_mono fun _ hw => Or.inr hw
  · refine Apart.mono (Apart.union_left h hadd.starts) ?_ starts_one_add_mul_subset
    refine (goesOn_one_add_mul_subset hlm).trans ?_
    exact Set.union_subset_union_left _ (Set.union_subset goesOn_add_left goesOn_add_right)

/-- **Interleavings of tame languages are tame.** -/
theorem shuffle (hletters : Apart R (letters l) (letters m)) :
    Tame R (SchemaAssist.shuffle l m) := by
  have hkstar : Disjoint (letters l∗) (letters m∗) :=
    hlm.mono letters_kstar_subset letters_kstar_subset
  have hle := shuffle_kstar_le (l := l) (m := m)
  have hstarts : starts l ⊆ starts (SchemaAssist.shuffle l m) :=
    starts_subset_starts_shuffle hm.exists_mem
  have hstarts' : starts m ⊆ starts (SchemaAssist.shuffle l m) :=
    shuffle_comm m l ▸ starts_subset_starts_shuffle hl.exists_mem
  have hgoes : goesOn l ⊆ goesOn (SchemaAssist.shuffle l m) :=
    goesOn_subset_goesOn_shuffle hm.exists_mem
  have hgoes' : goesOn m ⊆ goesOn (SchemaAssist.shuffle l m) :=
    shuffle_comm m l ▸ goesOn_subset_goesOn_shuffle hl.exists_mem
  refine ⟨?_, ?_, fun h => ?_, ?_⟩
  · exact exists_mem_shuffle hl.exists_mem hm.exists_mem
  · exact (separate_shuffle_iff hR hlm hl.exists_mem hm.exists_mem).2
      ⟨hl.separate, hm.separate, hletters⟩
  · refine ((separate_shuffle_iff hR hkstar ⟨[], Language.nil_mem_kstar l⟩
      ⟨[], Language.nil_mem_kstar m⟩).2 ⟨?_, ?_, ?_⟩).mono hle
    · exact hl.separate_kstar (h.mono hgoes hstarts)
    · exact hm.separate_kstar (h.mono hgoes' hstarts')
    · exact hletters.mono letters_kstar_subset letters_kstar_subset
  · refine (goesOn_mono hle).trans ((goesOn_shuffle_subset hkstar).trans ?_)
    refine Set.union_subset (hl.goesOn_kstar.trans ?_) (hm.goesOn_kstar.trans ?_)
    · exact Set.union_subset_union hgoes hstarts
    · exact Set.union_subset_union hgoes' hstarts'

end Parts

end Tame

end SchemaAssist
