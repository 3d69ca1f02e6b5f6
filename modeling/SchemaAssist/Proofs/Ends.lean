/-
# Where the check looks at too little

The leaves that the check takes for the end of a particle read only letters that its words go on
with (`Node.mem_goesOn_words_of_readBy`).  They read all of them unless the particle is blunt
somewhere: where a group that occurs a fixed number of times is a choice that may be left without
elements by some of its particles only, or occurs more than once without being nullable
(`Node.Sharp`, `Node.readBy_of_mem_goesOn_words`).
-/

import SchemaAssist.Proofs.Symbols

namespace SchemaAssist

section Bounds

variable {α : Type*} {l m : Language α} {o : Occurs} {ls : List (Language α)}

/-- Bounds that are not exact allow one more word where the content might as well end. -/
theorem starts_subset_goesOn_words (ho : o.Valid) (hl : ∃ w, w ∈ l) (hrep : o.repeatable = true) :
    starts l ⊆ goesOn (o.words l) := by
  have hmore : o.Allows (o.min + 1) := by
    refine ⟨o.min.le_succ, fun max hmax => ?_⟩
    have hlt : o.min < max := by simpa [Occurs.repeatable, Option.mem_def.1 hmax] using hrep
    exact hlt
  obtain ⟨w, hw⟩ := exists_mem_pow hl o.min
  rintro a ⟨v, hv⟩
  refine ⟨w, ⟨o.min, ⟨le_rfl, ho⟩, hw⟩, v, o.min + 1, hmore, ?_⟩
  rw [pow_succ]
  exact Language.append_mem_mul hw hv

/-- Exact bounds allow one number of words. -/
theorem eq_min_of_allows {k : Nat} (hrep : o.repeatable = false) (hk : o.Allows k) : k = o.min := by
  cases hmax : o.max with
  | none => simp [Occurs.repeatable, hmax] at hrep
  | some max =>
    have hle : max ≤ o.min := by simpa [Occurs.repeatable, hmax] using hrep
    exact ((hk.2 max hmax).trans hle).antisymm hk.1

/-- A particle that occurs exactly once has the words of its term. -/
theorem words_le_of_once (ho : o.Valid) (hmax : o.never = false) (hrep : o.repeatable = false)
    (hmultiple : o.multiple = false) : o.words l ≤ l := by
  obtain ⟨j, hj⟩ := ho.exists_allows_succ hmax
  rintro w ⟨k, hk, hw⟩
  have hle := hk.le_one hmultiple
  have hone : k = 1 := by
    rw [eq_min_of_allows hrep hk, ← eq_min_of_allows hrep hj]
    have := hj.le_one hmultiple
    omega
  rwa [hone, pow_one] at hw

/-- What parts of a union without common letters go on with: what each goes on with and, where one
may be left out, what any begins with. -/
theorem goesOn_add_subset (hlm : Disjoint (letters l) (letters m)) :
    goesOn (l + m) ⊆ goesOn l ∪ goesOn m ∪ {a | [] ∈ l + m ∧ a ∈ starts (l + m)} := by
  rintro a ⟨u, hu, v, hv⟩
  cases u with
  | nil => exact Or.inr ⟨hu, v, hv⟩
  | cons c u =>
    left
    have hne : ∀ w w', c :: w ∈ l → c :: w' ∉ m := fun w w' hw hw' =>
      Set.disjoint_left.1 hlm ⟨_, hw, List.mem_cons_self⟩ ⟨_, hw', List.mem_cons_self⟩
    rcases hu with hu | hu <;> rcases hv with hv | hv
    · exact Or.inl ⟨_, hu, v, hv⟩
    · exact absurd hv (hne _ _ hu)
    · exact absurd hu (hne _ _ hv)
    · exact Or.inr ⟨_, hu, v, hv⟩

theorem goesOn_sum_subset (hdisjoint : ls.Pairwise fun l m => Disjoint (letters l) (letters m))
    {a : α} (ha : a ∈ goesOn ls.sum) :
    (∃ l ∈ ls, a ∈ goesOn l) ∨ ([] ∈ ls.sum ∧ a ∈ starts ls.sum) := by
  induction ls with
  | nil =>
    obtain ⟨u, hu, -⟩ := ha
    exact absurd hu (Language.notMem_zero u)
  | cons l ls ih =>
    rw [List.pairwise_cons] at hdisjoint
    rw [List.sum_cons] at ha ⊢
    have hlater : Disjoint (letters l) (letters ls.sum) :=
      disjoint_letters_of hdisjoint.1 fun a => letters_sum_subset
    rcases goesOn_add_subset hlater ha with (ha | ha) | ha
    · exact Or.inl ⟨l, List.mem_cons_self, ha⟩
    · rcases ih hdisjoint.2 ha with ⟨m, hm, ha⟩ | ⟨hnil, ha⟩
      · exact Or.inl ⟨m, List.mem_cons_of_mem l hm, ha⟩
      · exact Or.inr ⟨Or.inr hnil, starts_mono (fun _ hw => Or.inr hw) ha⟩
    · exact Or.inr ha

theorem goesOn_foldr_shuffle_subset
    (hdisjoint : ls.Pairwise fun l m => Disjoint (letters l) (letters m)) {a : α}
    (ha : a ∈ goesOn (ls.foldr shuffle 1)) : ∃ l ∈ ls, a ∈ goesOn l := by
  induction ls with
  | nil =>
    obtain ⟨u, -, v, hv⟩ := ha
    exact absurd hv (by simp [Language.mem_one])
  | cons l ls ih =>
    rw [List.pairwise_cons] at hdisjoint
    rw [List.foldr_cons] at ha
    have hlater : Disjoint (letters l) (letters (ls.foldr shuffle 1)) :=
      disjoint_letters_of hdisjoint.1 fun a => letters_foldr_shuffle_subset
    rcases goesOn_shuffle_subset hlater ha with ha | ha
    · exact ⟨l, List.mem_cons_self, ha⟩
    · obtain ⟨m, hm, ha⟩ := ih hdisjoint.2 ha
      exact ⟨m, List.mem_cons_of_mem l hm, ha⟩

theorem goesOn_subset_goesOn_foldr_shuffle (hls : ∀ l ∈ ls, ∃ w, w ∈ l) (hl : l ∈ ls) :
    goesOn l ⊆ goesOn (ls.foldr shuffle 1) := by
  induction ls with
  | nil => cases hl
  | cons m ls ih =>
    rw [List.forall_mem_cons] at hls
    rw [List.foldr_cons]
    rcases List.mem_cons.1 hl with rfl | hl
    · exact goesOn_subset_goesOn_shuffle (exists_mem_foldr_shuffle hls.2)
    · refine (ih hls.2 hl).trans ?_
      rw [shuffle_comm]
      exact goesOn_subset_goesOn_shuffle hls.1

end Bounds

namespace ContentModel
namespace Node

theorem eachEndSymbols_eq (cs : List Node) : eachEndSymbols cs = cs.flatMap endSymbols := by
  induction cs with
  | nil => rfl
  | cons c cs ih =>
    rw [eachEndSymbols, ih, List.flatMap_cons]
    rfl

theorem sequenceEndSymbols_cons (c : Node) (cs : List Node) :
    sequenceEndSymbols (c :: cs) = if cs.all nullable then
      c.endSymbols ++ (if c.nullable then c.firstSymbols else []) ++ sequenceEndSymbols cs
      else sequenceEndSymbols cs := rfl

theorem readBy_endSymbols_iff {n : Node} {a : Letter} :
    ReadBy n.endSymbols a ↔
      ReadBy n.termEndSymbols a ∨ (n.occurs.repeatable = true ∧ ReadBy n.firstSymbols a) := by
  rw [endSymbols, readBy_append]
  cases n.occurs.repeatable <;> simp

/-- The empty word is one of a sequence exactly if all its particles are nullable. -/
theorem nil_mem_prod_wordsOf_iff {cs : List Node} (hn : ∀ m ∈ cs, m.Ordered) :
    [] ∈ (wordsOf cs).prod ↔ cs.all nullable = true := by
  rw [nil_mem_prod, wordsOf_eq, List.forall_mem_map, List.all_eq_true]
  exact forall₂_congr fun m hm => nil_mem_words_iff (hn m hm)

/-! ### What the check takes for an end is one -/

/-- What the leaves taken for the end of a sequence read is what its words go on with. -/
theorem mem_goesOn_prod_of_readBy {cs : List Node} {a : Letter} (hn : ∀ m ∈ cs, m.Proper)
    (hmax : ∀ m ∈ cs, m.occurs.never = false)
    (hcs : ∀ m ∈ cs, ReadBy m.endSymbols a → a ∈ goesOn m.words)
    (h : ReadBy (sequenceEndSymbols cs) a) : a ∈ goesOn (wordsOf cs).prod := by
  induction cs with
  | nil => exact absurd h readBy_nil
  | cons c cs ih =>
    rw [List.forall_mem_cons] at hn hmax hcs
    have hprod : (wordsOf (c :: cs)).prod = c.words * (wordsOf cs).prod := List.prod_cons
    have hlater := fun h => goesOn_subset_goesOn_mul hn.1.exists_mem_words
      (ih hn.2 hmax.2 hcs.2 h)
    rw [hprod]
    rw [sequenceEndSymbols_cons] at h
    split at h
    next hnullable =>
      have hnil := (nil_mem_prod_wordsOf_iff fun m hm => (hn.2 m hm).ordered).2 hnullable
      have hfirst := goesOn_subset_goesOn_mul_of_nil_mem (l := c.words) hnil
      rw [readBy_append, readBy_append] at h
      rcases h with (h | h) | h
      · exact hfirst (hcs.1 h)
      · split at h
        next hc =>
          refine hfirst (starts_subset_goesOn ((nil_mem_words_iff hn.1.ordered).2 hc) ?_)
          exact (mem_starts_words_iff hn.1 hmax.1).2 h
        next => exact absurd h readBy_nil
      · exact hlater h
    next => exact hlater h

/-- **What the leaves taken for the end of a tree read is what its words go on with.** -/
theorem mem_goesOn_of_readBy {n : Node} (hn : n.Proper) {a : Letter}
    (h : ReadBy n.termEndSymbols a) : a ∈ goesOn n.occurrence := by
  induction n using Node.induct with
  | leaf n s hs => cases n <;> cases hs <;> exact absurd h readBy_nil
  | group o c cs ih =>
    have hcs : ∀ m ∈ cs, ReadBy m.endSymbols a → a ∈ goesOn m.words := fun m hm h => by
      have hm' := hn.of_mem hm
      rcases readBy_endSymbols_iff.1 h with h | ⟨hrep, h⟩
      · exact goesOn_subset_goesOn_words hm'.ordered.valid (hn.trimmed.never_eq_false hm)
          hm'.exists_mem_occurrence (ih m hm hm' h)
      · exact starts_subset_goesOn_words hm'.ordered.valid hm'.exists_mem_occurrence hrep
          ((mem_starts_iff hm').2 h)
    have heach : ReadBy (eachEndSymbols cs) a → ∃ l ∈ wordsOf cs, a ∈ goesOn l := by
      rw [eachEndSymbols_eq, readBy_flatMap, wordsOf_eq]
      exact fun ⟨m, hm, h⟩ => ⟨m.words, List.mem_map_of_mem hm, hcs m hm h⟩
    rw [occurrence]
    cases c with
    | sequence =>
      exact mem_goesOn_prod_of_readBy (fun m hm => hn.of_mem hm)
        (fun m hm => hn.trimmed.never_eq_false hm) hcs h
    | choice =>
      obtain ⟨l, hl, ha⟩ := heach h
      exact goesOn_mono (fun w hw => mem_combine_choice.2 (Or.inr ⟨l, hl, hw⟩)) ha
    | all =>
      obtain ⟨l, hl, ha⟩ := heach h
      exact goesOn_subset_goesOn_foldr_shuffle hn.exists_mem_of_mem_wordsOf hl ha

theorem mem_goesOn_words_of_readBy {n : Node} (hn : n.Proper) (hmax : n.occurs.never = false)
    {a : Letter} (h : ReadBy n.endSymbols a) : a ∈ goesOn n.words := by
  rcases readBy_endSymbols_iff.1 h with h | ⟨hrep, h⟩
  · exact goesOn_subset_goesOn_words hn.ordered.valid hmax hn.exists_mem_occurrence
      (mem_goesOn_of_readBy hn h)
  · exact starts_subset_goesOn_words hn.ordered.valid hn.exists_mem_occurrence hrep
      ((mem_starts_iff hn).2 h)

/-! ### What the check takes for an end is all of it, unless the tree is blunt -/

/-- A group that occurs a fixed number of times and whose end the check does not see whole: a choice
that only some of its particles may leave without elements, or a group that may not be without
elements and occurs more than once. -/
def blunt : Node → Bool
  | n@(group o c cs) =>
    !o.repeatable && ((o.multiple && !n.termNullable) ||
      (c == .choice && anyNullable cs && !allNullable cs))
  | _ => false

/-- Nothing in a tree is blunt. -/
def Sharp (n : Node) : Prop := ∀ m ∈ n.subtrees, m.blunt = false

instance (n : Node) : Decidable n.Sharp :=
  inferInstanceAs (Decidable (∀ m ∈ n.subtrees, m.blunt = false))

theorem Sharp.of_mem {o : Occurs} {c : Compositor} {cs : List Node} {m : Node}
    (h : (group o c cs).Sharp) (hm : m ∈ cs) : m.Sharp :=
  fun x hx => h x (mem_subtrees_group.2 (Or.inr ⟨m, hm, hx⟩))

/-- What a sequence goes on with is what one of its particles does after which all others may be
left out. -/
theorem readBy_of_mem_goesOn_prod {cs : List Node} {a : Letter} (hn : ∀ m ∈ cs, m.Proper)
    (hdisjoint : (wordsOf cs).Pairwise fun l m => Disjoint (letters l) (letters m))
    (hcs : ∀ m ∈ cs, a ∈ goesOn m.words → ReadBy m.endSymbols a)
    (h : a ∈ goesOn (wordsOf cs).prod) : ReadBy (sequenceEndSymbols cs) a := by
  induction cs with
  | nil =>
    obtain ⟨u, -, v, hv⟩ := h
    exact absurd hv (by simp [wordsOf, Language.mem_one])
  | cons c cs ih =>
    rw [List.forall_mem_cons] at hn hcs
    have hprod : (wordsOf (c :: cs)).prod = c.words * (wordsOf cs).prod := List.prod_cons
    have hlater : Disjoint (letters c.words) (letters (wordsOf cs).prod) :=
      disjoint_letters_of (List.pairwise_cons.1 hdisjoint).1 fun a => letters_prod_subset
    rw [hprod] at h
    rw [sequenceEndSymbols_cons]
    rcases goesOn_mul_subset hlater h with h | ⟨hnil, h⟩
    · have hrest := ih hn.2 (List.pairwise_cons.1 hdisjoint).2 hcs.2 h
      split
      · exact readBy_append.2 (Or.inr hrest)
      · exact hrest
    · rw [nil_mem_prod_wordsOf_iff fun m hm => (hn.2 m hm).ordered] at hnil
      rw [if_pos hnil, readBy_append, readBy_append]
      exact Or.inl (Or.inl (hcs.1 h))

/-- What a group goes on with is read by the leaves taken for its end, unless it is a choice that
only some of its particles may leave without elements. -/
theorem readBy_of_mem_goesOn {o : Occurs} {c : Compositor} {cs : List Node} {a : Letter}
    (hn : (group o c cs).Proper) (hcs : ∀ m ∈ cs, a ∈ goesOn m.words → ReadBy m.endSymbols a)
    (h : a ∈ goesOn (group o c cs).occurrence) :
    ReadBy (group o c cs).termEndSymbols a ∨
      ((c == .choice && anyNullable cs && !allNullable cs) = true ∧
        ReadBy (group o c cs).firstSymbols a) := by
  have heach : (∃ l ∈ wordsOf cs, a ∈ goesOn l) → ReadBy (eachEndSymbols cs) a := by
    rw [eachEndSymbols_eq, readBy_flatMap, wordsOf_eq]
    simp only [List.mem_map, exists_exists_and_eq_and]
    exact fun ⟨m, hm, ha⟩ => ⟨m, hm, hcs m hm ha⟩
  have hdisjoint := disjoint_letters hn.numbered
  have hfirst := mem_starts_iff hn (a := a)
  rw [occurrence] at h hfirst
  cases c with
  | sequence =>
    exact Or.inl (readBy_of_mem_goesOn_prod (fun m hm => hn.of_mem hm) hdisjoint hcs h)
  | all => exact Or.inl (heach (goesOn_foldr_shuffle_subset hdisjoint h))
  | choice =>
    cases cs with
    | nil =>
      obtain ⟨u, -, v, hv⟩ := h
      exact absurd hv (by simp [wordsOf, Compositor.combine, Language.mem_one])
    | cons d cs =>
      rcases goesOn_sum_subset hdisjoint h with h | ⟨hnil, hstart⟩
      · exact Or.inl (heach h)
      · have hany : anyNullable (d :: cs) = true := by
          rw [anyNullable_eq, List.any_eq_true]
          obtain ⟨l, hl, hnil⟩ := mem_sum.1 hnil
          rw [wordsOf_eq] at hl
          obtain ⟨m, hm, rfl⟩ := List.mem_map.1 hl
          exact ⟨m, hm, (nil_mem_words_iff (hn.of_mem hm).ordered).1 hnil⟩
        cases hall : allNullable (d :: cs) with
        | false => exact Or.inr ⟨by simp [hany], hfirst.1 hstart⟩
        | true =>
          -- whatever begins a particle that may be left out ends it too
          rw [allNullable_eq, List.all_eq_true] at hall
          obtain ⟨l, hl, ha⟩ := starts_sum_subset hstart
          refine Or.inl (heach ⟨l, hl, starts_subset_goesOn ?_ ha⟩)
          rw [wordsOf_eq] at hl
          obtain ⟨m, hm, rfl⟩ := List.mem_map.1 hl
          exact (nil_mem_words_iff (hn.of_mem hm).ordered).2 (hall m hm)

theorem length_of_mem_pow {s : Symbol} {k : Nat} {w : List Letter} (h : w ∈ s.words ^ k) :
    w.length = k := by
  induction k generalizing w with
  | zero =>
    obtain rfl : w = [] := h
    rfl
  | succ k ih =>
    rw [pow_succ'] at h
    obtain ⟨u, ⟨a, -, rfl⟩, v, hv, rfl⟩ := Language.mem_mul.1 h
    rw [List.length_append, ih hv, List.length_singleton, Nat.add_comm]

/-- **Unless it is blunt somewhere, what a tree goes on with is read by the leaves taken for its
end.** -/
theorem readBy_of_mem_goesOn_words {version : Version} {n : Node} (hn : n.Proper)
    (hmax : n.occurs.never = false) (hsep : n.Separated version) (hsharp : n.Sharp) {a : Letter}
    (h : a ∈ goesOn n.words) : ReadBy n.endSymbols a := by
  rw [readBy_endSymbols_iff]
  induction n using Node.induct with
  | leaf n s hs =>
    cases hrep : n.occurs.repeatable with
    | true =>
      have hsymbols : n.firstSymbols = n.symbols := by cases n <;> cases hs <;> rfl
      rw [hsymbols]
      exact Or.inr ⟨rfl, exists_reads_of_mem_letters (goesOn_subset_letters h)⟩
    | false =>
      obtain ⟨u, ⟨k, hk, hu⟩, v, j, hj, hv⟩ := h
      rw [occurrence_of_leaf hs] at hu hv
      have hlength := length_of_mem_pow hv
      rw [eq_min_of_allows hrep hj, ← eq_min_of_allows hrep hk, ← length_of_mem_pow hu] at hlength
      simp at hlength
  | group o c cs ih =>
    have hkstar : a ∈ goesOn (group o c cs).occurrence ∪ starts (group o c cs).occurrence :=
      (hsep.tame_occurrence hn).goesOn_kstar (goesOn_mono Occurs.words_le_kstar h)
    have hblunt := hsharp _ (self_mem_subtrees _)
    rw [blunt, Bool.and_eq_false_iff, Bool.not_eq_false', Bool.or_eq_false_iff] at hblunt
    rw [Separated, separatedEach_iff] at hsep
    have hterm := readBy_of_mem_goesOn hn fun m hm ha => readBy_endSymbols_iff.2 <|
      ih m hm (hn.of_mem hm) (hn.trimmed.never_eq_false hm) (hsep.1 m hm) (hsharp.of_mem hm) ha
    cases hrep : o.repeatable with
    | true =>
      rcases hkstar with ha | ha
      · exact (hterm ha).imp_right fun h => ⟨hrep, h.2⟩
      · exact Or.inr ⟨hrep, (mem_starts_iff hn).1 ha⟩
    | false =>
      obtain ⟨hmultiple, hchoice⟩ := hblunt.resolve_left (by simp [hrep])
      have hgoes : a ∈ goesOn (group o c cs).occurrence := by
        cases hm : o.multiple with
        | false => exact goesOn_mono (words_le_of_once hn.ordered.valid hmax hrep hm) h
        | true =>
          rw [hm, Bool.true_and, Bool.not_eq_false'] at hmultiple
          have hnil := (nil_mem_occurrence_iff hn.ordered).2 hmultiple
          exact hkstar.elim id fun ha => starts_subset_goesOn hnil ha
      exact (hterm hgoes).imp_right fun h => absurd h.1 (by simp [hchoice])

end Node
end ContentModel
end SchemaAssist
