/-
# Telling letters apart

A language keeps letters apart under a relation of contest (`Separate`) if no two letters that
contest can follow the same start of its words.  What the letters are that a word can begin with
(`starts`) and that a word can go on with where it might as well end (`goesOn`) decides whether
words can be put after one another, and this module says how both fare under union, concatenation,
interleaving and repetition.  The languages here need not come from a content model.
-/

import SchemaAssist.Proofs.Words

namespace SchemaAssist

open Computability

variable {α : Type*} {R : α → α → Prop} {l m : Language α} {s t : Set α}

/-- The letters that words begin with. -/
def starts (l : Language α) : Set α := {a | ∃ v, a :: v ∈ l}

/-- The letters that words go on with where they might as well end. -/
def goesOn (l : Language α) : Set α := {a | ∃ u ∈ l, ∃ v, u ++ a :: v ∈ l}

/-- The letters of all words. -/
def letters (l : Language α) : Set α := {a | ∃ w ∈ l, a ∈ w}

/-- No letter of one set contests one of the other. -/
def Apart (R : α → α → Prop) (s t : Set α) : Prop := ∀ a ∈ s, ∀ b ∈ t, ¬ R a b

/-- No two letters that contest follow the same start of a word. -/
def Separate (R : α → α → Prop) (l : Language α) : Prop :=
  ∀ u a b v v', u ++ a :: v ∈ l → u ++ b :: v' ∈ l → ¬ R a b

theorem Apart.mono {s' t' : Set α} (h : Apart R s t) (hs : s' ⊆ s) (ht : t' ⊆ t) :
    Apart R s' t' := fun a ha b hb => h a (hs ha) b (ht hb)

theorem Apart.symm (hR : ∀ a b, R a b → R b a) (h : Apart R s t) : Apart R t s :=
  fun a ha b hb hab => h b hb a ha (hR a b hab)

theorem Apart.union_left {s' : Set α} (h : Apart R s t) (h' : Apart R s' t) :
    Apart R (s ∪ s') t := fun a ha => ha.elim (h a) (h' a)

theorem Separate.mono (h : Separate R m) (hlm : l ≤ m) : Separate R l :=
  fun u a b v v' ha hb => h u a b v v' (hlm ha) (hlm hb)

theorem Separate.starts (h : Separate R l) : Apart R (starts l) (starts l) :=
  fun a ⟨_, ha⟩ b ⟨_, hb⟩ => h [] a b _ _ ha hb

theorem starts_mono (h : l ≤ m) : starts l ⊆ starts m := fun _ ⟨v, hv⟩ => ⟨v, h hv⟩

theorem goesOn_mono (h : l ≤ m) : goesOn l ⊆ goesOn m :=
  fun _ ⟨u, hu, v, hv⟩ => ⟨u, h hu, v, h hv⟩

theorem letters_mono (h : l ≤ m) : letters l ⊆ letters m := fun _ ⟨w, hw, ha⟩ => ⟨w, h hw, ha⟩

theorem starts_subset_letters : starts l ⊆ letters l :=
  fun _ ⟨_, hv⟩ => ⟨_, hv, List.mem_cons_self⟩

theorem goesOn_subset_letters : goesOn l ⊆ letters l :=
  fun _ ⟨u, _, _, hv⟩ => ⟨_, hv, List.mem_append_right u List.mem_cons_self⟩

/-- Where nothing might as well be there, all that can begin goes on. -/
theorem starts_subset_goesOn (h : [] ∈ l) : starts l ⊆ goesOn l := fun _ ⟨v, hv⟩ => ⟨[], h, v, hv⟩

/-! ### Union -/

theorem starts_add : starts (l + m) = starts l ∪ starts m := by
  ext a
  constructor
  · rintro ⟨v, hv | hv⟩
    · exact Or.inl ⟨v, hv⟩
    · exact Or.inr ⟨v, hv⟩
  · rintro (⟨v, hv⟩ | ⟨v, hv⟩)
    · exact ⟨v, Or.inl hv⟩
    · exact ⟨v, Or.inr hv⟩

theorem letters_add : letters (l + m) = letters l ∪ letters m := by
  ext a
  constructor
  · rintro ⟨w, hw | hw, ha⟩
    · exact Or.inl ⟨w, hw, ha⟩
    · exact Or.inr ⟨w, hw, ha⟩
  · rintro (⟨w, hw, ha⟩ | ⟨w, hw, ha⟩)
    · exact ⟨w, Or.inl hw, ha⟩
    · exact ⟨w, Or.inr hw, ha⟩

theorem goesOn_add_left : goesOn l ⊆ goesOn (l + m) := goesOn_mono fun _ hw => Or.inl hw

theorem goesOn_add_right : goesOn m ⊆ goesOn (l + m) := goesOn_mono fun _ hw => Or.inr hw

theorem starts_one_add : starts (1 + l) = starts l := by
  rw [starts_add, Set.union_eq_right]
  rintro a ⟨v, hv⟩
  cases hv

theorem letters_one_add : letters (1 + l) = letters l := by
  rw [letters_add, Set.union_eq_right]
  rintro a ⟨w, rfl, ha⟩
  cases ha

theorem goesOn_one_add : goesOn (1 + l) = goesOn l ∪ starts l := by
  ext a
  have hne : ∀ u v, u ++ a :: v ∈ 1 + l → u ++ a :: v ∈ l := fun u v hw =>
    hw.resolve_left fun h => List.append_ne_nil_of_right_ne_nil u (List.cons_ne_nil a v) h
  constructor
  · rintro ⟨u, rfl | hu, v, hv⟩
    · exact Or.inr ⟨v, hne [] v hv⟩
    · exact Or.inl ⟨u, hu, v, hne u v hv⟩
  · rintro (ha | ⟨v, hv⟩)
    · exact goesOn_add_right ha
    · exact ⟨[], Or.inl rfl, v, Or.inr hv⟩

/-- The empty word changes nothing for what follows a start of a word. -/
theorem separate_one_add_iff : Separate R (1 + l) ↔ Separate R l := by
  refine ⟨fun h => h.mono fun _ hw => Or.inr hw, fun h u a b v v' ha hb => ?_⟩
  have hne : ∀ a v, u ++ a :: v ∈ 1 + l → u ++ a :: v ∈ l := fun a v hw =>
    hw.resolve_left fun h => List.append_ne_nil_of_right_ne_nil u (List.cons_ne_nil a v) h
  exact h u a b v v' (hne a v ha) (hne b v' hb)

/-- Parts of a union without common letters are kept apart as soon as their beginnings are. -/
theorem separate_add_iff (hR : ∀ a b, R a b → R b a) (hlm : Disjoint (letters l) (letters m)) :
    Separate R (l + m) ↔ Separate R l ∧ Separate R m ∧ Apart R (starts l) (starts m) := by
  constructor
  · intro h
    refine ⟨h.mono fun _ hw => Or.inl hw, h.mono fun _ hw => Or.inr hw, h.starts.mono ?_ ?_⟩
    · exact starts_mono fun _ hw => Or.inl hw
    · exact starts_mono fun _ hw => Or.inr hw
  · rintro ⟨hl, hm, hstarts⟩ u a b v v' ha hb
    -- a start of a word that is not empty belongs to one of the two
    have hnil : ∀ a b v v', u ++ a :: v ∈ l → u ++ b :: v' ∈ m → u = [] := by
      intro a b v v' ha hb
      refine List.eq_nil_iff_forall_not_mem.2 fun c hc => ?_
      exact Set.disjoint_left.1 hlm ⟨_, ha, List.mem_append_left _ hc⟩
        ⟨_, hb, List.mem_append_left _ hc⟩
    rcases ha with ha | ha <;> rcases hb with hb | hb
    · exact hl u a b v v' ha hb
    · obtain rfl := hnil a b v v' ha hb
      exact hstarts a ⟨v, ha⟩ b ⟨v', hb⟩
    · obtain rfl := hnil b a v' v hb ha
      exact hstarts.symm hR a ⟨v, ha⟩ b ⟨v', hb⟩
    · exact hm u a b v v' ha hb

/-! ### Concatenation -/

theorem letters_mul_subset : letters (l * m) ⊆ letters l ∪ letters m := by
  rintro a ⟨w, hw, ha⟩
  obtain ⟨u, hu, v, hv, rfl⟩ := Language.mem_mul.1 hw
  exact (List.mem_append.1 ha).imp (fun h => ⟨u, hu, h⟩) fun h => ⟨v, hv, h⟩

theorem starts_mul_subset : starts (l * m) ⊆ starts l ∪ {a | [] ∈ l ∧ a ∈ starts m} := by
  rintro a ⟨w, hw⟩
  rcases cons_mem_mul.1 hw with ⟨u, v, rfl, hu, -⟩ | ⟨hl, hm⟩
  · exact Or.inl ⟨u, hu⟩
  · exact Or.inr ⟨hl, w, hm⟩

theorem starts_mul (hm : ∃ w, w ∈ m) : starts (l * m) = starts l ∪ {a | [] ∈ l ∧ a ∈ starts m} := by
  refine starts_mul_subset.antisymm ?_
  rintro a (⟨v, hv⟩ | ⟨hl, v, hv⟩)
  · obtain ⟨w, hw⟩ := hm
    exact ⟨v ++ w, Language.append_mem_mul hv hw⟩
  · exact ⟨v, Language.append_mem_mul hl hv⟩

theorem starts_subset_starts_mul (hm : ∃ w, w ∈ m) : starts l ⊆ starts (l * m) := by
  rw [starts_mul hm]
  exact Set.subset_union_left

theorem starts_subset_starts_mul_of_nil_mem (hl : [] ∈ l) : starts m ⊆ starts (l * m) :=
  fun _ ⟨v, hv⟩ => ⟨v, Language.append_mem_mul hl hv⟩

theorem goesOn_subset_goesOn_mul (hl : ∃ w, w ∈ l) : goesOn m ⊆ goesOn (l * m) := by
  rintro a ⟨u, hu, v, hv⟩
  obtain ⟨w, hw⟩ := hl
  refine ⟨w ++ u, Language.append_mem_mul hw hu, v, ?_⟩
  rw [List.append_assoc]
  exact Language.append_mem_mul hw hv

theorem goesOn_subset_goesOn_mul_of_nil_mem (hm : [] ∈ m) : goesOn l ⊆ goesOn (l * m) := by
  rintro a ⟨u, hu, v, hv⟩
  exact ⟨u, List.append_nil u ▸ Language.append_mem_mul hu hm, v,
    List.append_nil (u ++ a :: v) ▸ Language.append_mem_mul hv hm⟩

theorem starts_subset_goesOn_mul (hl : ∃ w, w ∈ l) (hm : [] ∈ m) : starts m ⊆ goesOn (l * m) :=
  (starts_subset_goesOn hm).trans (goesOn_subset_goesOn_mul hl)

theorem Separate.of_mul_left (h : Separate R (l * m)) (hm : ∃ w, w ∈ m) : Separate R l := by
  intro u a b v v' ha hb
  obtain ⟨w, hw⟩ := hm
  refine h u a b (v ++ w) (v' ++ w) ?_ ?_
  · exact List.append_assoc u (a :: v) w ▸ Language.append_mem_mul ha hw
  · exact List.append_assoc u (b :: v') w ▸ Language.append_mem_mul hb hw

theorem Separate.of_mul_right (h : Separate R (l * m)) (hl : ∃ w, w ∈ l) : Separate R m := by
  intro u a b v v' ha hb
  obtain ⟨w, hw⟩ := hl
  refine h (w ++ u) a b v v' ?_ ?_
  · exact List.append_assoc w u _ ▸ Language.append_mem_mul hw ha
  · exact List.append_assoc w u _ ▸ Language.append_mem_mul hw hb

theorem Separate.apart_of_mul (h : Separate R (l * m)) (hm : ∃ w, w ∈ m) :
    Apart R (goesOn l) (SchemaAssist.starts m) := by
  rintro a ⟨u, hu, v, hv⟩ b ⟨v', hv'⟩
  obtain ⟨w, hw⟩ := hm
  refine h u a b (v ++ w) v' ?_ (Language.append_mem_mul hu hv')
  exact List.append_assoc u (a :: v) w ▸ Language.append_mem_mul hv hw

/-- Words without common letters can be put after one another in one way only. -/
theorem append_inj_of_disjoint (hst : Disjoint s t) {x y x' y' : List α}
    (hx : ∀ a ∈ x, a ∈ s) (hx' : ∀ a ∈ x', a ∈ s) (hy : ∀ a ∈ y, a ∈ t) (hy' : ∀ a ∈ y', a ∈ t)
    (h : x ++ y = x' ++ y') : x = x' ∧ y = y' := by
  have hnil : ∀ z : List α, (∀ a ∈ z, a ∈ s) → (∀ a ∈ z, a ∈ t) → z = [] := fun z hs ht =>
    List.eq_nil_iff_forall_not_mem.2 fun a ha => Set.disjoint_left.1 hst (hs a ha) (ht a ha)
  rcases List.append_eq_append_iff.1 h with ⟨z, rfl, rfl⟩ | ⟨z, rfl, rfl⟩
  · obtain rfl := hnil z (fun a ha => hx' a (List.mem_append_right x ha))
      fun a ha => hy a (List.mem_append_left y' ha)
    simp
  · obtain rfl := hnil z (fun a ha => hx a (List.mem_append_right x' ha))
      fun a ha => hy' a (List.mem_append_left y ha)
    simp

/-- A letter of a concatenation stands in the first part or in the second one. -/
theorem append_cons_mem_mul {u v : List α} {a : α} (h : u ++ a :: v ∈ l * m) :
    (∃ v₁, u ++ a :: v₁ ∈ l) ∨ ∃ x y, u = x ++ y ∧ x ∈ l ∧ y ++ a :: v ∈ m := by
  obtain ⟨x, hx, y, hy, hxy⟩ := Language.mem_mul.1 h
  rcases List.append_eq_append_iff.1 hxy with ⟨z, rfl, rfl⟩ | ⟨z, rfl, hz⟩
  · exact Or.inr ⟨x, z, rfl, hx, hy⟩
  · cases z with
    | nil => exact Or.inr ⟨u, [], by simp, by simpa using hx, by simpa [hz] using hy⟩
    | cons c z =>
      obtain ⟨rfl, -⟩ := List.cons.inj hz
      exact Or.inl ⟨z, hx⟩

/-- A concatenation goes on where its second part does or, if that may be left out, its first. -/
theorem goesOn_mul_subset (hlm : Disjoint (letters l) (letters m)) :
    goesOn (l * m) ⊆ goesOn m ∪ {a | [] ∈ m ∧ a ∈ goesOn l} := by
  rintro a ⟨u, hu, v, hv⟩
  obtain ⟨x, hx, y, hy, rfl⟩ := Language.mem_mul.1 hu
  rcases append_cons_mem_mul hv with ⟨v, hv⟩ | ⟨x', y', hxy, hx', hv⟩
  · cases y with
    | nil =>
      rw [List.append_nil] at hv
      exact Or.inr ⟨hy, x, hx, v, hv⟩
    | cons c y =>
      exact absurd ⟨_, hy, List.mem_cons_self⟩ (Set.disjoint_left.1 hlm ⟨_, hv, by simp⟩)
  · obtain ⟨rfl, rfl⟩ := append_inj_of_disjoint hlm (fun c hc => ⟨x, hx, hc⟩)
      (fun c hc => ⟨x', hx', hc⟩) (fun c hc => ⟨y, hy, hc⟩)
      (fun c hc => ⟨_, hv, List.mem_append_left _ hc⟩) hxy
    exact Or.inl ⟨y, hy, v, hv⟩

/-- Parts of a concatenation without common letters are kept apart as soon as nothing that the
first one goes on with contests what the second one begins with. -/
theorem separate_mul_iff (hR : ∀ a b, R a b → R b a) (hlm : Disjoint (letters l) (letters m))
    (hl : ∃ w, w ∈ l) (hm : ∃ w, w ∈ m) :
    Separate R (l * m) ↔ Separate R l ∧ Separate R m ∧ Apart R (goesOn l) (starts m) := by
  refine ⟨fun h => ⟨h.of_mul_left hm, h.of_mul_right hl, h.apart_of_mul hm⟩, ?_⟩
  rintro ⟨hl, hm, hnext⟩
  -- a start that a word of the first part goes on from has not come to the second one yet
  have hend : ∀ u a v x y b v', u ++ a :: v ∈ l → u = x ++ y → x ∈ l → y ++ b :: v' ∈ m →
      a ∈ goesOn l ∧ b ∈ starts m := by
    rintro u a v x y b v' ha rfl hx hy
    cases y with
    | nil => exact ⟨⟨x, hx, v, by simpa using ha⟩, v', hy⟩
    | cons c y =>
      exact absurd ⟨_, hy, List.mem_cons_self⟩
        (Set.disjoint_left.1 hlm ⟨_, ha, by simp⟩)
  intro u a b v v' ha hb
  rcases append_cons_mem_mul ha with ⟨v₁, ha⟩ | ⟨x, y, hu, hx, ha⟩ <;>
    rcases append_cons_mem_mul hb with ⟨v₂, hb⟩ | ⟨x', y', hu', hx', hb⟩
  · exact hl u a b v₁ v₂ ha hb
  · obtain ⟨ha, hb⟩ := hend u a v₁ x' y' b v' ha hu' hx' hb
    exact hnext a ha b hb
  · obtain ⟨hb, ha⟩ := hend u b v₂ x y a v hb hu hx ha
    exact hnext.symm hR a ha b hb
  · obtain ⟨rfl, rfl⟩ := append_inj_of_disjoint hlm (fun c hc => ⟨x, hx, hc⟩)
      (fun c hc => ⟨x', hx', hc⟩) (fun c hc => ⟨_, ha, List.mem_append_left _ hc⟩)
      (fun c hc => ⟨_, hb, List.mem_append_left _ hc⟩) (hu.symm.trans hu')
    exact hm y a b v v' ha hb

/-! ### Interleaving -/

theorem letters_shuffle_subset : letters (shuffle l m) ⊆ letters l ∪ letters m := by
  rintro a ⟨w, ⟨u, hu, v, hv, h⟩, ha⟩
  exact (h.mem_iff.1 ha).imp (fun ha => ⟨u, hu, ha⟩) fun ha => ⟨v, hv, ha⟩

theorem starts_subset_starts_shuffle (hm : ∃ w, w ∈ m) : starts l ⊆ starts (shuffle l m) := by
  rintro a ⟨v, hv⟩
  obtain ⟨w, hw⟩ := hm
  exact ⟨v ++ w, append_mem_shuffle hv hw⟩

theorem goesOn_subset_goesOn_shuffle (hm : ∃ w, w ∈ m) : goesOn l ⊆ goesOn (shuffle l m) := by
  rintro a ⟨u, hu, v, hv⟩
  obtain ⟨w, hw⟩ := hm
  refine ⟨w ++ u, append_mem_shuffle' hu hw, v, ?_⟩
  rw [List.append_assoc]
  exact append_mem_shuffle' hv hw

theorem Separate.of_shuffle (h : Separate R (shuffle l m)) (hm : ∃ w, w ∈ m) : Separate R l := by
  intro u a b v v' ha hb
  obtain ⟨w, hw⟩ := hm
  refine h (w ++ u) a b v v' ?_ ?_
  · exact List.append_assoc w u _ ▸ append_mem_shuffle' ha hw
  · exact List.append_assoc w u _ ▸ append_mem_shuffle' hb hw

/-- Interleaved words can always go on with any letter of either. -/
theorem Separate.apart_of_shuffle (h : Separate R (shuffle l m)) :
    Apart R (letters l) (letters m) := by
  rintro a ⟨x, hx, ha⟩ b ⟨y, hy, hb⟩
  obtain ⟨u, v, rfl⟩ := List.append_of_mem ha
  obtain ⟨u', v', rfl⟩ := List.append_of_mem hb
  refine h (u ++ u') a b (v ++ b :: v') (a :: v ++ v') ?_ ?_
  · refine ⟨_, hx, _, hy, ?_⟩
    rw [List.append_assoc]
    refine .append_left u (.append_right u' (.left a ?_))
    simpa using (Merge.nil_self (b :: v')).append_left v
  · refine ⟨_, hx, _, hy, ?_⟩
    rw [List.append_assoc]
    refine .append_left u (.append_right u' (.right b ?_))
    simpa using (Merge.nil_self v').append_left (a :: v)

/-- Interleaved words begin with what either begins with. -/
theorem starts_shuffle (hl : ∃ w, w ∈ l) (hm : ∃ w, w ∈ m) :
    starts (shuffle l m) = starts l ∪ starts m := by
  refine Set.Subset.antisymm ?_ (Set.union_subset (starts_subset_starts_shuffle hm) ?_)
  · rintro a ⟨w, u, hu, v, hv, h⟩
    cases h with
    | left _ h => exact Or.inl ⟨_, hu⟩
    | right _ h => exact Or.inr ⟨_, hv⟩
  · exact shuffle_comm m l ▸ starts_subset_starts_shuffle hl

/-- Words without common letters are merged into a word in one way only. -/
theorem Merge.unique {u v u' v' w : List α} (hst : Disjoint s t) (h : Merge u v w)
    (h' : Merge u' v' w) (hu : ∀ a ∈ u, a ∈ s) (hu' : ∀ a ∈ u', a ∈ s) (hv : ∀ a ∈ v, a ∈ t)
    (hv' : ∀ a ∈ v', a ∈ t) : u = u' ∧ v = v' := by
  induction h generalizing u' v' with
  | nil =>
    obtain ⟨rfl, rfl⟩ := h'.eq_nil
    exact ⟨rfl, rfl⟩
  | left a _ ih =>
    rw [List.forall_mem_cons] at hu
    cases h' with
    | left _ h' =>
      obtain ⟨rfl, rfl⟩ := ih h' hu.2 (fun a ha => hu' a (.tail _ ha)) hv hv'
      exact ⟨rfl, rfl⟩
    | right _ h' => exact absurd (hv' a List.mem_cons_self) (Set.disjoint_left.1 hst hu.1)
  | right a _ ih =>
    rw [List.forall_mem_cons] at hv
    cases h' with
    | left _ h' => exact absurd hv.1 (Set.disjoint_left.1 hst (hu' a List.mem_cons_self))
    | right _ h' =>
      obtain ⟨rfl, rfl⟩ := ih h' hu hu' hv.2 fun a ha => hv' a (.tail _ ha)
      exact ⟨rfl, rfl⟩

/-- A letter of an interleaving stands in one of the two words. -/
theorem append_cons_mem_shuffle {u v : List α} {a : α} (h : u ++ a :: v ∈ shuffle l m) :
    ∃ x y x' y', Merge x y u ∧ x ++ x' ∈ l ∧ y ++ y' ∈ m ∧
      ((∃ z, x' = a :: z) ∨ ∃ z, y' = a :: z) := by
  obtain ⟨p, hp, q, hq, h⟩ := h
  obtain ⟨x, x', y, y', rfl, rfl, hu, h⟩ := h.exists_of_append
  refine ⟨x, y, x', y', hu, hp, hq, ?_⟩
  cases h with
  | left _ h => exact Or.inl ⟨_, rfl⟩
  | right _ h => exact Or.inr ⟨_, rfl⟩

/-- Interleaved words without common letters are kept apart as soon as no letters of the two
contest. -/
theorem separate_shuffle_iff (hR : ∀ a b, R a b → R b a) (hlm : Disjoint (letters l) (letters m))
    (hl : ∃ w, w ∈ l) (hm : ∃ w, w ∈ m) :
    Separate R (shuffle l m) ↔ Separate R l ∧ Separate R m ∧ Apart R (letters l) (letters m) := by
  refine ⟨fun h => ⟨h.of_shuffle hm, (shuffle_comm l m ▸ h).of_shuffle hl, h.apart_of_shuffle⟩, ?_⟩
  rintro ⟨hl, hm, hletters⟩ u a b v v' ha hb
  obtain ⟨x, y, p, q, hu, hp, hq, ha⟩ := append_cons_mem_shuffle ha
  obtain ⟨x', y', p', q', hu', hp', hq', hb⟩ := append_cons_mem_shuffle hb
  obtain ⟨rfl, rfl⟩ := hu.unique hlm hu' (fun c hc => ⟨_, hp, List.mem_append_left _ hc⟩)
    (fun c hc => ⟨_, hp', List.mem_append_left _ hc⟩)
    (fun c hc => ⟨_, hq, List.mem_append_left _ hc⟩)
    (fun c hc => ⟨_, hq', List.mem_append_left _ hc⟩)
  have hmem : ∀ (x : List α) (c : α) (z : List α), c ∈ x ++ c :: z := fun x c z => by simp
  rcases ha with ⟨z, rfl⟩ | ⟨z, rfl⟩ <;> rcases hb with ⟨z', rfl⟩ | ⟨z', rfl⟩
  · exact hl x a b z z' hp hp'
  · exact hletters a ⟨_, hp, hmem x a z⟩ b ⟨_, hq', hmem y b z'⟩
  · exact hletters.symm hR a ⟨_, hq, hmem y a z⟩ b ⟨_, hp', hmem x b z'⟩
  · exact hm y a b z z' hq hq'

/-- Where an interleaving might as well end, both words might. -/
theorem goesOn_shuffle_subset (hlm : Disjoint (letters l) (letters m)) :
    goesOn (shuffle l m) ⊆ goesOn l ∪ goesOn m := by
  rintro a ⟨u, ⟨p, hp, q, hq, hu⟩, v, hv⟩
  obtain ⟨x, y, x', y', hu', hx, hy, ha⟩ := append_cons_mem_shuffle hv
  obtain ⟨rfl, rfl⟩ := hu.unique hlm hu' (fun c hc => ⟨p, hp, hc⟩)
    (fun c hc => ⟨_, hx, List.mem_append_left _ hc⟩) (fun c hc => ⟨q, hq, hc⟩)
    (fun c hc => ⟨_, hy, List.mem_append_left _ hc⟩)
  rcases ha with ⟨z, rfl⟩ | ⟨z, rfl⟩
  · exact Or.inl ⟨p, hp, z, hx⟩
  · exact Or.inr ⟨q, hq, z, hy⟩

end SchemaAssist
