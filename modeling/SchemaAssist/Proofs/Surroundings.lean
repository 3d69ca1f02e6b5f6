/-
# Particles inside a content model

A run through a particle is part of a run through the content model around it, up to what has to
come before the particle, and what may be left after it is what is left of the particle and what
follows (`Node.Surrounds`).  To come to a particle of a sequence the earlier ones have to be passed;
steady ones can be.
-/

import SchemaAssist.Proofs.Around
import SchemaAssist.Proofs.Steadiness

namespace SchemaAssist
namespace ContentModel

section Along

variable {σ τ : Type} {f : Name → σ → Option (σ × Term)} {g : Name → τ → Option (τ × Term)}

/-- The state after a word, element by element. -/
def along (f : Name → σ → Option (σ × Term)) : σ → List Letter → Option σ
  | st, [] => some st
  | st, a :: u => (f a.1 st).bind fun found => along f found.1 u

theorem along_cons {st st₁ : σ} {a : Letter} {t : Term} (h : f a.1 st = some (st₁, t))
    (u : List Letter) : along f st (a :: u) = along f st₁ u := by
  rw [along, h, Option.bind_some]

theorem along_append (st : σ) (u v : List Letter) :
    along f st (u ++ v) = (along f st u).bind fun st' => along f st' v := by
  induction u generalizing st with
  | nil => rfl
  | cons a u ih =>
    rw [List.cons_append, along, along]
    cases f a.1 st with
    | none => rfl
    | some found => exact ih found.1

/-- Runs that take the same steps take the same course. -/
theorem along_map (wrap : σ → τ)
    (h : ∀ name st st' t, f name st = some (st', t) → g name (wrap st) = some (wrap st', t))
    {st st' : σ} {u : List Letter} (hrun : along f st u = some st') :
    along g (wrap st) u = some (wrap st') := by
  induction u generalizing st with
  | nil =>
    cases hrun
    rfl
  | cons a u ih =>
    rw [along] at hrun
    obtain ⟨⟨st₁, t⟩, hstep, hrun⟩ := Option.bind_eq_some_iff.1 hrun
    rw [along_cons (h _ _ _ _ hstep)]
    exact ih hrun

/-- Where each step takes what is left and keeps an invariant, so does a run. -/
theorem exists_along {P : List Letter → σ → Prop} {left : σ → Language Letter}
    (h : ∀ x st a v, P x st → a :: v ∈ left st →
      ∃ st' t, f a.1 st = some (st', t) ∧ P (x ++ [a]) st' ∧ v ∈ left st')
    {x : List Letter} {st : σ} (hst : P x st) {u v : List Letter} (huv : u ++ v ∈ left st) :
    ∃ st', along f st u = some st' ∧ P (x ++ u) st' ∧ v ∈ left st' := by
  induction u generalizing x st with
  | nil => exact ⟨st, rfl, by rwa [List.append_nil], huv⟩
  | cons a u ih =>
    obtain ⟨st₁, t, hstep, hst₁, hleft⟩ := h x st a (u ++ v) hst huv
    obtain ⟨st', hrun, hst', hv⟩ := ih hst₁ hleft
    exact ⟨st', by rw [along_cons hstep, hrun], by simpa using hst', hv⟩

end Along

section Unambiguous

variable {l k k' : Language Letter} {x v : List Letter} {a : Letter}

/-- After a start of an unambiguous word a name can be attributed to one leaf only. -/
theorem only_of_separate (h : Separate (Letter.Contests .v10) l) (hk : ∀ w ∈ k, x ++ w ∈ l)
    (ha : x ++ a :: v ∈ l) : Only a.1 a.2 k := by
  intro q v' hv'
  by_contra hne
  exact h x _ _ v' v (hk _ hv') ha ⟨rfl, hne, Or.inl rfl⟩

/-- So a text can be attributed in one way only. -/
theorem eq_of_separate (h : Separate (Letter.Contests .v10) l) {v v' : List Letter}
    (hv : x ++ v ∈ l) (hv' : x ++ v' ∈ l) (heq : v.map Prod.fst = v'.map Prod.fst) : v = v' := by
  induction v generalizing x v' with
  | nil => exact (List.map_eq_nil_iff.1 heq.symm).symm
  | cons a v ih =>
    obtain ⟨b, w, rfl, hname, hrest⟩ := List.map_eq_cons_iff.1 heq.symm
    obtain rfl : a = b := by
      by_contra hne
      have hleaf : a.2 ≠ b.2 := fun hleaf => hne (Prod.ext hname.symm hleaf)
      exact h x a b v w hv hv' ⟨hname.symm, hleaf, Or.inl rfl⟩
    refine congrArg (a :: ·) (ih (x := x ++ [a]) ?_ ?_ hrest.symm)
    · simpa using hv
    · simpa using hv'

/-- So what a step leads to stands after the letter that comes next. -/
theorem append_mem_of_leads (hk : ∀ w ∈ k, x ++ w ∈ l) (honly : Only a.1 a.2 k)
    (hleads : Leads a.1 k k') : ∀ w ∈ k', x ++ [a] ++ w ∈ l := by
  obtain ⟨leaf, hleads⟩ := hleads
  intro w hw
  obtain rfl := honly leaf w (hleads w hw)
  rw [List.append_assoc]
  exact hk _ (hleads w hw)

end Unambiguous

namespace Node

variable {n m : Node} {o : Occurs} {c : Compositor} {cs : List Node}

/-! ### Runs through steady trees -/

/-- A progress fits a tree, and whatever may follow it ends a word that begins with `u`. -/
def StandsAfter (n : Node) (u : List Letter) (st : Progress) : Prop :=
  n.Fits st ∧ ∀ v ∈ n.rest st, u ++ v ∈ n.words

theorem standsAfter_fresh (n : Node) : n.StandsAfter [] .fresh :=
  ⟨fits_fresh n, fun v hv => by rwa [rest_fresh] at hv⟩

/-- A run through a steady tree takes every start of a word and keeps what may follow. -/
theorem exists_along_of_steady (hn : n.Proper) (h : Separate (Letter.Contests .v10) n.words)
    (hsteady : n.Steady) {u v : List Letter} (huv : u ++ v ∈ n.words) :
    ∃ st, along n.step .fresh u = some st ∧ n.StandsAfter u st ∧ v ∈ n.rest st := by
  rw [← rest_fresh] at huv
  refine exists_along (fun x st a v hst hv => ?_) (standsAfter_fresh n) huv
  have hfollows : Follows a.1 a.2 n := hsteady.follows hn
  have honly := only_of_separate h hst.2 (hst.2 _ hv)
  obtain ⟨st', t, hstep, hrest⟩ := hfollows st hst.1 honly v hv
  obtain ⟨hfits, hleads⟩ := step_spec hn.ordered st st' t hst.1 hstep
  exact ⟨st', t, hstep, ⟨hfits, append_mem_of_leads hst.2 honly hleads⟩, hrest⟩

/-- The first step into a group starts its first occurrence. -/
theorem step_fresh (hn : (group o c cs).Ordered) (hmax : o.never = false) (name : Name) :
    (group o c cs).step name .fresh = stepAfresh name cs 1 c := by
  have hfull : o.full 0 = false := Occurs.full_eq_false_iff.2 fun max h => by
    have : max ≠ 0 := by
      rintro rfl
      simp [Occurs.never, Option.mem_def.1 h] at hmax
    omega
  have hstart : (group o c cs).canStart .fresh = true := (canStart_iff hn (fits_fresh _)).2
    ⟨hfull, by rw [Progress.fresh, underWay_leaf]; exact Language.nil_mem_one⟩
  rw [step_group, if_pos hstart]
  rfl

/-- A progress of a group is in its first occurrence, and what may end that ends one that begins
with `u`. -/
def StandsInside (n : Node) (u : List Letter) (st : Progress) : Prop :=
  n.Fits st ∧ st.count = 1 ∧ ∀ w ∈ n.underWay st, u ++ w ∈ n.occurrence

/-- A run through a group with steady particles takes every start of an occurrence in the first
one. -/
theorem exists_along_inside (hn : (group o c cs).Proper) (hmax : o.never = false)
    (hsteady : ∀ m ∈ cs, m.Steady)
    (h : Separate (Letter.Contests .v10) (group o c cs).occurrence) {a : Letter}
    {u v : List Letter} (huv : a :: u ++ v ∈ (group o c cs).occurrence) :
    ∃ st, along (group o c cs).step .fresh (a :: u) = some st ∧
      (group o c cs).StandsInside (a :: u) st := by
  have hfollows : ∀ (b : Letter), ∀ m ∈ cs, Follows b.1 b.2 m := fun b m hm =>
    (hsteady m hm).follows (hn.of_mem hm)
  -- the first step begins an occurrence, all later ones stay inside it
  have honly := only_of_separate (x := []) h (fun w hw => hw) huv
  obtain ⟨st₁, t, hstep, hrest⟩ := stepAfresh_follows hn (hfollows a) honly 1 huv
  have hwithin := hn.ordered.valid.within_one hmax
  obtain ⟨hfits, hcount, hleads⟩ := leads_of_stepAfresh (k := 0) hn.ordered hwithin hstep
  have hfirst : (group o c cs).StandsInside [a] st₁ :=
    ⟨hfits, hcount, append_mem_of_leads (x := []) (fun w hw => hw) honly hleads⟩
  have hinside : ∃ st', along (group o c cs).step st₁ u = some st' ∧
      (group o c cs).StandsInside ([a] ++ u) st' ∧ v ∈ (group o c cs).underWay st' := by
    refine exists_along (fun x st b v hst hv => ?_) hfirst hrest
    obtain ⟨hst, hcount, hx⟩ := hst
    have honly := only_of_separate h hx (hx _ hv)
    obtain ⟨st', t, hstep, hrest⟩ := stepInside_follows hn (hfollows b) hst honly hv
    obtain ⟨hfits, hsame, hleads⟩ := leads_of_stepInside hn.ordered hst hstep
    have hgroup : (group o c cs).step b.1 st = some (st', t) := by
      rw [step_group, hstep, Option.some_or]
    have hx' := append_mem_of_leads hx honly hleads
    exact ⟨st', t, hgroup, ⟨hfits, hsame.trans hcount, hx'⟩, hrest⟩
  obtain ⟨st', hrun, hst', -⟩ := hinside
  have hgroup := (step_fresh hn.ordered hmax a.1).trans hstep
  exact ⟨st', by rw [along_cons hgroup, hrun], hst'⟩

/-! ### Particles in their surroundings -/

/-- Through the tree `n` a run of the tree `m` that comes after `x` goes as through `m` alone, and
what follows `m` is in `k`. -/
structure Surrounds (n m : Node) (x : List Letter) (k : Language Letter) : Prop where
  words : ∀ w ∈ m.words * k, x ++ w ∈ n.words
  run : ∀ u v st, u ≠ [] → u ++ v ∈ m.words → along m.step .fresh u = some st →
    ∃ st', along n.step .fresh (x ++ u) = some st' ∧ ∀ w ∈ n.rest st', w ∈ m.rest st * k
  around : ∀ t, letters t ⊆ letters m.words → Around t m.words → Around t k ∧ Around t n.words

theorem Surrounds.refl (n : Node) : Surrounds n n [] 1 where
  words w hw := by rwa [mul_one] at hw
  run u v st _ _ hrun := ⟨st, hrun, fun w hw => by rwa [mul_one]⟩
  around t _ h := ⟨.one, h⟩

theorem Surrounds.trans {d : Node} {x y : List Letter} {j k : Language Letter}
    (h : Surrounds n d x j) (h' : Surrounds d m y k) (hk : ∃ w, w ∈ k) :
    Surrounds n m (x ++ y) (k * j) where
  words w hw := by
    rw [← mul_assoc] at hw
    obtain ⟨u, hu, v, hv, rfl⟩ := Language.mem_mul.1 hw
    rw [List.append_assoc, ← List.append_assoc y]
    exact h.words _ (Language.append_mem_mul (h'.words u hu) hv)
  run u v st hne huv hrun := by
    obtain ⟨z, hz⟩ := hk
    obtain ⟨st₁, hrun₁, hrest₁⟩ := h'.run u v st hne huv hrun
    have hword : y ++ u ++ (v ++ z) ∈ d.words := by
      have h := h'.words _ (Language.append_mem_mul huv hz)
      rwa [List.append_assoc, ← List.append_assoc] at h
    obtain ⟨st', hrun', hrest'⟩ := h.run (y ++ u) (v ++ z) st₁ (by simp [hne]) hword hrun₁
    refine ⟨st', by rwa [List.append_assoc], fun w hw => ?_⟩
    obtain ⟨a, ha, b, hb, rfl⟩ := Language.mem_mul.1 (hrest' w hw)
    rw [← mul_assoc]
    exact Language.append_mem_mul (hrest₁ a ha) hb
  around t ht haround := by
    obtain ⟨hk, hd⟩ := h'.around t ht haround
    have hletters : letters m.words ⊆ letters d.words := by
      rintro a ⟨w, hw, ha⟩
      obtain ⟨z, hz⟩ := hk.nonempty
      refine ⟨_, h'.words _ (Language.append_mem_mul hw hz), ?_⟩
      exact List.mem_append_right y (List.mem_append_left z ha)
    obtain ⟨hj, hn⟩ := h.around t (ht.trans hletters) hd
    exact ⟨hk.mul hj, hn⟩

section Frames

variable {d : Node} {ds es : List Node}

theorem sequenceUnderWay_length (ds es : List Node) (d : Node) (st : Progress) :
    sequenceUnderWay (ds ++ d :: es) ds.length st = d.rest st * (wordsOf es).prod := by
  induction ds with
  | nil => rfl
  | cons b ds ih => exact ih

theorem branchUnderWay_length (ds es : List Node) (d : Node) (st : Progress) :
    branchUnderWay (ds ++ d :: es) ds.length st = d.rest st := by
  induction ds with
  | nil => rfl
  | cons b ds ih => exact ih

theorem branchStep_length (name : Name) (ds es : List Node) (d : Node) (st : Progress) :
    branchStep name (ds ++ d :: es) ds.length st = d.step name st := by
  induction ds with
  | nil => rfl
  | cons b ds ih => exact ih

/-- A choice takes the only particle that takes a name. -/
theorem choiceStep_length {name : Name} {st : Progress} {t : Term}
    (hstep : d.step name .fresh = some (st, t)) (hds : ∀ m ∈ ds, m.step name .fresh = none)
    (hes : choiceStep name es = none) :
    choiceStep name (ds ++ d :: es) = some ((ds.length, st), t) := by
  induction ds with
  | nil => rw [List.nil_append, choiceStep, hstep, hes]; rfl
  | cons b ds ih =>
    rw [List.forall_mem_cons] at hds
    rw [List.cons_append, choiceStep, hds.1, ih hds.2]
    rfl

/-- A step of a sequence from a place in it. -/
def move (cs : List Node) (name : Name) (place : Nat × Progress) :
    Option ((Nat × Progress) × Term) :=
  (sequenceStep name cs place.1 place.2).map fun (i, st, t) => ((i, st), t)

theorem move_eq_some {name : Name} {place : Nat × Progress} {i : Nat} {st : Progress} {t : Term} :
    move cs name place = some ((i, st), t) ↔
      sequenceStep name cs place.1 place.2 = some (i, st, t) := by
  rw [move, Option.map_eq_some_iff]
  constructor
  · rintro ⟨⟨i', st', t'⟩, h, heq⟩
    cases heq
    exact h
  · exact fun h => ⟨_, h, rfl⟩

/-- A run through the first particle of a sequence is one through the sequence. -/
theorem along_move_zero {st st' : Progress} {u : List Letter} (h : along d.step st u = some st') :
    along (move (d :: es)) (0, st) u = some (0, st') := by
  refine along_map (fun st => (0, st)) (fun name st st' t hstep => ?_) h
  rw [move_eq_some, sequenceStep, hstep]

/-- A run through the later particles of a sequence is one through the sequence. -/
theorem along_move_succ {place place' : Nat × Progress} {u : List Letter}
    (h : along (move es) place u = some place') :
    along (move (d :: es)) (place.1 + 1, place.2) u = some (place'.1 + 1, place'.2) := by
  refine along_map (fun place => (place.1 + 1, place.2)) (fun name place place' t hmove => ?_) h
  rw [move_eq_some] at hmove ⊢
  rw [sequenceStep, hmove, Option.map_some]

/-- Where the first particle of a sequence may end and does not take the next element, a run goes on
with the later ones. -/
theorem along_move_of_end {st : Progress} {place : Nat × Progress} {a : Letter} {u : List Letter}
    (hstep : d.step a.1 st = none) (hend : d.canEnd st = true)
    (h : along (move es) (0, .fresh) (a :: u) = some place) :
    along (move (d :: es)) (0, st) (a :: u) = some (place.1 + 1, place.2) := by
  rw [along] at h
  obtain ⟨⟨⟨i, st₁⟩, t⟩, hmove, h⟩ := Option.bind_eq_some_iff.1 h
  have hnext : move (d :: es) a.1 (0, st) = some ((i + 1, st₁), t) := by
    rw [move_eq_some] at hmove ⊢
    rw [canEnd] at hend
    rw [sequenceStep, hstep]
    simp only [hend, if_true, hmove, Option.map_some]
  rw [along_cons hnext]
  exact along_move_succ h

/-- A run through a particle of a sequence is part of a run through the sequence, once the earlier
particles are passed. -/
theorem exists_pass (hn : ∀ m ∈ ds ++ d :: es, m.Proper) (hsteady : ∀ m ∈ ds, m.Steady)
    (hdisjoint : (wordsOf (ds ++ d :: es)).Pairwise fun l m => Disjoint (letters l) (letters m))
    (h : Separate (Letter.Contests .v10) (wordsOf (ds ++ d :: es)).prod) :
    ∃ x, (∀ w ∈ d.words * (wordsOf es).prod, x ++ w ∈ (wordsOf (ds ++ d :: es)).prod) ∧
      ∀ u v st, u ≠ [] → u ++ v ∈ d.words → along d.step .fresh u = some st →
        along (move (ds ++ d :: es)) (0, .fresh) (x ++ u) = some (ds.length, st) := by
  induction ds with
  | nil =>
    exact ⟨[], fun w hw => hw, fun u v st _ _ hrun => along_move_zero hrun⟩
  | cons b ds ih =>
    rw [List.cons_append] at hn hdisjoint h
    rw [List.forall_mem_cons] at hn hsteady
    rw [wordsOf, List.pairwise_cons] at hdisjoint
    have hlater : Disjoint (letters b.words) (letters (wordsOf (ds ++ d :: es)).prod) :=
      disjoint_letters_of hdisjoint.1 fun a => letters_prod_subset
    have hprod : (wordsOf (b :: (ds ++ d :: es))).prod = b.words * (wordsOf (ds ++ d :: es)).prod :=
      List.prod_cons
    rw [hprod] at h
    rw [List.cons_append, hprod]
    have hsome := exists_mem_prod_wordsOf hn.2
    obtain ⟨y, hy⟩ := hn.1.exists_mem_words
    obtain ⟨s, hpass, hs, hnil⟩ := exists_along_of_steady hn.1 (h.of_mul_left hsome) hsteady.1
      (v := []) (by rwa [List.append_nil])
    obtain ⟨x, hx, hrun⟩ := ih hn.2 hsteady.2 hdisjoint.2 (h.of_mul_right ⟨y, hy⟩)
    refine ⟨y ++ x, fun w hw => ?_, fun u v st hne huv hdrun => ?_⟩
    · rw [List.append_assoc]
      exact Language.append_mem_mul hy (hx w hw)
    rw [List.append_assoc, along_append, along_move_zero hpass, Option.bind_some]
    have hrest := hrun u v st hne huv hdrun
    have hes : ∀ m ∈ es, m.Proper := fun m hm => hn.2 m (by simp [hm])
    obtain ⟨z, hz⟩ := exists_mem_prod_wordsOf hes
    have hword := hx _ (Language.append_mem_mul huv hz)
    obtain ⟨a, w, ha⟩ := List.exists_cons_of_ne_nil (show x ++ u ≠ [] by simp [hne])
    rw [ha] at hrest ⊢
    rw [List.append_assoc, ← List.append_assoc x, ha] at hword
    -- the element is one of a later particle, so the current one cannot take it
    have honly : Only a.1 a.2 (b.rest s) := by
      refine Only.of_mul_left (k := (wordsOf (ds ++ d :: es)).prod) ?_ hsome
      refine only_of_separate h (x := y) (fun w hw => ?_) (Language.append_mem_mul hy hword)
      obtain ⟨w₁, hw₁, w₂, hw₂, rfl⟩ := Language.mem_mul.1 hw
      rw [← List.append_assoc]
      exact Language.append_mem_mul (hs.2 w₁ hw₁) hw₂
    have hstep : b.step a.1 s = none := step_eq_none hn.1 hs.1 honly fun hmem =>
      Set.disjoint_left.1 hlater hmem (head_mem_letters hword)
    have hend := (nil_mem_rest_iff hn.1.ordered hs.1).1 hnil
    exact along_move_of_end hstep hend hrest

/-- A particle has no letters in common with the others. -/
theorem disjoint_letters_others (hn : (group o c (ds ++ d :: es)).Proper) :
    (∀ m ∈ ds, Disjoint (letters d.words) (letters m.words)) ∧
      ∀ m ∈ es, Disjoint (letters d.words) (letters m.words) := by
  have hdisjoint := disjoint_letters hn.numbered
  rw [wordsOf_eq, List.pairwise_map, List.pairwise_append, List.pairwise_cons] at hdisjoint
  exact ⟨fun m hm => (hdisjoint.2.2 m hm d List.mem_cons_self).symm, hdisjoint.2.1.1⟩

/-- Around a particle with the words that may follow some letters, a group has such words, too. -/
theorem around_group {t : Language Letter} (hn : (group o c (ds ++ d :: es)).Proper) (hc : c ≠ .all)
    (hmax : o.never = false) (ht : letters t ⊆ letters d.words) (haround : Around t d.words) :
    (∀ m ∈ es, Around t m.words) ∧ Around t (o.further 1 (group o c (ds ++ d :: es)).occurrence) ∧
      Around t (group o c (ds ++ d :: es)).words := by
  obtain ⟨hds, hes⟩ := disjoint_letters_others hn
  have hother : ∀ m ∈ ds ++ d :: es, Disjoint (letters d.words) (letters m.words) →
      Around t m.words := fun m hm h =>
    .of_disjoint (hn.of_mem hm).exists_mem_words (h.mono_left ht)
  have hlater : ∀ m ∈ es, Around t m.words := fun m hm => hother m (by simp [hm]) (hes m hm)
  have hterm : Around t (group o c (ds ++ d :: es)).occurrence := by
    rw [occurrence]
    refine Around.combine hc ?_
    rw [wordsOf_eq, List.forall_mem_map]
    intro m hm
    rcases List.mem_append.1 hm with hm' | hm'
    · exact hother m hm (hds m hm')
    · rcases List.mem_cons.1 hm' with rfl | hm'
      · exact haround
      · exact hlater m hm'
  have hwithin := hn.ordered.valid.within_one hmax
  exact ⟨hlater, hterm.further (Occurs.nonempty_further hn.ordered.valid hwithin
    hn.exists_mem_occurrence), hterm.words hn.ordered.valid⟩

/-- What may follow an occurrence makes a word with it. -/
theorem append_mem_words {u v : List Letter} (hu : u ∈ n.occurrence)
    (hv : v ∈ n.occurs.further 1 n.occurrence) : u ++ v ∈ n.words := by
  rw [words, ← Occurs.further_zero]
  exact Occurs.append_mem_further hu hv

/-- A sequence surrounds a particle whose earlier ones are steady. -/
theorem surrounds_sequence (hn : (group o .sequence (ds ++ d :: es)).Proper)
    (hmax : o.never = false) (hsteady : ∀ m ∈ ds, m.Steady)
    (h : Separate (Letter.Contests .v10) (group o .sequence (ds ++ d :: es)).words) :
    ∃ x, Surrounds (group o .sequence (ds ++ d :: es)) d x
      ((wordsOf es).prod * o.further 1 (group o .sequence (ds ++ d :: es)).occurrence) := by
  have hterm := h.of_words hn.ordered.valid hmax hn.exists_mem_occurrence
  obtain ⟨x, hx, hpass⟩ := exists_pass (fun m hm => hn.of_mem hm) hsteady
    (disjoint_letters hn.numbered) hterm
  refine ⟨x, ⟨fun w hw => ?_, fun u v st hne huv hrun => ?_, fun t ht haround => ?_⟩⟩
  · rw [← mul_assoc] at hw
    obtain ⟨y, hy, z, hz, rfl⟩ := Language.mem_mul.1 hw
    rw [← List.append_assoc]
    exact append_mem_words (n := group o .sequence (ds ++ d :: es)) (hx y hy) hz
  · have hmoves := hpass u v st hne huv hrun
    obtain ⟨a, w, ha⟩ := List.exists_cons_of_ne_nil (show x ++ u ≠ [] by simp [hne])
    rw [ha] at hmoves ⊢
    rw [along] at hmoves
    obtain ⟨⟨⟨i, st₁⟩, t⟩, hmove, hmoves⟩ := Option.bind_eq_some_iff.1 hmoves
    have hfirst : (group o .sequence (ds ++ d :: es)).step a.1 .fresh =
        some (.sequence 1 i st₁, t) := by
      rw [step_fresh hn.ordered hmax, stepAfresh, move_eq_some.1 hmove]
      rfl
    refine ⟨.sequence 1 ds.length st, ?_, fun w hw => ?_⟩
    · rw [along_cons hfirst]
      refine along_map (fun place : Nat × Progress => Progress.sequence 1 place.1 place.2)
        (fun name place place' t h => ?_) hmoves
      rw [step_group, stepInside, move_eq_some.1 h]
      rfl
    · rw [← mul_assoc, ← sequenceUnderWay_length ds es d st]
      exact hw
  · obtain ⟨hlater, hfurther, hwords⟩ := around_group hn (by simp) hmax ht haround
    refine ⟨Around.mul ?_ hfurther, hwords⟩
    refine Around.combine (c := .sequence) (by simp) ?_
    rwa [wordsOf_eq, List.forall_mem_map]

/-- A choice surrounds each of its particles. -/
theorem surrounds_choice (hn : (group o .choice (ds ++ d :: es)).Proper) (hmax : o.never = false)
    (h : Separate (Letter.Contests .v10) (group o .choice (ds ++ d :: es)).words) :
    Surrounds (group o .choice (ds ++ d :: es)) d []
      (o.further 1 (group o .choice (ds ++ d :: es)).occurrence) := by
  have hterm := h.of_words hn.ordered.valid hmax hn.exists_mem_occurrence
  have hbranch : ∀ m ∈ ds ++ d :: es, ∀ w ∈ m.words,
      w ∈ (group o .choice (ds ++ d :: es)).occurrence := fun m hm w hw => by
    rw [occurrence]
    exact mem_combine_choice.2 (Or.inr ⟨m.words, wordsOf_eq _ ▸ List.mem_map_of_mem hm, hw⟩)
  have hd : d ∈ ds ++ d :: es := by simp
  refine ⟨fun w hw => ?_, fun u v st hne huv hrun => ?_, fun t ht haround => ?_⟩
  · obtain ⟨y, hy, z, hz, rfl⟩ := Language.mem_mul.1 hw
    rw [List.nil_append]
    exact append_mem_words (n := group o .choice (ds ++ d :: es)) (hbranch d hd y hy) hz
  · obtain ⟨a, u, rfl⟩ := List.exists_cons_of_ne_nil hne
    rw [along] at hrun
    obtain ⟨⟨st₁, t⟩, hstep, hrun⟩ := Option.bind_eq_some_iff.1 hrun
    -- no other particle takes the element
    have honly : ∀ m ∈ ds ++ d :: es, Only a.1 a.2 m.words := fun m hm =>
      only_of_separate (x := []) hterm (hbranch m hm) (hbranch d hd _ huv)
    obtain ⟨hds, hes⟩ := disjoint_letters_others hn
    have hmem := head_mem_letters huv
    have hbefore : ∀ m ∈ ds, m.step a.1 .fresh = none := fun m hm => by
      have hm' : m ∈ ds ++ d :: es := by simp [hm]
      refine step_eq_none (hn.of_mem hm') (fits_fresh m) ?_ (Set.disjoint_left.1 (hds m hm) hmem)
      rw [rest_fresh]
      exact honly m hm'
    have hafter : choiceStep a.1 es = none :=
      choiceStep_eq_none (fun m hm => hn.of_mem (by simp [hm]))
        (fun m hm => honly m (by simp [hm])) fun m hm => Set.disjoint_left.1 (hes m hm) hmem
    have hfirst : (group o .choice (ds ++ d :: es)).step a.1 .fresh =
        some (.choice 1 ds.length st₁, t) := by
      rw [step_fresh hn.ordered hmax, stepAfresh, choiceStep_length hstep hbefore hafter]
      rfl
    refine ⟨.choice 1 ds.length st, ?_, fun w hw => ?_⟩
    · rw [List.nil_append, along_cons hfirst]
      refine along_map (fun st => Progress.choice 1 ds.length st) (fun name st st' t h => ?_) hrun
      rw [step_group, stepInside, branchStep_length, h]
      rfl
    · rw [← branchUnderWay_length ds es d st]
      exact hw
  · obtain ⟨-, hfurther, hwords⟩ := around_group hn (by simp) hmax ht haround
    exact ⟨hfurther, hwords⟩

end Frames

end Node
end ContentModel
end SchemaAssist
