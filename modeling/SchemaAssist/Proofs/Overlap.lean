/-
# Words that go on with what words begin with

Where a word can go on with a letter that a further one can begin with, taking it for the former
may cost a word: if a lightest word begins with it, under some weights of the letters, then without
that word fewer remain than there should (`Costly`).  It may also leave letters over that neither
the word gone on with nor any others can take (`Wasteful`).  Both pass from the particles of a group
to the group and from an occurrence to its repetitions, as far as the bounds do not make up for
them.
-/

import Mathlib
import SchemaAssist.Proofs.Ends

namespace SchemaAssist

open Computability

variable {α : Type*} {l m : Language α} {o : Occurs}

/-! ### Cutting into words -/

/-- If words go on with nothing that they begin with, a longer text is cut into words as its
beginning is. -/
theorem exists_suffix_of_flatten (hl : Disjoint (goesOn l) (starts l)) {ts ss : List (List α)}
    (hts : ∀ t ∈ ts, t ∈ l) (hss : ∀ s ∈ ss, s ∈ l) {a : α} {v : List α} (ha : a ∈ starts l)
    (h : ts.flatten ++ a :: v = ss.flatten) : ∃ rs, rs ≠ [] ∧ ss = ts ++ rs := by
  have hhead : ∀ {ts : List (List α)} {b : α} {w : List α}, (∀ t ∈ ts, t ∈ l) →
      ts.flatten = b :: w → b ∈ starts l := fun hts hw =>
    starts_kstar_subset ⟨_, hw ▸ Language.join_mem_kstar hts⟩
  induction ts generalizing ss with
  | nil => exact ⟨ss, by rintro rfl; simp at h, rfl⟩
  | cons t ts ih =>
    rw [List.forall_mem_cons] at hts
    cases ss with
    | nil => simp at h
    | cons s ss =>
      rw [List.forall_mem_cons] at hss
      rw [List.flatten_cons, List.flatten_cons, List.append_assoc] at h
      rcases List.append_eq_append_iff.1 h with ⟨r, rfl, hr⟩ | ⟨r, rfl, hr⟩
      · cases r with
        | nil =>
          obtain ⟨rs, hne, rfl⟩ := ih hts.2 hss.2 (by simpa using hr)
          exact ⟨rs, hne, by simp⟩
        | cons b r =>
          have hb : b ∈ starts l := by
            cases hflat : ts.flatten with
            | nil =>
              rw [hflat] at hr
              exact (List.cons_eq_cons.1 hr).1 ▸ ha
            | cons c w =>
              rw [hflat] at hr
              exact (List.cons_eq_cons.1 hr).1 ▸ hhead hts.2 hflat
          exact absurd hb (Set.disjoint_left.1 hl ⟨t, hts.1, r, hss.1⟩)
      · cases r with
        | nil =>
          obtain ⟨rs, hne, rfl⟩ := ih hts.2 hss.2 (by simpa using hr.symm)
          exact ⟨rs, hne, by simp⟩
        | cons b r =>
          exact absurd (hhead hss.2 hr) (Set.disjoint_left.1 hl ⟨s, hss.1, r, hts.1⟩)

/-- If words go on with nothing that they begin with, a text is made of one number of them. -/
theorem length_eq_of_flatten_eq (hl : Disjoint (goesOn l) (starts l)) {ts ss : List (List α)}
    (hts : ∀ t ∈ ts, t ∈ l) (hss : ∀ s ∈ ss, s ∈ l) {a : α} {v : List α} (ht : a :: v ∈ l)
    (h : ts.flatten = ss.flatten) : ts.length = ss.length := by
  have hle : ∀ {ts ss : List (List α)}, (∀ t ∈ ts, t ∈ l) → (∀ s ∈ ss, s ∈ l) →
      ts.flatten = ss.flatten → ts.length ≤ ss.length := by
    intro ts ss hts hss h
    -- with one more word at its end, the second list is longer than the first one
    have hmore : ∀ s ∈ ss ++ [a :: v], s ∈ l := fun s hs =>
      (List.mem_append.1 hs).elim (hss s) fun hs => List.mem_singleton.1 hs ▸ ht
    have hflat : ts.flatten ++ a :: v = (ss ++ [a :: v]).flatten := by
      rw [List.flatten_append, List.flatten_singleton, h]
    obtain ⟨rs, hrs, heq⟩ := exists_suffix_of_flatten hl hts hmore ⟨v, ht⟩ hflat
    have hlength := congrArg List.length heq
    have := List.length_pos_iff.2 hrs
    rw [List.length_append, List.length_append, List.length_singleton] at hlength
    omega
  exact (hle hts hss h).antisymm (hle hss hts h.symm)

/-! ### Weights -/

/-- The weight of a word, letter by letter. -/
def weight (ω : α → ℕ) (w : List α) : ℕ := (w.map ω).sum

section Weight

variable {ω : α → ℕ}

@[simp] theorem weight_nil : weight ω [] = 0 := rfl

@[simp] theorem weight_cons (a : α) (w : List α) : weight ω (a :: w) = ω a + weight ω w := by
  simp [weight]

@[simp] theorem weight_append (u v : List α) : weight ω (u ++ v) = weight ω u + weight ω v := by
  simp [weight]

theorem exists_lightest (ω : α → ℕ) (hl : ∃ w, w ∈ l) :
    ∃ w ∈ l, ∀ v ∈ l, weight ω w ≤ weight ω v := by
  obtain ⟨w, hw, hmin⟩ := (measure (weight ω)).wf.has_min l hl
  exact ⟨w, hw, fun v hv => not_lt.1 (hmin v hv)⟩

theorem le_weight_of_mem {a : α} {w : List α} (h : a ∈ w) : ω a ≤ weight ω w :=
  List.le_sum_of_mem (List.mem_map_of_mem h)

theorem mul_le_weight_of_mem_pow {n k : ℕ} (h : ∀ w ∈ l, n ≤ weight ω w) {w : List α}
    (hw : w ∈ l ^ k) : k * n ≤ weight ω w := by
  induction k generalizing w with
  | zero => simp
  | succ k ih =>
    rw [pow_succ] at hw
    obtain ⟨u, hu, v, hv, rfl⟩ := Language.mem_mul.1 hw
    have h₁ := ih hu
    have h₂ := h v hv
    rw [weight_append, Nat.add_mul, one_mul]
    exact Nat.add_le_add h₁ h₂

end Weight

theorem flatten_replicate_mem_pow {w : List α} (hw : w ∈ l) (k : ℕ) :
    (List.replicate k w).flatten ∈ l ^ k :=
  Language.mem_pow.2 ⟨_, rfl, List.length_replicate, fun _ h => List.eq_of_mem_replicate h ▸ hw⟩

theorem weight_flatten_replicate (ω : α → ℕ) (w : List α) (k : ℕ) :
    weight ω (List.replicate k w).flatten = k * weight ω w := by
  induction k with
  | zero => simp
  | succ k ih =>
    rw [List.replicate_succ, List.flatten_cons, weight_append, ih, Nat.add_mul,
      one_mul, Nat.add_comm]

/-- Words that go on with nothing that they begin with do not so if repeated a fixed number of
times. -/
theorem disjoint_goesOn_words (hl : Disjoint (goesOn l) (starts l)) {n : ℕ}
    (hexact : ∀ k, o.Allows k → k = n) : Disjoint (goesOn (o.words l)) (starts l) := by
  refine Set.disjoint_left.2 ?_
  rintro a ⟨u, ⟨j, hj, hu⟩, v, k, hk, hv⟩ ha
  obtain ⟨ts, rfl, rfl, hts⟩ := Language.mem_pow.1 hu
  obtain ⟨ss, hflat, rfl, hss⟩ := Language.mem_pow.1 hv
  obtain ⟨rs, hne, rfl⟩ := exists_suffix_of_flatten hl hts hss ha hflat
  have hlength := (hexact _ hk).trans (hexact _ hj).symm
  rw [List.length_append] at hlength
  exact hne (List.length_eq_zero_iff.1 (by omega))

/-! ### Going on costs a word -/

/-- Under some weights a lightest word begins with what words go on with. -/
def Costly (l : Language α) : Prop :=
  ∃ ω : α → ℕ, (∀ b, 0 < ω b) ∧ ∃ a z, a ∈ goesOn l ∧ a :: z ∈ l ∧
    ∀ w ∈ l, weight ω (a :: z) ≤ weight ω w

namespace Costly

theorem mul_left (h : Costly l) (hm : [] ∈ m) : Costly (l * m) := by
  obtain ⟨ω, hω, a, z, ha, hz, hmin⟩ := h
  refine ⟨ω, hω, a, z, goesOn_subset_goesOn_mul_of_nil_mem hm ha, ?_, fun w hw => ?_⟩
  · exact List.append_nil (a :: z) ▸ Language.append_mem_mul hz hm
  · obtain ⟨u, hu, v, -, rfl⟩ := Language.mem_mul.1 hw
    rw [weight_append]
    exact (hmin u hu).trans (Nat.le_add_right _ _)

theorem mul_right (h : Costly m) (hl : [] ∈ l) : Costly (l * m) := by
  obtain ⟨ω, hω, a, z, ha, hz, hmin⟩ := h
  refine ⟨ω, hω, a, z, goesOn_subset_goesOn_mul ⟨_, hl⟩ ha, ?_, fun w hw => ?_⟩
  · exact Language.append_mem_mul hl hz
  · obtain ⟨u, -, v, hv, rfl⟩ := Language.mem_mul.1 hw
    rw [weight_append]
    exact (hmin v hv).trans (Nat.le_add_left _ _)

open Classical in
/-- Letters of other words can be made as heavy as needed. -/
theorem add_left (h : Costly l) (hm : [] ∉ m) (hlm : Disjoint (letters l) (letters m)) :
    Costly (l + m) := by
  obtain ⟨ω, hω, a, z, ha, hz, hmin⟩ := h
  let ω' : α → ℕ := fun b => if b ∈ letters l then ω b else weight ω (a :: z)
  have hsame : ∀ w ∈ l, weight ω' w = weight ω w := fun w hw => by
    refine congrArg List.sum (List.map_congr_left fun b hb => if_pos ?_)
    exact ⟨w, hw, hb⟩
  refine ⟨ω', fun b => ?_, a, z, goesOn_add_left ha, Or.inl hz, fun w hw => ?_⟩
  · simp only [ω']
    split
    · exact hω b
    · rw [weight_cons]
      exact Nat.add_pos_left (hω a) _
  · rw [hsame _ hz]
    rcases hw with hw | hw
    · exact (hmin w hw).trans_eq (hsame w hw).symm
    · obtain ⟨b, hb⟩ := List.exists_mem_of_ne_nil w fun hnil => hm (hnil ▸ hw)
      have hother : ω' b = weight ω (a :: z) :=
        if_neg fun hbl => Set.disjoint_left.1 hlm hbl ⟨w, hw, hb⟩
      exact hother ▸ le_weight_of_mem hb

theorem add_right (h : Costly m) (hl : [] ∉ l) (hlm : Disjoint (letters l) (letters m)) :
    Costly (l + m) := by
  rw [add_comm]
  exact h.add_left hl hlm.symm

theorem prod {ls : List (Language α)} (hls : ∀ l ∈ ls, ∃ w, w ∈ l)
    (hdisjoint : ls.Pairwise fun l m => Disjoint (letters l) (letters m))
    (hcostly : ∀ l ∈ ls, [] ∉ l → ¬ Disjoint (goesOn l) (starts l) → Costly l)
    (hnil : [] ∉ ls.prod) (h : ¬ Disjoint (goesOn ls.prod) (starts ls.prod)) : Costly ls.prod := by
  induction ls with
  | nil => exact absurd Language.nil_mem_one hnil
  | cons l ls ih =>
    rw [List.forall_mem_cons] at hls hcostly
    rw [List.pairwise_cons] at hdisjoint
    rw [List.prod_cons] at hnil h ⊢
    have hlater : Disjoint (letters l) (letters ls.prod) :=
      disjoint_letters_of hdisjoint.1 fun a => letters_prod_subset
    obtain ⟨a, ha, ha'⟩ := Set.not_disjoint_iff.1 h
    rw [nil_mem_mul] at hnil
    rcases goesOn_mul_subset hlater ha with ha | ⟨hm, ha⟩
    · rcases starts_mul_subset ha' with ha' | ⟨hl, ha'⟩
      · exact absurd (goesOn_subset_letters ha)
          (Set.disjoint_left.1 hlater (starts_subset_letters ha'))
      · refine (ih hls.2 hdisjoint.2 hcostly.2 (fun hm => hnil ⟨hl, hm⟩) ?_).mul_right hl
        exact Set.not_disjoint_iff.2 ⟨a, ha, ha'⟩
    · have hl : [] ∉ l := fun hl => hnil ⟨hl, hm⟩
      have ha' := (starts_mul_subset ha').resolve_right fun h => hl h.1
      exact (hcostly.1 hl (Set.not_disjoint_iff.2 ⟨a, ha, ha'⟩)).mul_left hm

theorem sum {ls : List (Language α)}
    (hdisjoint : ls.Pairwise fun l m => Disjoint (letters l) (letters m))
    (hcostly : ∀ l ∈ ls, [] ∉ l → ¬ Disjoint (goesOn l) (starts l) → Costly l)
    (hnil : [] ∉ ls.sum) (h : ¬ Disjoint (goesOn ls.sum) (starts ls.sum)) : Costly ls.sum := by
  induction ls with
  | nil =>
    obtain ⟨a, ⟨u, hu, -⟩, -⟩ := Set.not_disjoint_iff.1 h
    exact absurd hu (Language.notMem_zero u)
  | cons l ls ih =>
    rw [List.forall_mem_cons] at hcostly
    rw [List.pairwise_cons] at hdisjoint
    rw [List.sum_cons] at hnil h ⊢
    have hlater : Disjoint (letters l) (letters ls.sum) :=
      disjoint_letters_of hdisjoint.1 fun a => letters_sum_subset
    obtain ⟨a, ha, ha'⟩ := Set.not_disjoint_iff.1 h
    have hl : [] ∉ l := fun hl => hnil (Or.inl hl)
    have hm : [] ∉ ls.sum := fun hm => hnil (Or.inr hm)
    rw [starts_add] at ha'
    rcases (goesOn_add_subset hlater ha).resolve_right fun h => hnil h.1 with ha | ha
    · have ha' := ha'.resolve_right fun ha' => Set.disjoint_left.1 hlater
        (goesOn_subset_letters ha) (starts_subset_letters ha')
      exact (hcostly.1 hl (Set.not_disjoint_iff.2 ⟨a, ha, ha'⟩)).add_left hm hlater
    · have ha' := ha'.resolve_left fun ha' => Set.disjoint_left.1 hlater
        (starts_subset_letters ha') (goesOn_subset_letters ha)
      exact (ih hdisjoint.2 hcostly.2 hm (Set.not_disjoint_iff.2 ⟨a, ha, ha'⟩)).add_right hl hlater

section Words

variable (hl : ∃ w, w ∈ l) (ho : o.Valid) (hmin : 1 ≤ o.min)

include hl ho hmin

theorem words (h : Costly l) : Costly (o.words l) := by
  have hmax : o.never = false := by
    rw [← Bool.not_eq_true]
    intro hnever
    have := ho 0 (by simpa [Occurs.never] using hnever)
    omega
  obtain ⟨ω, hω, a, z, ha, hz, hleast⟩ := h
  obtain ⟨k, hk⟩ := Nat.exists_eq_add_of_le' hmin
  refine ⟨ω, hω, a, z ++ (List.replicate k (a :: z)).flatten,
    goesOn_subset_goesOn_words ho hmax hl ha, ?_, ?_⟩
  · refine ⟨k + 1, ⟨hk.le, fun max h => hk ▸ ho max h⟩, ?_⟩
    rw [pow_succ']
    exact Language.append_mem_mul hz (flatten_replicate_mem_pow hz k)
  · rintro w ⟨j, hj, hw⟩
    have hweight := mul_le_weight_of_mem_pow hleast hw
    have hle := Nat.mul_le_mul_right (weight ω (a :: z)) hj.1
    rw [← List.cons_append, weight_append, weight_flatten_replicate]
    rw [hk, Nat.add_mul, one_mul] at hle
    omega

omit ho in
/-- A further repetition begins like all others. -/
theorem of_repeated (hnil : [] ∉ l) (hmore : o.Within (o.min + 1)) : Costly (o.words l) := by
  obtain ⟨t, ht, hleast⟩ := exists_lightest (fun _ => 1) hl
  obtain ⟨k, hk⟩ := Nat.exists_eq_add_of_le' hmin
  cases t with
  | nil => exact absurd ht hnil
  | cons a z =>
    have hpow : ∀ j, o.min ≤ j → j ≤ o.min + 1 →
        (List.replicate j (a :: z)).flatten ∈ o.words l := fun j hj hle =>
      ⟨j, ⟨hj, hmore.mono hle⟩, flatten_replicate_mem_pow ht j⟩
    refine ⟨fun _ => 1, fun _ => one_pos, a, z ++ (List.replicate k (a :: z)).flatten,
      ⟨_, hpow o.min le_rfl (Nat.le_succ _), z, ?_⟩, ?_, ?_⟩
    · have h := hpow (o.min + 1) (Nat.le_succ _) le_rfl
      rwa [List.replicate_succ', List.flatten_append, List.flatten_singleton] at h
    · have h := hpow o.min le_rfl (Nat.le_succ _)
      rwa [hk, List.replicate_succ, List.flatten_cons, List.cons_append] at h
    · rintro w ⟨j, hj, hw⟩
      have hweight := mul_le_weight_of_mem_pow hleast hw
      have hle := Nat.mul_le_mul_right (weight (fun _ => 1) (a :: z)) hj.1
      rw [← List.cons_append, weight_append, weight_flatten_replicate]
      rw [hk, Nat.add_mul, one_mul] at hle
      omega

end Words

/-- Repetitions that go on with what they begin with cost a word if a single word that does so
costs one. -/
theorem words_of_not_disjoint (hl : ∃ w, w ∈ l) (ho : o.Valid) (hnil : [] ∉ o.words l)
    (hcostly : ¬ Disjoint (goesOn l) (starts l) → Costly l)
    (h : ¬ Disjoint (goesOn (o.words l)) (starts (o.words l))) : Costly (o.words l) := by
  rw [Occurs.nil_mem_words ho, not_or] at hnil
  have hmin : 1 ≤ o.min := Nat.one_le_iff_ne_zero.2 hnil.1
  by_cases hterm : Disjoint (goesOn l) (starts l)
  · by_cases hmore : o.Within (o.min + 1)
    · exact of_repeated hl hmin hnil.2 hmore
    · refine absurd ((disjoint_goesOn_words (n := o.min) hterm fun k hk => ?_).mono_right ?_) h
      · have : ¬ o.min + 1 ≤ k := fun hle => hmore (Occurs.Within.mono hk.2 hle)
        have := hk.1
        omega
      · exact (starts_mono Occurs.words_le_kstar).trans starts_kstar_subset
  · exact (hcostly hterm).words hl ho hmin

end Costly

/-! ### Going on wastes letters -/

/-- A word goes on with the first letter of another one, and what is left of that neither the rest
of the word nor further words can take. -/
def Wasteful (l : Language α) : Prop :=
  ∃ u a z, u ∈ l ∧ (∃ v, u ++ a :: v ∈ l) ∧ a :: z ∈ l ∧
    ∀ v, u ++ a :: v ∈ l → ∀ w ∈ l∗, v ++ w ≠ z

namespace Wasteful

/-- More words do not help if they have other letters. -/
theorem mono (h : Wasteful l) (hle : l ≤ m)
    (hback : ∀ w ∈ m, w ≠ [] → (∀ a ∈ w, a ∈ letters l) → w ∈ l) : Wasteful m := by
  obtain ⟨u, a, z, hu, ⟨v, hv⟩, hz, hwaste⟩ := h
  refine ⟨u, a, z, hle hu, ⟨v, hle hv⟩, hle hz, ?_⟩
  rintro v' hv' w hw rfl
  have hletters : ∀ b ∈ v' ++ w, b ∈ letters l := fun b hb =>
    ⟨_, hz, List.mem_cons_of_mem a hb⟩
  refine hwaste v' (hback _ hv' (by simp) fun b hb => ?_) w ?_ rfl
  · rcases List.mem_append.1 hb with hb | hb
    · exact ⟨u, hu, hb⟩
    · rcases List.mem_cons.1 hb with rfl | hb
      · exact ⟨_, hz, List.mem_cons_self⟩
      · exact hletters b (List.mem_append_left w hb)
  · obtain ⟨ws, rfl, hws⟩ := Language.mem_kstar_iff_exists_nonempty.1 hw
    refine Language.join_mem_kstar fun y hy => hback y (hws y hy).1 (hws y hy).2 fun b hb => ?_
    exact hletters b (List.mem_append_right v' (List.mem_flatten.2 ⟨y, hy, hb⟩))

section Parts

variable (hlm : Disjoint (letters l) (letters m))

include hlm

/-- Words without common letters with `l` have none of its letters. -/
theorem eq_nil_of_letters {w : List α} (hw : w ∈ m) (h : ∀ a ∈ w, a ∈ letters l) : w = [] :=
  List.eq_nil_iff_forall_not_mem.2 fun a ha => Set.disjoint_left.1 hlm (h a ha) ⟨w, hw, ha⟩

theorem mul_left (h : Wasteful l) (hm : [] ∈ m) : Wasteful (l * m) := by
  refine h.mono (fun w hw => List.append_nil w ▸ Language.append_mem_mul hw hm) fun w hw _ ha => ?_
  obtain ⟨u, hu, v, hv, rfl⟩ := Language.mem_mul.1 hw
  rwa [eq_nil_of_letters hlm hv fun a hav => ha a (List.mem_append_right u hav), List.append_nil]

theorem mul_right (h : Wasteful m) (hl : [] ∈ l) : Wasteful (l * m) := by
  refine h.mono (fun w hw => Language.append_mem_mul hl hw) fun w hw _ ha => ?_
  obtain ⟨u, hu, v, hv, rfl⟩ := Language.mem_mul.1 hw
  rwa [eq_nil_of_letters hlm.symm hu fun a hau => ha a (List.mem_append_left v hau),
    List.nil_append]

theorem add_left (h : Wasteful l) : Wasteful (l + m) := by
  refine h.mono (fun w hw => Or.inl hw) fun w hw hne ha => hw.resolve_right fun hw => hne ?_
  exact eq_nil_of_letters hlm hw ha

theorem add_right (h : Wasteful m) : Wasteful (l + m) := by
  rw [add_comm]
  exact h.add_left hlm.symm

end Parts

theorem sum {ls : List (Language α)}
    (hdisjoint : ls.Pairwise fun l m => Disjoint (letters l) (letters m)) (hl : l ∈ ls)
    (h : Wasteful l) : Wasteful ls.sum := by
  induction ls with
  | nil => cases hl
  | cons m ls ih =>
    rw [List.pairwise_cons] at hdisjoint
    have hlater : Disjoint (letters m) (letters ls.sum) :=
      disjoint_letters_of hdisjoint.1 fun a => letters_sum_subset
    rw [List.sum_cons]
    rcases List.mem_cons.1 hl with rfl | hl
    · exact h.add_left hlater
    · exact (ih hdisjoint.2 hl).add_right hlater

/-- Where words cannot be repeated, there is no more waste than without bounds. -/
theorem words_of_once (h : Wasteful l) (ho : o.Valid) (hmax : o.never = false)
    (honce : o.multiple = false) : Wasteful (o.words l) := by
  obtain ⟨k, hk⟩ := ho.exists_allows_succ hmax
  obtain rfl : k = 0 := by
    have := hk.le_one honce
    omega
  refine h.mono (fun w hw => Occurs.mem_words_of_allows_one hk hw) fun w hw hne _ => ?_
  exact (Occurs.words_le_one_add honce hw).resolve_left hne

theorem exists_of_mem_kstar_words {w : List α} (hw : w ∈ (o.words l)∗) :
    ∃ k, (k = 0 ∨ o.min ≤ k) ∧ w ∈ l ^ k := by
  obtain ⟨ws, rfl, hws⟩ := Language.mem_kstar.1 hw
  induction ws with
  | nil => exact ⟨0, Or.inl rfl, Language.nil_mem_one⟩
  | cons u ws ih =>
    rw [List.forall_mem_cons] at hws
    obtain ⟨j, hj, hu⟩ := hws.1
    obtain ⟨k, -, hk⟩ := ih hws.2 (Language.join_mem_kstar hws.2)
    refine ⟨j + k, Or.inr (hj.1.trans (Nat.le_add_right j k)), ?_⟩
    rw [List.flatten_cons, pow_add]
    exact Language.append_mem_mul hu hk

/-- Where at least two words are needed and no more than some allowed, one word too many cannot be
made up for. -/
theorem of_bounded (hl : Disjoint (goesOn l) (starts l)) (hne : ∃ w, w ∈ l) (hnil : [] ∉ l)
    (hmin : 2 ≤ o.min) {max : Nat} (hmax : max ∈ o.max) (hlt : o.min < max) :
    Wasteful (o.words l) := by
  obtain ⟨t, ht⟩ := hne
  cases t with
  | nil => exact absurd ht hnil
  | cons a z =>
    have hstart : a ∈ starts l := ⟨z, ht⟩
    obtain ⟨n, rfl⟩ := Nat.exists_eq_add_of_le' (show 1 ≤ max by omega)
    obtain ⟨k, hk⟩ := Nat.exists_eq_add_of_le' (show 1 ≤ o.min by omega)
    have hpow : ∀ j, o.min ≤ j → j ≤ n + 1 → (List.replicate j (a :: z)).flatten ∈ o.words l :=
      fun j hj hle => ⟨j, ⟨hj, fun max' h => Option.mem_unique hmax h ▸ hle⟩,
        flatten_replicate_mem_pow ht j⟩
    have hreplicate : ∀ j, ∀ s ∈ List.replicate j (a :: z), s ∈ l := fun j s hs =>
      List.eq_of_mem_replicate hs ▸ ht
    refine ⟨(List.replicate n (a :: z)).flatten, a, z ++ (List.replicate k (a :: z)).flatten,
      hpow n (by omega) (by omega), ⟨z, ?_⟩, ?_, ?_⟩
    · have h := hpow (n + 1) (by omega) le_rfl
      rwa [List.replicate_succ', List.flatten_append, List.flatten_singleton] at h
    · have h := hpow o.min le_rfl (by omega)
      rwa [hk, List.replicate_succ, List.flatten_cons, List.cons_append] at h
    · rintro v ⟨j, hj, hv⟩ w hw heq
      obtain ⟨i, hi, hw⟩ := exists_of_mem_kstar_words hw
      obtain ⟨ss, hflat, rfl, hss⟩ := Language.mem_pow.1 hv
      obtain ⟨ks, rfl, rfl, hks⟩ := Language.mem_pow.1 hw
      -- what goes on is a single word, since all others are in use
      obtain ⟨rs, hrs, rfl⟩ := exists_suffix_of_flatten hl (hreplicate n) hss hstart hflat
      have hle := hj.2 _ hmax
      rw [List.length_append, List.length_replicate] at hle
      obtain ⟨r, rfl⟩ : ∃ r, rs = [r] := List.length_eq_one_iff.1 <| by
        have := List.length_pos_iff.2 hrs
        omega
      rw [List.flatten_append, List.flatten_singleton, List.append_cancel_left_eq] at hflat
      subst hflat
      have hr : a :: v ∈ l := hss _ (List.mem_append_right _ List.mem_cons_self)
      have hall : ∀ s ∈ (a :: v) :: ks, s ∈ l := List.forall_mem_cons.2 ⟨hr, hks⟩
      -- so there are as many words after it as were needed less one
      have hlength := length_eq_of_flatten_eq hl hall (hreplicate o.min) ht <| by
        rw [hk, List.replicate_succ, List.flatten_cons, List.flatten_cons, List.cons_append,
          List.cons_append, heq]
      rw [List.length_cons, List.length_replicate] at hlength
      omega

end Wasteful

end SchemaAssist
