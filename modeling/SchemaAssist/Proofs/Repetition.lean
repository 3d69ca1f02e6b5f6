/-
# Telling letters apart in repeated words

Bounds repeat the words of a language (`Occurs.words`).  If more than one repetition is allowed, the
letters that a word goes on with must not contest those that the next one begins with; this is
needed (`Separate.apart_of_words`), and for the languages of content models it is enough, even
without bounds.  Such languages are called tame here: what can be said of their repetitions is
decided by the letters that they begin with and go on with (`Tame`).
-/

import SchemaAssist.Proofs.Separation

namespace SchemaAssist

open Computability

variable {α : Type*} {R : α → α → Prop} {l m : Language α} {o : Occurs}

theorem mem_kstar_of_mem_pow {k : Nat} {w : List α} (h : w ∈ l ^ k) : w ∈ l∗ :=
  (pow_le_kstar : l ^ k ≤ l∗) h

theorem exists_mem_pow_of_mem_kstar {w : List α} (h : w ∈ l∗) : ∃ k, w ∈ l ^ k := by
  rw [Language.kstar_eq_iSup_pow, Language.mem_iSup] at h
  exact h

theorem append_mem_kstar {u v : List α} (hu : u ∈ l) (hv : v ∈ l∗) : u ++ v ∈ l∗ :=
  (mul_kstar_le_kstar : l * l∗ ≤ l∗) (Language.append_mem_mul hu hv)

/-- The first letter of repeated words is the first letter of one that is not empty. -/
theorem exists_of_cons_mem_kstar {a : α} {w : List α} (h : a :: w ∈ l∗) :
    ∃ u v, w = u ++ v ∧ a :: u ∈ l ∧ v ∈ l∗ := by
  obtain ⟨k, hk⟩ := exists_mem_pow_of_mem_kstar h
  obtain ⟨j, u, v, -, rfl, hu, hv⟩ := exists_of_cons_mem_pow hk
  exact ⟨u, v, rfl, hu, mem_kstar_of_mem_pow hv⟩

theorem starts_kstar_subset : starts l∗ ⊆ starts l := by
  rintro a ⟨w, hw⟩
  obtain ⟨u, v, -, hu, -⟩ := exists_of_cons_mem_kstar hw
  exact ⟨u, hu⟩

theorem letters_kstar_subset : letters l∗ ⊆ letters l := by
  rintro a ⟨w, hw, ha⟩
  obtain ⟨ws, rfl, hws⟩ := Language.mem_kstar.1 hw
  obtain ⟨u, hu, ha⟩ := List.mem_flatten.1 ha
  exact ⟨u, hws u hu, ha⟩

/-! ### Bounds -/

theorem Occurs.Valid.exists_allows_succ (ho : o.Valid) (hmax : o.never = false) :
    ∃ k, o.Allows (k + 1) := by
  refine ⟨o.min - 1, by omega, fun max hmem => ?_⟩
  have := ho max hmem
  have : max ≠ 0 := fun h => by simp [Occurs.never, Option.mem_def.1 hmem, h] at hmax
  omega

theorem Occurs.Valid.within_one (ho : o.Valid) (hmax : o.never = false) : o.Within 1 := by
  obtain ⟨k, hk⟩ := ho.exists_allows_succ hmax
  exact Occurs.Within.mono hk.2 (Nat.le_add_left 1 k)

theorem Occurs.Valid.exists_allows_of_multiple (ho : o.Valid) (hmax : o.multiple = true) :
    ∃ k, o.Allows (k + 2) := by
  refine ⟨o.min - 2, by omega, fun max hmem => ?_⟩
  have := ho max hmem
  have : max ≠ 0 ∧ max ≠ 1 := by simpa [Occurs.multiple, Option.mem_def.1 hmem] using hmax
  omega

namespace Occurs

theorem words_le_kstar : o.words l ≤ l∗ := fun _ ⟨_, _, hw⟩ => mem_kstar_of_mem_pow hw

theorem Allows.le_one {k : Nat} (h : o.Allows k) (ho : o.multiple = false) : k ≤ 1 := by
  have hmax : o.max = some 0 ∨ o.max = some 1 := by
    by_contra hne
    rw [not_or] at hne
    simp [multiple, hne] at ho
  rcases hmax with hmax | hmax
  · exact (h.2 0 hmax).trans (Nat.zero_le 1)
  · exact h.2 1 hmax

/-- Words that cannot be repeated are there once or not at all. -/
theorem words_le_one_add (ho : o.multiple = false) : o.words l ≤ 1 + l := by
  rintro w ⟨k, hk, hw⟩
  obtain rfl | rfl := Nat.le_one_iff_eq_zero_or_eq_one.1 (hk.le_one ho)
  · exact Or.inl hw
  · exact Or.inr (pow_one l ▸ hw)

end Occurs

section Words

variable (ho : o.Valid) (hmax : o.never = false) (hl : ∃ w, w ∈ l)

include ho hmax hl

theorem starts_words : starts (o.words l) = starts l := by
  refine ((starts_mono Occurs.words_le_kstar).trans starts_kstar_subset).antisymm ?_
  obtain ⟨k, hk⟩ := ho.exists_allows_succ hmax
  obtain ⟨w, hw⟩ := exists_mem_pow hl k
  rintro a ⟨v, hv⟩
  exact ⟨v ++ w, k + 1, hk, pow_succ' l k ▸ Language.append_mem_mul hv hw⟩

theorem goesOn_subset_goesOn_words : goesOn l ⊆ goesOn (o.words l) := by
  obtain ⟨k, hk⟩ := ho.exists_allows_succ hmax
  obtain ⟨w, hw⟩ := exists_mem_pow hl k
  have hlast : ∀ u ∈ l, w ++ u ∈ o.words l := fun u hu =>
    ⟨k + 1, hk, pow_succ l k ▸ Language.append_mem_mul hw hu⟩
  rintro a ⟨u, hu, v, hv⟩
  exact ⟨w ++ u, hlast u hu, v, List.append_assoc w u _ ▸ hlast _ hv⟩

theorem Separate.of_words (h : Separate R (o.words l)) : Separate R l := by
  obtain ⟨k, hk⟩ := ho.exists_allows_succ hmax
  have hpow : l ^ (k + 1) ≤ o.words l := fun w hw => ⟨k + 1, hk, hw⟩
  rw [pow_succ] at hpow
  exact (h.mono hpow).of_mul_right (exists_mem_pow hl k)

omit hmax in
/-- Where words may be repeated, what a word goes on with must not contest what the next one begins
with. -/
theorem Separate.apart_of_words (h : Separate R (o.words l)) (hmultiple : o.multiple = true) :
    Apart R (goesOn l) (SchemaAssist.starts l) := by
  obtain ⟨k, hk⟩ := ho.exists_allows_of_multiple hmultiple
  have hpow : l ^ k * (l * l) ≤ o.words l := fun w hw => ⟨k + 2, hk, by rwa [pow_add, pow_two]⟩
  exact ((h.mono hpow).of_mul_right (exists_mem_pow hl k)).apart_of_mul hl

end Words

end SchemaAssist
