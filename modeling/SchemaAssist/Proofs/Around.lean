/-
# What stands around some words

The words that can follow an occurrence somewhere inside a content model are made of other
occurrences of it and of words with other letters.  All that matters of them is what they begin
with: an occurrence that any other one can replace, or none of its letters; and that what stands
before the first other letter is made of whole occurrences (`Around`).
-/

import SchemaAssist.Proofs.Criterion

namespace SchemaAssist

open Computability

variable {α : Type*} {t l m : Language α} {o : Occurs}

/-- A word does not begin with a letter of `s`. -/
def Blank (s : Set α) (w : List α) : Prop := ∀ a v, w = a :: v → a ∉ s

namespace Blank

variable {s : Set α}

theorem nil : Blank s [] := nofun

theorem append {u : List α} (h : Blank s u) (hu : u ≠ []) (v : List α) : Blank s (u ++ v) := by
  cases u with
  | nil => exact absurd rfl hu
  | cons a u =>
    rintro b w hw
    exact (List.cons_eq_cons.1 hw).1 ▸ h a u rfl

theorem eq_nil {w : List α} (h : Blank s w) (hs : ∀ a ∈ w, a ∈ s) : w = [] := by
  cases w with
  | nil => rfl
  | cons a w => exact absurd (hs a List.mem_cons_self) (h a w rfl)

/-- The letters of `s` in front of a word are told from the others. -/
theorem append_inj {u u' v v' : List α} (hu : ∀ a ∈ u, a ∈ s) (hu' : ∀ a ∈ u', a ∈ s)
    (hv : Blank s v) (hv' : Blank s v') (h : u ++ v = u' ++ v') : u = u' := by
  induction u generalizing u' with
  | nil =>
    cases u' with
    | nil => rfl
    | cons a u' => exact absurd (hu' a List.mem_cons_self) (hv a _ h)
  | cons a u ih =>
    cases u' with
    | nil => exact absurd (hu a List.mem_cons_self) (hv' a _ h.symm)
    | cons b u' =>
      rw [List.forall_mem_cons] at hu hu'
      obtain ⟨rfl, htail⟩ := List.cons_eq_cons.1 h
      rw [ih hu.2 hu'.2 htail]

end Blank

/-- The words of `l` may follow words of `t`: they are made of words of `t` and of other letters. -/
structure Around (t l : Language α) : Prop where
  nonempty : ∃ w, w ∈ l
  /-- Each begins with a word of `t`, which any other one can replace, or with none of its
  letters. -/
  led : ∀ w ∈ l, Blank (letters t) w ∨
    ∃ u w', u ∈ t ∧ u ≠ [] ∧ w = u ++ w' ∧ ∀ u' ∈ t, u' ++ w' ∈ l
  /-- What stands before the first other letter is made of words of `t`. -/
  parts : ∀ w ∈ l, ∃ u v, u ∈ t∗ ∧ Blank (letters t) v ∧ w = u ++ v

namespace Around

theorem one : Around t 1 where
  nonempty := ⟨[], Language.nil_mem_one⟩
  led := by
    rintro w rfl
    exact Or.inl .nil
  parts := by
    rintro w rfl
    exact ⟨[], [], Language.nil_mem_kstar t, .nil, rfl⟩

theorem self (ht : ∃ w, w ∈ t) : Around t t where
  nonempty := ht
  led w hw := by
    by_cases hnil : w = []
    · exact Or.inl (hnil ▸ .nil)
    · exact Or.inr ⟨w, [], hw, hnil, (List.append_nil w).symm, fun u hu => by rwa [List.append_nil]⟩
  parts w hw := ⟨w, [], (le_kstar : t ≤ t∗) hw, .nil, (List.append_nil w).symm⟩

/-- Words with other letters may follow. -/
theorem of_disjoint (hl : ∃ w, w ∈ l) (h : Disjoint (letters t) (letters l)) : Around t l := by
  have hblank : ∀ w ∈ l, Blank (letters t) w := by
    rintro w hw a v rfl ha
    exact Set.disjoint_left.1 h ha ⟨_, hw, List.mem_cons_self⟩
  exact ⟨hl, fun w hw => Or.inl (hblank w hw), fun w hw =>
    ⟨[], w, Language.nil_mem_kstar t, hblank w hw, rfl⟩⟩

theorem mul (hl : Around t l) (hm : Around t m) : Around t (l * m) where
  nonempty := by
    obtain ⟨u, hu⟩ := hl.nonempty
    obtain ⟨v, hv⟩ := hm.nonempty
    exact ⟨u ++ v, Language.append_mem_mul hu hv⟩
  led w hw := by
    obtain ⟨x, hx, y, hy, rfl⟩ := Language.mem_mul.1 hw
    rcases hl.led x hx with hblank | ⟨u, x', hu, hne, rfl, hother⟩
    · by_cases hnil : x = []
      · subst hnil
        refine (hm.led y hy).imp_right ?_
        rintro ⟨u, y', hu, hne, rfl, hother⟩
        exact ⟨u, y', hu, hne, rfl, fun u' hu' => mem_mul_of_nil_mem hx (hother u' hu')⟩
      · exact Or.inl (hblank.append hnil y)
    · refine Or.inr ⟨u, x' ++ y, hu, hne, List.append_assoc .., fun u' hu' => ?_⟩
      rw [← List.append_assoc]
      exact Language.append_mem_mul (hother u' hu') hy
  parts w hw := by
    obtain ⟨x, hx, y, hy, rfl⟩ := Language.mem_mul.1 hw
    obtain ⟨u, v, hu, hv, rfl⟩ := hl.parts x hx
    by_cases hnil : v = []
    · subst hnil
      obtain ⟨u', v', hu', hv', rfl⟩ := hm.parts y hy
      refine ⟨u ++ u', v', ?_, hv', by rw [List.append_nil, List.append_assoc]⟩
      exact (kstar_mul_kstar t).le (Language.append_mem_mul hu hu')
    · exact ⟨u, v ++ y, hu, hv.append hnil y, List.append_assoc ..⟩

theorem add (hl : Around t l) (hm : Around t m) : Around t (l + m) where
  nonempty := hl.nonempty.imp fun _ hw => Or.inl hw
  led w hw := by
    rcases hw with hw | hw
    · refine (hl.led w hw).imp_right ?_
      rintro ⟨u, w', hu, hne, rfl, hother⟩
      exact ⟨u, w', hu, hne, rfl, fun u' hu' => Or.inl (hother u' hu')⟩
    · refine (hm.led w hw).imp_right ?_
      rintro ⟨u, w', hu, hne, rfl, hother⟩
      exact ⟨u, w', hu, hne, rfl, fun u' hu' => Or.inr (hother u' hu')⟩
  parts w hw := hw.elim (hl.parts w) (hm.parts w)

theorem pow (h : Around t l) (k : ℕ) : Around t (l ^ k) := by
  induction k with
  | zero =>
    rw [pow_zero]
    exact one
  | succ k ih =>
    rw [pow_succ]
    exact ih.mul h

theorem further (h : Around t l) {count : ℕ} (hne : ∃ w, w ∈ o.further count l) :
    Around t (o.further count l) where
  nonempty := hne
  led w hw := by
    obtain ⟨k, hk, hw⟩ := hw
    refine ((h.pow k).led w hw).imp_right ?_
    rintro ⟨u, w', hu, hne, rfl, hother⟩
    exact ⟨u, w', hu, hne, rfl, fun u' hu' => ⟨k, hk, hother u' hu'⟩⟩
  parts w hw := by
    obtain ⟨k, -, hw⟩ := hw
    exact (h.pow k).parts w hw

theorem words (h : Around t l) (ho : o.Valid) : Around t (o.words l) := by
  have hne := Occurs.nonempty_words ho h.nonempty
  rw [← Occurs.further_zero] at hne ⊢
  exact h.further hne

/-- A group of words that may follow may follow. -/
theorem combine {c : Compositor} (hc : c ≠ .all) {ls : List (Language α)}
    (h : ∀ l ∈ ls, Around t l) : Around t (c.combine ls) := by
  cases c with
  | sequence =>
    rw [Compositor.combine]
    induction ls with
    | nil => exact one
    | cons l ls ih =>
      rw [List.forall_mem_cons] at h
      exact h.1.mul (ih h.2)
  | choice =>
    induction ls with
    | nil => exact one
    | cons l ls ih =>
      rw [List.forall_mem_cons] at h
      cases ls with
      | nil =>
        rw [Compositor.combine, List.sum_singleton]
        exact h.1
      | cons m ls =>
        rw [Compositor.combine, List.sum_cons]
        exact h.1.add (ih h.2)
  | all => exact absurd rfl hc

end Around
end SchemaAssist
