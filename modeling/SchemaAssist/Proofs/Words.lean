/-
# Words of a content

What a content model admits is a set of words.  Beside union, concatenation and powers, which
languages have already, model groups need the interleaving of two languages (`shuffle`), a bounded
number of consecutive words (`Occurs.words`) and, for each compositor, the words that it makes of
those of its particles (`Compositor.combine`).
-/

import Mathlib
import SchemaAssist.ModelGroup

namespace SchemaAssist

variable {α β : Type*}

/-- `w` consists of the letters of `u` and of `v`, each in their order. -/
inductive Merge : List α → List α → List α → Prop
  | nil : Merge [] [] []
  | left (a : α) {u v w : List α} : Merge u v w → Merge (a :: u) v (a :: w)
  | right (a : α) {u v w : List α} : Merge u v w → Merge u (a :: v) (a :: w)

namespace Merge

theorem self_nil : ∀ u : List α, Merge u [] u
  | [] => nil
  | a :: u => left a (self_nil u)

theorem nil_self : ∀ v : List α, Merge [] v v
  | [] => nil
  | a :: v => right a (nil_self v)

theorem append_left {u v w : List α} (x : List α) (h : Merge u v w) :
    Merge (x ++ u) v (x ++ w) := by
  induction x with
  | nil => exact h
  | cons a x ih => exact left a ih

theorem append_right {u v w : List α} (x : List α) (h : Merge u v w) :
    Merge u (x ++ v) (x ++ w) := by
  induction x with
  | nil => exact h
  | cons a x ih => exact right a ih

theorem symm {u v w : List α} (h : Merge u v w) : Merge v u w := by
  induction h with
  | nil => exact nil
  | left a _ ih => exact right a ih
  | right a _ ih => exact left a ih

theorem eq_nil {u v : List α} (h : Merge u v []) : u = [] ∧ v = [] := by
  cases h
  exact ⟨rfl, rfl⟩

/-- The letters of a merge are those of its parts. -/
theorem mem_iff {u v w : List α} (h : Merge u v w) {a : α} : a ∈ w ↔ a ∈ u ∨ a ∈ v := by
  induction h with
  | nil => simp
  | left b _ ih => simp only [List.mem_cons, ih, or_assoc]
  | right b _ ih => simp only [List.mem_cons, ih, or_left_comm]

/-- Merges of parts, one after the other, are a merge. -/
theorem append {u v w u' v' w' : List α} (h : Merge u v w) (h' : Merge u' v' w') :
    Merge (u ++ u') (v ++ v') (w ++ w') := by
  induction h with
  | nil => exact h'
  | left a _ ih => exact left a ih
  | right a _ ih => exact right a ih

/-- A split of a merge splits its parts. -/
theorem exists_of_append {x y : List α} : ∀ {u v : List α}, Merge u v (x ++ y) →
    ∃ u₁ u₂ v₁ v₂, u = u₁ ++ u₂ ∧ v = v₁ ++ v₂ ∧ Merge u₁ v₁ x ∧ Merge u₂ v₂ y := by
  induction x with
  | nil => exact fun {u v} h => ⟨[], u, [], v, rfl, rfl, nil, h⟩
  | cons a x ih =>
    intro u v h
    cases h with
    | left _ h =>
      obtain ⟨u₁, u₂, v₁, v₂, rfl, rfl, h₁, h₂⟩ := ih h
      exact ⟨a :: u₁, u₂, v₁, v₂, rfl, rfl, left a h₁, h₂⟩
    | right _ h =>
      obtain ⟨u₁, u₂, v₁, v₂, rfl, rfl, h₁, h₂⟩ := ih h
      exact ⟨u₁, u₂, a :: v₁, v₂, rfl, rfl, right a h₁, h₂⟩

/-- Renaming letters keeps merges. -/
theorem map (f : α → β) {u v w : List α} (h : Merge u v w) :
    Merge (u.map f) (v.map f) (w.map f) := by
  induction h with
  | nil => exact nil
  | left a _ ih => exact left (f a) ih
  | right a _ ih => exact right (f a) ih

/-- A merge of renamed parts is a renamed merge. -/
theorem exists_of_map (f : α → β) {w' : List β} : ∀ {u v : List α},
    Merge (u.map f) (v.map f) w' → ∃ w, Merge u v w ∧ w.map f = w' := by
  induction w' with
  | nil =>
    intro u v h
    obtain ⟨hu, hv⟩ := h.eq_nil
    rw [List.map_eq_nil_iff.1 hu, List.map_eq_nil_iff.1 hv]
    exact ⟨[], nil, rfl⟩
  | cons b w' ih =>
    intro u v h
    generalize hu : u.map f = u' at h
    generalize hv : v.map f = v' at h
    cases h with
    | left _ h =>
      obtain ⟨a, u, rfl, rfl, rfl⟩ := List.map_eq_cons_iff.1 hu
      obtain ⟨w, hw, rfl⟩ := ih (hv ▸ h)
      exact ⟨a :: w, left a hw, rfl⟩
    | right _ h =>
      obtain ⟨a, v, rfl, rfl, rfl⟩ := List.map_eq_cons_iff.1 hv
      obtain ⟨w, hw, rfl⟩ := ih (hu ▸ h)
      exact ⟨a :: w, right a hw, rfl⟩

end Merge

/-- The words merged from one word of `l` and one of `m`. -/
def shuffle (l m : Language α) : Language α := {w | ∃ u ∈ l, ∃ v ∈ m, Merge u v w}

theorem append_mem_shuffle {l m : Language α} {u v : List α} (hu : u ∈ l) (hv : v ∈ m) :
    u ++ v ∈ shuffle l m :=
  ⟨u, hu, v, hv, by simpa using (Merge.nil_self v).append_left u⟩

theorem append_mem_shuffle' {l m : Language α} {u v : List α} (hu : u ∈ l) (hv : v ∈ m) :
    v ++ u ∈ shuffle l m :=
  ⟨u, hu, v, hv, by simpa using (Merge.self_nil u).append_right v⟩

theorem shuffle_comm (l m : Language α) : shuffle l m = shuffle m l := by
  ext w
  exact ⟨fun ⟨u, hu, v, hv, h⟩ => ⟨v, hv, u, hu, h.symm⟩,
    fun ⟨u, hu, v, hv, h⟩ => ⟨v, hv, u, hu, h.symm⟩⟩

theorem nil_mem_shuffle {l m : Language α} : [] ∈ shuffle l m ↔ [] ∈ l ∧ [] ∈ m := by
  constructor
  · rintro ⟨u, hu, v, hv, h⟩
    obtain ⟨rfl, rfl⟩ := h.eq_nil
    exact ⟨hu, hv⟩
  · exact fun h => ⟨[], h.1, [], h.2, .nil⟩

/-- A word of an interleaving starts in one of the two. -/
theorem cons_mem_shuffle {l m : Language α} {a : α} {w : List α} :
    a :: w ∈ shuffle l m ↔ (∃ u v, Merge u v w ∧ a :: u ∈ l ∧ v ∈ m) ∨
      ∃ u v, Merge u v w ∧ u ∈ l ∧ a :: v ∈ m := by
  constructor
  · rintro ⟨u, hu, v, hv, h⟩
    cases h with
    | left _ h => exact Or.inl ⟨_, _, h, hu, hv⟩
    | right _ h => exact Or.inr ⟨_, _, h, hu, hv⟩
  · rintro (⟨u, v, h, hu, hv⟩ | ⟨u, v, h, hu, hv⟩)
    · exact ⟨_, hu, v, hv, .left a h⟩
    · exact ⟨u, hu, _, hv, .right a h⟩

theorem map_shuffle (f : α → β) (l m : Language α) :
    (shuffle l m).map f = shuffle (l.map f) (m.map f) := by
  ext w
  constructor
  · rintro ⟨w, ⟨u, hu, v, hv, h⟩, rfl⟩
    exact ⟨_, ⟨u, hu, rfl⟩, _, ⟨v, hv, rfl⟩, h.map f⟩
  · rintro ⟨_, ⟨u, hu, rfl⟩, _, ⟨v, hv, rfl⟩, h⟩
    obtain ⟨w, hw, rfl⟩ := h.exists_of_map f
    exact ⟨w, ⟨u, hu, v, hv, hw⟩, rfl⟩

theorem nil_mem_mul {l m : Language α} : [] ∈ l * m ↔ [] ∈ l ∧ [] ∈ m := by
  rw [Language.mem_mul]
  constructor
  · rintro ⟨u, hu, v, hv, h⟩
    obtain ⟨rfl, rfl⟩ := List.append_eq_nil_iff.1 h
    exact ⟨hu, hv⟩
  · exact fun h => ⟨[], h.1, [], h.2, rfl⟩

theorem mem_mul_of_nil_mem {l m : Language α} {w : List α} (h : [] ∈ l) (hw : w ∈ m) : w ∈ l * m :=
  Language.mem_mul.2 ⟨[], h, w, hw, rfl⟩

/-- A word of a concatenation starts in the first part, or that one is empty. -/
theorem cons_mem_mul {l m : Language α} {a : α} {w : List α} :
    a :: w ∈ l * m ↔
      (∃ u v, w = u ++ v ∧ a :: u ∈ l ∧ v ∈ m) ∨ ([] ∈ l ∧ a :: w ∈ m) := by
  rw [Language.mem_mul]
  constructor
  · rintro ⟨u, hu, v, hv, h⟩
    cases u with
    | nil => exact Or.inr ⟨hu, h ▸ hv⟩
    | cons b u =>
      obtain ⟨rfl, rfl⟩ := List.cons.inj h
      exact Or.inl ⟨u, v, rfl, hu, hv⟩
  · rintro (⟨u, v, rfl, hu, hv⟩ | ⟨hl, hm⟩)
    · exact ⟨a :: u, hu, v, hv, rfl⟩
    · exact ⟨[], hl, a :: w, hm, rfl⟩

theorem nil_mem_pow {l : Language α} {k : Nat} : [] ∈ l ^ k ↔ k = 0 ∨ [] ∈ l := by
  induction k with
  | zero => exact ⟨fun _ => Or.inl rfl, fun _ => Language.nil_mem_one⟩
  | succ k ih =>
    rw [pow_succ', nil_mem_mul, ih]
    exact ⟨fun h => Or.inr h.1, fun h => ⟨h.resolve_left k.succ_ne_zero, h.imp_left nofun⟩⟩

/-- Empty words pad a power. -/
theorem pow_mono_of_nil_mem {l : Language α} (h : [] ∈ l) {j k : Nat} (hjk : j ≤ k) {w : List α}
    (hw : w ∈ l ^ j) : w ∈ l ^ k := by
  obtain ⟨d, rfl⟩ := Nat.exists_eq_add_of_le hjk
  rw [pow_add]
  exact List.append_nil w ▸ Language.append_mem_mul hw (nil_mem_pow.2 (Or.inr h))

/-- The first letter of a power is the first letter of its first word that is not empty; the empty
ones may as well come last. -/
theorem exists_of_cons_mem_pow {l : Language α} {k : Nat} {a : α} {w : List α}
    (h : a :: w ∈ l ^ k) : ∃ j u v, k = j + 1 ∧ w = u ++ v ∧ a :: u ∈ l ∧ v ∈ l ^ j := by
  induction k with
  | zero => cases h
  | succ k ih =>
    rw [pow_succ', cons_mem_mul] at h
    rcases h with ⟨u, v, rfl, hu, hv⟩ | ⟨hl, hw⟩
    · exact ⟨k, u, v, rfl, rfl, hu, hv⟩
    · obtain ⟨j, u, v, rfl, rfl, hu, hv⟩ := ih hw
      exact ⟨j + 1, u, v, rfl, rfl, hu, pow_mono_of_nil_mem hl j.le_succ hv⟩

theorem exists_mem_pow {l : Language α} (hl : ∃ w, w ∈ l) (k : Nat) : ∃ w, w ∈ l ^ k := by
  obtain ⟨w, hw⟩ := hl
  induction k with
  | zero => exact ⟨[], Language.nil_mem_one⟩
  | succ k ih =>
    obtain ⟨v, hv⟩ := ih
    exact ⟨w ++ v, pow_succ' l k ▸ Language.append_mem_mul hw hv⟩

namespace Occurs

variable {o : Occurs} {l m : Language α}

instance (o : Occurs) : Decidable o.Valid :=
  inferInstanceAs (Decidable (∀ max ∈ o.max, o.min ≤ max))

instance (o : Occurs) (count : Nat) : Decidable (o.Allows count) :=
  inferInstanceAs (Decidable (o.min ≤ count ∧ ∀ max ∈ o.max, count ≤ max))

/-- `count` does not exceed the upper bound. -/
def Within (o : Occurs) (count : Nat) : Prop := ∀ max ∈ o.max, count ≤ max

theorem full_eq_false_iff {count : Nat} : o.full count = false ↔ o.Within (count + 1) := by
  cases o with
  | mk min max =>
    cases max with
    | none => simp [full, Within]
    | some max => simp [full, Within]

theorem Within.mono {j k : Nat} (h : o.Within k) (hjk : j ≤ k) : o.Within j :=
  fun max hmax => hjk.trans (h max hmax)

/-- Bounds in order allow some count from any count within them on. -/
theorem Valid.allows_max {count : Nat} (ho : o.Valid) (h : o.Within count) :
    o.Allows (count + (o.min - count)) := by
  refine ⟨by omega, fun max hmax => ?_⟩
  have h₁ := ho max hmax
  have h₂ := h max hmax
  omega

/-- The words that may follow where `count` words have gone before: as many words of `l` as the
bounds still allow. -/
def further (o : Occurs) (count : Nat) (l : Language α) : Language α :=
  {w | ∃ k, o.Allows (count + k) ∧ w ∈ l ^ k}

/-- An allowed number of consecutive words of `l`. -/
def words (o : Occurs) (l : Language α) : Language α := {w | ∃ k, o.Allows k ∧ w ∈ l ^ k}

theorem mem_words {w : List α} : w ∈ o.words l ↔ ∃ k, o.Allows k ∧ w ∈ l ^ k := Iff.rfl

theorem nil_mem_words_of_allows (ho : o.Allows 0) : [] ∈ o.words l := ⟨0, ho, Language.nil_mem_one⟩

theorem mem_words_of_allows_one {w : List α} (ho : o.Allows 1) (hw : w ∈ l) : w ∈ o.words l :=
  ⟨1, ho, (pow_one l).symm ▸ hw⟩

theorem append_mem_words_of_allows_two {u v : List α} (ho : o.Allows 2) (hu : u ∈ l) (hv : v ∈ l) :
    u ++ v ∈ o.words l := ⟨2, ho, pow_two l ▸ Language.append_mem_mul hu hv⟩

theorem map_words (f : α → β) : (o.words l).map f = o.words (l.map f) := by
  ext w
  constructor
  · rintro ⟨w, ⟨k, hk, hw⟩, rfl⟩
    exact ⟨k, hk, by rw [← map_pow]; exact ⟨w, hw, rfl⟩⟩
  · rintro ⟨k, hk, hw⟩
    rw [← map_pow] at hw
    obtain ⟨w, hw, rfl⟩ := hw
    exact ⟨w, ⟨k, hk, hw⟩, rfl⟩

theorem mem_further {count : Nat} {w : List α} :
    w ∈ o.further count l ↔ ∃ k, o.Allows (count + k) ∧ w ∈ l ^ k := Iff.rfl

@[simp] theorem further_zero : o.further 0 l = o.words l := by
  ext w
  simp only [mem_further, mem_words, Nat.zero_add]

/-- One more word leaves room for fewer further ones. -/
theorem append_mem_further {count : Nat} {u v : List α} (hu : u ∈ l)
    (hv : v ∈ o.further (count + 1) l) : u ++ v ∈ o.further count l := by
  obtain ⟨k, hk, hv⟩ := hv
  refine ⟨k + 1, by rwa [show count + (k + 1) = count + 1 + k by omega], ?_⟩
  rw [pow_succ']
  exact Language.append_mem_mul hu hv

/-- A further word that is not empty starts with a word of `l`. -/
theorem exists_of_cons_mem_further {count : Nat} {a : α} {w : List α}
    (h : a :: w ∈ o.further count l) :
    o.full count = false ∧ ∃ u v, w = u ++ v ∧ a :: u ∈ l ∧ v ∈ o.further (count + 1) l := by
  obtain ⟨k, hk, h⟩ := h
  obtain ⟨j, u, v, rfl, rfl, hu, hv⟩ := exists_of_cons_mem_pow h
  refine ⟨full_eq_false_iff.2 fun max hmax => ?_, u, v, rfl, hu, j, ?_, hv⟩
  · have := hk.2 max hmax
    omega
  · rwa [show count + 1 + j = count + (j + 1) by omega]

theorem nil_mem_further {count : Nat} (ho : o.Valid) (hcount : o.Within count) :
    [] ∈ o.further count l ↔ o.min ≤ count ∨ [] ∈ l := by
  constructor
  · rintro ⟨k, hk, h⟩
    exact (nil_mem_pow.1 h).imp_left fun h₀ => by
      have := hk.1
      omega
  · rintro (h | h)
    · exact ⟨0, ⟨h, hcount⟩, Language.nil_mem_one⟩
    · exact ⟨_, ho.allows_max hcount, nil_mem_pow.2 (Or.inr h)⟩

theorem nil_mem_words (ho : o.Valid) : [] ∈ o.words l ↔ o.min = 0 ∨ [] ∈ l := by
  rw [← further_zero, nil_mem_further ho fun _ _ => Nat.zero_le _, Nat.le_zero]

theorem nonempty_further {count : Nat} (ho : o.Valid) (hcount : o.Within count)
    (hl : ∃ w, w ∈ l) : ∃ w, w ∈ o.further count l := by
  obtain ⟨w, hw⟩ := exists_mem_pow hl (o.min - count)
  exact ⟨w, _, ho.allows_max hcount, hw⟩

theorem nonempty_words (ho : o.Valid) (hl : ∃ w, w ∈ l) : ∃ w, w ∈ o.words l := by
  have h : ∃ w, w ∈ o.further 0 l := nonempty_further ho (fun _ _ => Nat.zero_le _) hl
  rwa [further_zero] at h

end Occurs

/-- The words that a group makes of those of its particles in one occurrence; a choice of nothing
is empty. -/
def Compositor.combine : Compositor → List (Language α) → Language α
  | sequence, ls => ls.prod
  | choice, [] => 1
  | choice, l :: ls => (l :: ls).sum
  | all, ls => ls.foldr shuffle 1

theorem Compositor.map_combine (f : α → β) (c : Compositor) (ls : List (Language α)) :
    (c.combine ls).map f = c.combine (ls.map (Language.map f)) := by
  cases c with
  | sequence => exact map_list_prod _ _
  | choice =>
    cases ls with
    | nil => exact map_one _
    | cons l ls => exact map_list_sum _ _
  | all =>
    simp only [combine]
    induction ls with
    | nil => exact map_one _
    | cons l ls ih => rw [List.foldr_cons, map_shuffle, ih]; rfl

theorem exists_mem_shuffle {l m : Language α} (hl : ∃ w, w ∈ l) (hm : ∃ w, w ∈ m) :
    ∃ w, w ∈ shuffle l m := by
  obtain ⟨u, hu⟩ := hl
  obtain ⟨v, hv⟩ := hm
  exact ⟨u ++ v, append_mem_shuffle hu hv⟩

theorem mem_sum {ls : List (Language α)} {w : List α} : w ∈ ls.sum ↔ ∃ l ∈ ls, w ∈ l := by
  induction ls with
  | nil => simp [Language.notMem_zero]
  | cons l ls ih => rw [List.sum_cons, Language.mem_add, ih, List.exists_mem_cons_iff]

theorem mem_combine_choice {ls : List (Language α)} {w : List α} :
    w ∈ Compositor.choice.combine ls ↔ (ls = [] ∧ w = []) ∨ ∃ l ∈ ls, w ∈ l := by
  cases ls with
  | nil => simp [Compositor.combine, Language.mem_one]
  | cons l ls =>
    rw [Compositor.combine, mem_sum]
    simp

theorem nil_mem_prod {ls : List (Language α)} : [] ∈ ls.prod ↔ ∀ l ∈ ls, [] ∈ l := by
  induction ls with
  | nil => simp
  | cons l ls ih => rw [List.prod_cons, nil_mem_mul, ih, List.forall_mem_cons]

theorem nil_mem_foldr_shuffle {ls : List (Language α)} :
    [] ∈ ls.foldr shuffle 1 ↔ ∀ l ∈ ls, [] ∈ l := by
  induction ls with
  | nil => simp
  | cons l ls ih => rw [List.foldr_cons, nil_mem_shuffle, ih, List.forall_mem_cons]

theorem exists_mem_prod {ls : List (Language α)} (h : ∀ l ∈ ls, ∃ w, w ∈ l) :
    ∃ w, w ∈ ls.prod := by
  induction ls with
  | nil => exact ⟨[], Language.nil_mem_one⟩
  | cons l ls ih =>
    rw [List.forall_mem_cons] at h
    obtain ⟨u, hu⟩ := h.1
    obtain ⟨v, hv⟩ := ih h.2
    rw [List.prod_cons]
    exact ⟨u ++ v, Language.append_mem_mul hu hv⟩

theorem exists_mem_foldr_shuffle {ls : List (Language α)} (h : ∀ l ∈ ls, ∃ w, w ∈ l) :
    ∃ w, w ∈ ls.foldr shuffle 1 := by
  induction ls with
  | nil => exact ⟨[], Language.nil_mem_one⟩
  | cons l ls ih =>
    rw [List.forall_mem_cons] at h
    exact exists_mem_shuffle h.1 (ih h.2)

/-- A group has a word if all its particles have. -/
theorem exists_mem_combine {c : Compositor} {ls : List (Language α)} (h : ∀ l ∈ ls, ∃ w, w ∈ l) :
    ∃ w, w ∈ c.combine ls := by
  cases c with
  | sequence => exact exists_mem_prod h
  | choice =>
    simp only [mem_combine_choice]
    cases ls with
    | nil => exact ⟨[], Or.inl ⟨rfl, rfl⟩⟩
    | cons l ls =>
      obtain ⟨w, hw⟩ := h l List.mem_cons_self
      exact ⟨w, Or.inr ⟨l, List.mem_cons_self, hw⟩⟩
  | all => exact exists_mem_foldr_shuffle h

end SchemaAssist
