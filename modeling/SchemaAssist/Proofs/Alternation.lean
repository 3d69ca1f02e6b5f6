/-
# Repeating a concatenation

A word of `(l * m)∗` falls into stretches of letters of `l` and of `m` in turn, if the two have no
letters in common (`alternates_of_mem_kstar`).  A stretch is one word, or several in a row where the
words between them may be empty (`runs`).  So what can follow a start of a word depends on the last
stretch of that start alone (`next_of_mem_kstar`).
-/

import SchemaAssist.Proofs.Repetition

namespace SchemaAssist

open Computability

variable {α : Type*} {l m : Language α} {s t : Set α}

/-- The words of `l` that may stand in a row between words of `m`: one or, where `m` may be left
out, any number of them. -/
def runs (l m : Language α) : Language α := {w | w ∈ l ∨ ([] ∈ m ∧ w ∈ l∗)}

theorem le_runs : l ≤ runs l m := fun _ hw => Or.inl hw

theorem runs_le_kstar : runs l m ≤ l∗ := by
  rintro w (hw | ⟨-, hw⟩)
  · exact (le_kstar : l ≤ l∗) hw
  · exact hw

theorem runs_le_of_nil_notMem (hm : [] ∉ m) : runs l m ≤ l := fun _ hw =>
  hw.resolve_right fun h => hm h.1

theorem letters_runs_subset : letters (runs l m) ⊆ letters l :=
  fun _ ⟨w, hw, ha⟩ => letters_kstar_subset ⟨w, runs_le_kstar hw, ha⟩

theorem starts_runs_subset : starts (runs l m) ⊆ starts l :=
  (starts_mono runs_le_kstar).trans starts_kstar_subset

/-- A word of `l` before words in a row that start where `m` has been left out. -/
theorem append_mem_runs {u v : List α} (hm : [] ∈ m) (hu : u ∈ l) (hv : v ∈ runs l m) :
    u ++ v ∈ runs l m := Or.inr ⟨hm, append_mem_kstar hu (runs_le_kstar hv)⟩

/-- Words of `l` and of `m` in turn, none of them empty and the first one of `l`. -/
inductive Alternates : Language α → Language α → List α → Prop
  | nil (l m : Language α) : Alternates l m []
  | append {l m : Language α} {p q : List α} :
      p ∈ l → p ≠ [] → Alternates m l q → Alternates l m (p ++ q)

namespace Alternates

theorem mem_starts {a : α} {w : List α} (h : Alternates l m (a :: w)) : a ∈ starts l := by
  generalize hz : a :: w = z at h
  cases h with
  | nil => cases hz
  | @append _ _ p q hp hne h =>
    cases p with
    | nil => exact absurd rfl hne
    | cons b p =>
      obtain ⟨rfl, -⟩ := List.cons.inj hz
      exact ⟨p, hp⟩

/-- Where a letter of one language follows one of the other, or none at all, a stretch begins. -/
theorem cut {z : List α} (h : Alternates l m z) (hlm : Disjoint (letters l) (letters m))
    {x v : List α} {a : α} (hz : z = x ++ a :: v) :
    (a ∈ letters l → (∀ c ∈ x.getLast?, c ∈ letters m) → Alternates l m (a :: v)) ∧
      (a ∈ letters m → (∀ c ∈ x.getLast?, c ∈ letters l) → Alternates m l (a :: v)) := by
  induction h generalizing x with
  | nil => simp at hz
  | @append l m p q hp hne h ih =>
    rcases List.append_eq_append_iff.1 hz with ⟨y, rfl, rfl⟩ | ⟨y, rfl, hy⟩
    · have hlast : ∀ c ∈ y.getLast?, c ∈ (p ++ y).getLast? := fun c hc => by
        rw [List.getLast?_append, Option.mem_def.1 hc]
        rfl
      obtain ⟨hm, hl⟩ := ih hlm.symm rfl
      exact ⟨fun ha hx => hl ha fun c hc => hx c (hlast c hc),
        fun ha hx => hm ha fun c hc => hx c (hlast c hc)⟩
    · cases y with
      | nil =>
        obtain rfl : a :: v = q := hy
        obtain ⟨hm, hl⟩ := ih hlm.symm (x := []) rfl
        exact ⟨fun ha _ => hl ha nofun, fun ha _ => hm ha nofun⟩
      | cons b y =>
        obtain ⟨rfl, rfl⟩ := List.cons.inj hy
        have ha : a ∈ letters l := ⟨_, hp, by simp⟩
        refine ⟨fun _ hx => ?_, fun ha' => absurd ha' (Set.disjoint_left.1 hlm ha)⟩
        rcases List.eq_nil_or_concat x with rfl | ⟨x, c, rfl⟩
        · exact .append hp hne h
        · have hc : c ∈ letters m := hx c (by simp)
          exact absurd hc (Set.disjoint_left.1 hlm ⟨_, hp, by simp⟩)

/-- What follows letters of the first language goes on with them or begins the next stretch. -/
theorem next {y v : List α} {a : α} (h : Alternates l m (y ++ a :: v))
    (hlm : Disjoint (letters l) (letters m)) (hne : y ≠ []) (hy : ∀ c ∈ y, c ∈ letters l) :
    (∃ v₁, y ++ a :: v₁ ∈ l) ∨ (y ∈ l ∧ a ∈ starts m) := by
  generalize hz : y ++ a :: v = z at h
  cases h with
  | nil => simp at hz
  | @append _ _ p q hp hp' h =>
    rcases List.append_eq_append_iff.1 hz with ⟨x, rfl, hx⟩ | ⟨x, rfl, rfl⟩
    · cases x with
      | nil =>
        obtain rfl : a :: v = q := hx
        exact Or.inr ⟨by simpa using hp, h.mem_starts⟩
      | cons b x =>
        obtain ⟨rfl, -⟩ := List.cons.inj hx
        exact Or.inl ⟨x, hp⟩
    · cases x with
      | nil => exact Or.inr ⟨by simpa using hp, h.mem_starts⟩
      | cons c x =>
        have hc : c ∈ letters m := starts_subset_letters h.mem_starts
        exact absurd hc (Set.disjoint_left.1 hlm (hy c (by simp)))

/-- A word of letters of the first language is a single stretch. -/
theorem mem_of_letters {y : List α} (h : Alternates l m y)
    (hlm : Disjoint (letters l) (letters m)) (hne : y ≠ []) (hy : ∀ c ∈ y, c ∈ letters l) :
    y ∈ l := by
  cases h with
  | nil => exact absurd rfl hne
  | @append _ _ p q hp _ h =>
    cases q with
    | nil => rwa [List.append_nil]
    | cons c q =>
      have hc : c ∈ letters m := starts_subset_letters h.mem_starts
      exact absurd hc (Set.disjoint_left.1 hlm (hy c (by simp)))

/-- A word of `l` may be put before stretches; where the first one is of `l` too, the two make one
of it. -/
theorem prepend {x w : List α} (hx : x ∈ l)
    (h : Alternates (runs l m) (runs m l) w ∨ Alternates (runs m l) (runs l m) w)
    (hm : ∀ a v, w = a :: v → a ∈ letters l → [] ∈ m) :
    Alternates (runs l m) (runs m l) (x ++ w) ∨ Alternates (runs m l) (runs l m) (x ++ w) := by
  by_cases hne : x = []
  · rwa [hne, List.nil_append]
  left
  rcases h with h | h
  · cases h with
    | nil => exact .append (le_runs hx) hne (.nil _ _)
    | @append _ _ p q hp hp' h =>
      obtain ⟨a, v, rfl⟩ := List.exists_cons_of_ne_nil hp'
      have hnil := hm a (v ++ q) rfl (letters_runs_subset ⟨_, hp, List.mem_cons_self⟩)
      rw [← List.append_assoc]
      exact .append (append_mem_runs hnil hx hp) (by simp) h
  · exact .append (le_runs hx) hne h

end Alternates

/-- `y` is the last stretch of `u`: it is of letters of `s` and comes after one of `t` or is all. -/
def Trails (s t : Set α) (u y : List α) : Prop :=
  ∃ x, u = x ++ y ∧ y ≠ [] ∧ (∀ c ∈ y, c ∈ s) ∧ ∀ c ∈ x.getLast?, c ∈ t

/-- A word that is not empty has a last stretch. -/
theorem exists_trails {u : List α} (hu : ∀ c ∈ u, c ∈ s ∨ c ∈ t) :
    u = [] ∨ ∃ y, Trails s t u y ∨ Trails t s u y := by
  induction u using List.reverseRecOn with
  | nil => exact Or.inl rfl
  | append_singleton u a ih =>
    refine Or.inr ?_
    -- a stretch of the same letters grows, one of the others ends
    have hgrow : ∀ {s t : Set α} {y : List α}, a ∈ s → Trails s t u y →
        Trails s t (u ++ [a]) (y ++ [a]) := by
      rintro s t y ha ⟨x, rfl, hne, hy, hx⟩
      refine ⟨x, by simp, by simp, fun c hc => ?_, hx⟩
      rcases List.mem_append.1 hc with hc | hc
      · exact hy c hc
      · exact List.mem_singleton.1 hc ▸ ha
    have hturn : ∀ {s t : Set α} {y : List α}, a ∈ t → Trails s t u y →
        Trails t s (u ++ [a]) [a] := by
      rintro s t y ha ⟨x, rfl, hne, hy, hx⟩
      refine ⟨x ++ y, rfl, by simp, fun c hc => List.mem_singleton.1 hc ▸ ha, fun c hc => ?_⟩
      rw [List.getLast?_append_of_ne_nil x hne] at hc
      exact hy c (List.mem_of_mem_getLast? hc)
    have hu' : ∀ c ∈ u, c ∈ s ∨ c ∈ t := fun c hc => hu c (List.mem_append_left _ hc)
    rcases ih hu' with rfl | ⟨y, h | h⟩ <;> rcases hu a (by simp) with ha | ha
    · exact ⟨[a], Or.inl ⟨[], rfl, by simp, by simpa using ha, nofun⟩⟩
    · exact ⟨[a], Or.inr ⟨[], rfl, by simp, by simpa using ha, nofun⟩⟩
    · exact ⟨_, Or.inl (hgrow ha h)⟩
    · exact ⟨_, Or.inr (hturn ha h)⟩
    · exact ⟨_, Or.inl (hturn ha h)⟩
    · exact ⟨_, Or.inr (hgrow ha h)⟩

theorem Trails.mono {s' t' : Set α} {u y : List α} (h : Trails s t u y) (hs : s ⊆ s')
    (ht : t ⊆ t') : Trails s' t' u y := by
  obtain ⟨x, hu, hne, hy, hx⟩ := h
  exact ⟨x, hu, hne, fun c hc => hs (hy c hc), fun c hc => ht (hx c hc)⟩

/-- The last stretch of a start of a word and what follows it are stretches in turn. -/
theorem Alternates.of_trails {u y v : List α}
    (h : Alternates l m (u ++ v) ∨ Alternates m l (u ++ v))
    (hlm : Disjoint (letters l) (letters m)) (hy : Trails (letters l) (letters m) u y) :
    Alternates l m (y ++ v) := by
  obtain ⟨x, rfl, hne, hy, hx⟩ := hy
  obtain ⟨c, y, rfl⟩ := List.exists_cons_of_ne_nil hne
  have hc := hy c List.mem_cons_self
  have hcut : x ++ c :: y ++ v = x ++ c :: (y ++ v) := by simp
  rcases h with h | h
  · exact (h.cut hlm hcut).1 hc hx
  · exact (h.cut hlm.symm hcut).2 hc hx

section Star

variable (hlm : Disjoint (letters l) (letters m))

include hlm

/-- A word of a concatenation that begins with a letter of the second part leaves out the first. -/
theorem nil_mem_of_cons_mem_kstar {a : α} {w : List α} (h : a :: w ∈ (l * m)∗)
    (ha : a ∈ letters m) : [] ∈ l := by
  obtain ⟨u, v, -, hu, -⟩ := exists_of_cons_mem_kstar h
  rcases cons_mem_mul.1 hu with ⟨u, v, -, hu, -⟩ | ⟨hl, -⟩
  · exact absurd ha (Set.disjoint_left.1 hlm ⟨_, hu, List.mem_cons_self⟩)
  · exact hl

/-- A word of a concatenation that ends with a letter of the first part leaves out the second. -/
theorem nil_mem_of_concat_mem_kstar {a : α} {w : List α} (h : w ++ [a] ∈ (l * m)∗)
    (ha : a ∈ letters l) : [] ∈ m := by
  rw [← Language.reverse_mem_reverse, Language.reverse_kstar, Language.reverse_mul,
    List.reverse_append, List.reverse_singleton] at h
  have hdisjoint : Disjoint (letters m.reverse) (letters l.reverse) := by
    refine Set.disjoint_left.2 fun c ⟨u, hu, hc⟩ ⟨v, hv, hc'⟩ => ?_
    exact Set.disjoint_left.1 hlm ⟨_, hv, List.mem_reverse.2 hc'⟩ ⟨_, hu, List.mem_reverse.2 hc⟩
  obtain ⟨u, hu, ha⟩ := ha
  have hnil : [] ∈ m.reverse := nil_mem_of_cons_mem_kstar hdisjoint h
    ⟨u.reverse, Language.reverse_mem_reverse.2 hu, List.mem_reverse.2 ha⟩
  exact hnil

/-- **Repetitions of a concatenation fall into stretches of its parts in turn.** -/
theorem alternates_of_mem_kstar {w : List α} (h : w ∈ (l * m)∗) :
    Alternates (runs l m) (runs m l) w ∨ Alternates (runs m l) (runs l m) w := by
  obtain ⟨ws, rfl, hws⟩ := Language.mem_kstar.1 h
  clear h
  induction ws with
  | nil => exact Or.inl (.nil _ _)
  | cons w ws ih =>
    rw [List.forall_mem_cons] at hws
    obtain ⟨x, hx, y, hy, rfl⟩ := Language.mem_mul.1 hws.1
    have hlater : ws.flatten ∈ (l * m)∗ := Language.join_mem_kstar hws.2
    have hafter := Alternates.prepend hy (ih hws.2).symm fun a v hw ha =>
      nil_mem_of_cons_mem_kstar hlm (hw ▸ hlater) ha
    rw [List.flatten_cons, List.append_assoc]
    refine Alternates.prepend hx hafter.symm fun a v hw ha => ?_
    cases y with
    | nil => exact hy
    | cons b y =>
      obtain ⟨rfl, -⟩ := List.cons.inj hw
      exact absurd ⟨_, hy, List.mem_cons_self⟩ (Set.disjoint_left.1 hlm ha)

theorem alternates_of_trails {u y v : List α} (h : u ++ v ∈ (l * m)∗) :
    (Trails (letters l) (letters m) u y → Alternates (runs l m) (runs m l) (y ++ v)) ∧
      (Trails (letters m) (letters l) u y → Alternates (runs m l) (runs l m) (y ++ v)) := by
  have halternates := alternates_of_mem_kstar hlm h
  have hruns : Disjoint (letters (runs l m)) (letters (runs m l)) :=
    hlm.mono letters_runs_subset letters_runs_subset
  constructor
  · exact fun hy => .of_trails halternates hruns
      (hy.mono (letters_mono le_runs) (letters_mono le_runs))
  · exact fun hy => .of_trails halternates.symm hruns.symm
      (hy.mono (letters_mono le_runs) (letters_mono le_runs))

/-- After a last stretch of the one part, runs go on with it or begin the other part. -/
theorem next_of_alternates {u y v : List α} {a : α}
    (h : Alternates (runs l m) (runs m l) (y ++ a :: v))
    (hy : Trails (letters l) (letters m) u y) :
    (∃ v₁, y ++ a :: v₁ ∈ runs l m) ∨ (y ∈ runs l m ∧ a ∈ starts m) := by
  have hruns := hlm.mono (letters_runs_subset (m := m)) (letters_runs_subset (m := l))
  obtain ⟨x, rfl, hne, hy, -⟩ := hy
  refine (h.next hruns hne fun c hc => letters_mono le_runs (hy c hc)).imp_right ?_
  exact fun ⟨hy, ha⟩ => ⟨hy, starts_runs_subset ha⟩

/-- After a last stretch of a part, repetitions of a concatenation go on with it or begin the other
part. -/
theorem next_of_mem_kstar {u y v : List α} {a : α} (h : u ++ a :: v ∈ (l * m)∗) :
    (Trails (letters l) (letters m) u y →
      (∃ v₁, y ++ a :: v₁ ∈ runs l m) ∨ (y ∈ runs l m ∧ a ∈ starts m)) ∧
    (Trails (letters m) (letters l) u y →
      (∃ v₁, y ++ a :: v₁ ∈ runs m l) ∨ (y ∈ runs m l ∧ a ∈ starts l)) := by
  obtain ⟨hfirst, hsecond⟩ := alternates_of_trails hlm h (y := y)
  exact ⟨fun hy => next_of_alternates hlm (hfirst hy) hy,
    fun hy => next_of_alternates hlm.symm (hsecond hy) hy⟩

/-- The last stretch of repetitions of a concatenation is whole; if it is of the first part, the
second one may be left out. -/
theorem mem_runs_of_mem_kstar {u y : List α} (h : u ∈ (l * m)∗) :
    (Trails (letters l) (letters m) u y → y ∈ runs l m ∧ [] ∈ m) ∧
      (Trails (letters m) (letters l) u y → y ∈ runs m l) := by
  have hruns : Disjoint (letters (runs l m)) (letters (runs m l)) :=
    hlm.mono letters_runs_subset letters_runs_subset
  have hend : u ++ [] ∈ (l * m)∗ := by rwa [List.append_nil]
  have halternates := alternates_of_trails hlm hend (y := y)
  rw [List.append_nil] at halternates
  constructor
  · intro hy
    have hmem := halternates.1 hy
    obtain ⟨x, rfl, hne, hy, -⟩ := hy
    refine ⟨hmem.mem_of_letters hruns hne fun c hc => letters_mono le_runs (hy c hc), ?_⟩
    obtain rfl | ⟨y, a, rfl⟩ := List.eq_nil_or_concat y
    · exact absurd rfl hne
    · rw [List.concat_eq_append, ← List.append_assoc] at h
      exact nil_mem_of_concat_mem_kstar hlm h (hy a (by simp))
  · intro hy
    have hmem := halternates.2 hy
    obtain ⟨x, rfl, hne, hy, -⟩ := hy
    exact hmem.mem_of_letters hruns.symm hne fun c hc => letters_mono le_runs (hy c hc)

end Star

end SchemaAssist
