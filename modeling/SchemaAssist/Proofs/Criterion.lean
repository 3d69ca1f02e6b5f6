/-
# When a content model is unambiguous

A model group is ambiguous if some start of a content can be followed by one name attributed to
either of two leaves.  A tree of particles is unambiguous exactly if its groups are separated, each
on its own: what one particle goes on with must not contest what may follow it
(`Compositor.KeepsApart`), and what a group goes on with must not contest what it begins with if it
may occur more than once (`Node.Separated`).  The criterion is exact for every nesting and all
bounds (`Node.separate_words_iff`).
-/

import Mathlib
import SchemaAssist.Proofs.Remainder
import SchemaAssist.Proofs.Tame

namespace SchemaAssist

section Combine

variable {α : Type*} {R : α → α → Prop} {l : Language α} {ls : List (Language α)}

/-- No letter that one particle of a group can take contests one that another can take instead. -/
def Compositor.KeepsApart (R : α → α → Prop) : Compositor → List (Language α) → Prop
  | sequence, [] => True
  | sequence, l :: ls => Apart R (goesOn l) (starts ls.prod) ∧ KeepsApart R sequence ls
  | choice, ls => ls.Pairwise fun l m => Apart R (starts l) (starts m)
  | all, ls => ls.Pairwise fun l m => Apart R (letters l) (letters m)

theorem starts_sum_subset {a : α} (ha : a ∈ starts ls.sum) : ∃ l ∈ ls, a ∈ starts l := by
  obtain ⟨v, hv⟩ := ha
  obtain ⟨l, hl, hv⟩ := mem_sum.1 hv
  exact ⟨l, hl, v, hv⟩

theorem letters_sum_subset {a : α} (ha : a ∈ letters ls.sum) : ∃ l ∈ ls, a ∈ letters l := by
  obtain ⟨w, hw, ha⟩ := ha
  obtain ⟨l, hl, hw⟩ := mem_sum.1 hw
  exact ⟨l, hl, w, hw, ha⟩

theorem letters_one_eq : letters (1 : Language α) = ∅ := by
  ext a
  refine iff_of_false ?_ (Set.notMem_empty a)
  rintro ⟨w, rfl, ha⟩
  cases ha

theorem letters_prod_subset {a : α} (ha : a ∈ letters ls.prod) : ∃ l ∈ ls, a ∈ letters l := by
  induction ls with
  | nil => simp [letters_one_eq] at ha
  | cons l ls ih =>
    rw [List.prod_cons] at ha
    rcases letters_mul_subset ha with ha | ha
    · exact ⟨l, List.mem_cons_self, ha⟩
    · obtain ⟨m, hm, ha⟩ := ih ha
      exact ⟨m, List.mem_cons_of_mem l hm, ha⟩

theorem letters_foldr_shuffle_subset {a : α} (ha : a ∈ letters (ls.foldr shuffle 1)) :
    ∃ l ∈ ls, a ∈ letters l := by
  induction ls with
  | nil => simp [letters_one_eq] at ha
  | cons l ls ih =>
    rcases letters_shuffle_subset ha with ha | ha
    · exact ⟨l, List.mem_cons_self, ha⟩
    · obtain ⟨m, hm, ha⟩ := ih ha
      exact ⟨m, List.mem_cons_of_mem l hm, ha⟩

theorem letters_subset_letters_foldr_shuffle (hls : ∀ l ∈ ls, ∃ w, w ∈ l) (hl : l ∈ ls) :
    letters l ⊆ letters (ls.foldr shuffle 1) := by
  induction ls with
  | nil => cases hl
  | cons m ls ih =>
    rw [List.forall_mem_cons] at hls
    rintro a ha
    rcases List.mem_cons.1 hl with rfl | hl
    · obtain ⟨w, hw, ha⟩ := ha
      obtain ⟨v, hv⟩ := exists_mem_foldr_shuffle hls.2
      exact ⟨w ++ v, append_mem_shuffle hw hv, List.mem_append_left v ha⟩
    · obtain ⟨w, hw, ha⟩ := ih hls.2 hl ha
      obtain ⟨v, hv⟩ := hls.1
      exact ⟨v ++ w, append_mem_shuffle hv hw, List.mem_append_right v ha⟩

/-- The letters of a group are those of its particles. -/
theorem letters_combine_subset {c : Compositor} {a : α} (ha : a ∈ letters (c.combine ls)) :
    ∃ l ∈ ls, a ∈ letters l := by
  cases c with
  | sequence => exact letters_prod_subset ha
  | choice =>
    cases ls with
    | nil => simp [Compositor.combine, letters_one_eq] at ha
    | cons l ls => exact letters_sum_subset ha
  | all => exact letters_foldr_shuffle_subset ha

/-- A language without common letters with each of several has none with a language of theirs. -/
theorem disjoint_letters_of {m : Language α} (h : ∀ m ∈ ls, Disjoint (letters l) (letters m))
    (hm : ∀ a ∈ letters m, ∃ l ∈ ls, a ∈ letters l) : Disjoint (letters l) (letters m) :=
  Set.disjoint_left.2 fun a ha ha' => by
    obtain ⟨k, hk, ha'⟩ := hm a ha'
    exact Set.disjoint_left.1 (h k hk) ha ha'

section Tame

variable (hR : ∀ a b, R a b → R b a)

include hR

theorem tame_prod (hls : ∀ l ∈ ls, Tame R l)
    (hdisjoint : ls.Pairwise fun l m => Disjoint (letters l) (letters m))
    (h : Compositor.sequence.KeepsApart R ls) : Tame R ls.prod := by
  induction ls with
  | nil => exact Tame.one
  | cons l ls ih =>
    rw [List.forall_mem_cons] at hls
    rw [List.pairwise_cons] at hdisjoint
    rw [List.prod_cons]
    exact hls.1.mul hR (ih hls.2 hdisjoint.2 h.2)
      (disjoint_letters_of hdisjoint.1 fun a => letters_prod_subset) h.1

theorem tame_sum (hne : ls ≠ []) (hls : ∀ l ∈ ls, Tame R l)
    (hdisjoint : ls.Pairwise fun l m => Disjoint (letters l) (letters m))
    (h : ls.Pairwise fun l m => Apart R (starts l) (starts m)) : Tame R ls.sum := by
  induction ls with
  | nil => exact absurd rfl hne
  | cons l ls ih =>
    rw [List.forall_mem_cons] at hls
    rw [List.pairwise_cons] at hdisjoint h
    rw [List.sum_cons]
    cases ls with
    | nil =>
      rw [List.sum_nil, add_zero]
      exact hls.1
    | cons m ls =>
      refine hls.1.add hR (ih (List.cons_ne_nil m ls) hls.2 hdisjoint.2 h.2)
        (disjoint_letters_of hdisjoint.1 fun a => letters_sum_subset) fun a ha b hb => ?_
      obtain ⟨k, hk, hb⟩ := starts_sum_subset hb
      exact h.1 k hk a ha b hb

theorem tame_foldr_shuffle (hls : ∀ l ∈ ls, Tame R l)
    (hdisjoint : ls.Pairwise fun l m => Disjoint (letters l) (letters m))
    (h : ls.Pairwise fun l m => Apart R (letters l) (letters m)) :
    Tame R (ls.foldr shuffle 1) := by
  induction ls with
  | nil => exact Tame.one
  | cons l ls ih =>
    rw [List.forall_mem_cons] at hls
    rw [List.pairwise_cons] at hdisjoint h
    refine hls.1.shuffle hR (ih hls.2 hdisjoint.2 h.2)
      (disjoint_letters_of hdisjoint.1 fun a => letters_foldr_shuffle_subset) fun a ha b hb => ?_
    obtain ⟨k, hk, hb⟩ := letters_foldr_shuffle_subset hb
    exact h.1 k hk a ha b hb

/-- A group of tame particles that it keeps apart is tame. -/
theorem tame_combine {c : Compositor} (hls : ∀ l ∈ ls, Tame R l)
    (hdisjoint : ls.Pairwise fun l m => Disjoint (letters l) (letters m))
    (h : c.KeepsApart R ls) : Tame R (c.combine ls) := by
  cases c with
  | sequence => exact tame_prod hR hls hdisjoint h
  | choice =>
    cases ls with
    | nil => exact Tame.one
    | cons l ls =>
      rw [Compositor.KeepsApart] at h
      exact tame_sum hR (List.cons_ne_nil l ls) hls hdisjoint h
  | all =>
    rw [Compositor.KeepsApart] at h
    exact tame_foldr_shuffle hR hls hdisjoint h

end Tame

theorem Separate.of_prod (hls : ∀ l ∈ ls, ∃ w, w ∈ l) (h : Separate R ls.prod) :
    (∀ l ∈ ls, Separate R l) ∧ Compositor.sequence.KeepsApart R ls := by
  induction ls with
  | nil => exact ⟨nofun, trivial⟩
  | cons l ls ih =>
    rw [List.forall_mem_cons] at hls
    rw [List.prod_cons] at h
    have hprod := exists_mem_prod hls.2
    obtain ⟨heach, happart⟩ := ih hls.2 (h.of_mul_right hls.1)
    exact ⟨List.forall_mem_cons.2 ⟨h.of_mul_left hprod, heach⟩, h.apart_of_mul hprod, happart⟩

theorem Separate.of_foldr_shuffle (hls : ∀ l ∈ ls, ∃ w, w ∈ l)
    (h : Separate R (ls.foldr shuffle 1)) :
    (∀ l ∈ ls, Separate R l) ∧ ls.Pairwise fun l m => Apart R (letters l) (letters m) := by
  induction ls with
  | nil => exact ⟨nofun, .nil⟩
  | cons l ls ih =>
    rw [List.forall_mem_cons] at hls
    rw [List.foldr_cons] at h
    have hlater := exists_mem_foldr_shuffle hls.2
    obtain ⟨heach, happart⟩ := ih hls.2 ((shuffle_comm l _ ▸ h).of_shuffle hls.1)
    refine ⟨List.forall_mem_cons.2 ⟨h.of_shuffle hlater, heach⟩, .cons (fun m hm => ?_) happart⟩
    exact h.apart_of_shuffle.mono le_rfl (letters_subset_letters_foldr_shuffle hls.2 hm)

/-- A group that keeps letters apart does so for its particles and between them. -/
theorem Separate.of_combine {c : Compositor} (hls : ∀ l ∈ ls, ∃ w, w ∈ l)
    (h : Separate R (c.combine ls)) : (∀ l ∈ ls, Separate R l) ∧ c.KeepsApart R ls := by
  cases c with
  | sequence => exact h.of_prod hls
  | choice =>
    have hle : ∀ l ∈ ls, l ≤ Compositor.choice.combine ls := fun l hl w hw =>
      mem_combine_choice.2 (Or.inr ⟨l, hl, hw⟩)
    refine ⟨fun l hl => h.mono (hle l hl), ?_⟩
    rw [Compositor.KeepsApart]
    exact List.pairwise_of_forall_mem_list fun l hl m hm =>
      h.starts.mono (starts_mono (hle l hl)) (starts_mono (hle m hm))
  | all =>
    rw [Compositor.KeepsApart]
    exact h.of_foldr_shuffle hls

end Combine

/-- Two letters contest if they attribute one name to different leaves; in the later version an
element leaf and a wildcard do not. -/
def Letter.Contests (version : Version) (a b : Letter) : Prop :=
  a.1 = b.1 ∧ a.2 ≠ b.2 ∧ (version = .v10 ∨ a.2.isWildcard = b.2.isWildcard)

/-- Some start of a content, attributed to leaves, can be followed by one name attributed to either
of two leaves; in the later version the two are both elements or both wildcards. -/
def ModelGroup.Ambiguous (accepts : ElementId → List Name) (version : Version) (g : ModelGroup) :
    Prop :=
  ∃ (u : List Letter) (name : Name) (p q : Leaf) (v v' : List Letter),
    p ≠ q ∧ (version = .v10 ∨ p.isWildcard = q.isWildcard) ∧
      u ++ (name, p) :: v ∈ g.attributions accepts ∧ u ++ (name, q) :: v' ∈ g.attributions accepts

/-- A model group is unambiguous if its attributed words keep letters apart. -/
theorem ModelGroup.unambiguous_iff {accepts : ElementId → List Name} {version : Version}
    {g : ModelGroup} :
    ¬ g.Ambiguous accepts version ↔
      Separate (Letter.Contests version) (g.attributions accepts) := by
  constructor
  · rintro h u ⟨name, p⟩ ⟨_, q⟩ v v' hp hq ⟨rfl, hne, hkind⟩
    exact h ⟨u, _, p, q, v, v', hne, hkind, hp, hq⟩
  · rintro h ⟨u, name, p, q, v, v', hne, hkind, hp, hq⟩
    exact h u _ _ v v' hp hq ⟨rfl, hne, hkind⟩

theorem Letter.Contests.symm {version : Version} (a b : Letter) (h : Contests version a b) :
    Contests version b a := ⟨h.1.symm, h.2.1.symm, h.2.2.imp_right Eq.symm⟩

namespace ContentModel
namespace Node

mutual

/-- The particles of a group are separated and kept apart, and what the group goes on with does not
contest what it begins with if it may occur more than once. -/
def Separated (version : Version) : Node → Prop
  | n@(group o c cs) => SeparatedEach version cs ∧
      c.KeepsApart (Letter.Contests version) (wordsOf cs) ∧
      (o.multiple = true →
        Apart (Letter.Contests version) (goesOn n.occurrence) (starts n.occurrence))
  | _ => True

/-- Each of several particles is separated. -/
def SeparatedEach (version : Version) : List Node → Prop
  | [] => True
  | c :: cs => Separated version c ∧ SeparatedEach version cs

end

theorem separatedEach_iff {version : Version} {cs : List Node} :
    SeparatedEach version cs ↔ ∀ m ∈ cs, m.Separated version := by
  induction cs with
  | nil => exact iff_of_true trivial nofun
  | cons c cs ih => rw [SeparatedEach, ih, List.forall_mem_cons]

theorem numbered_group {o : Occurs} {c : Compositor} {cs : List Node} :
    (group o c cs).Numbered ↔ (∀ m ∈ cs, m.Numbered) ∧
      cs.Pairwise fun m n =>
        List.Disjoint (m.symbols.map Symbol.leaf) (n.symbols.map Symbol.leaf) := by
  rw [Numbered, symbols, symbolsOf_eq, List.map_flatMap, List.nodup_flatMap]
  rfl

theorem letters_words_subset (n : Node) : letters n.words ⊆ letters n.occurrence :=
  (letters_mono Occurs.words_le_kstar).trans letters_kstar_subset

/-- The letters of a tree are read by its leaves. -/
theorem exists_reads_of_mem_letters_occurrence {n : Node} {a : Letter}
    (ha : a ∈ letters n.occurrence) : ∃ s ∈ n.symbols, s.Reads a := by
  induction n using Node.induct with
  | leaf n s hs =>
    rw [occurrence_of_leaf hs] at ha
    obtain ⟨w, ⟨b, hb, rfl⟩, ha⟩ := ha
    rw [symbols_of_leaf hs]
    exact ⟨s, List.mem_singleton_self s, List.mem_singleton.1 ha ▸ hb⟩
  | group o c cs ih =>
    rw [occurrence] at ha
    obtain ⟨l, hl, ha⟩ := letters_combine_subset ha
    rw [wordsOf_eq] at hl
    obtain ⟨m, hm, rfl⟩ := List.mem_map.1 hl
    obtain ⟨s, hs, ha⟩ := ih m hm (letters_words_subset m ha)
    refine ⟨s, ?_, ha⟩
    rw [symbols, symbolsOf_eq]
    exact List.mem_flatMap.2 ⟨m, hm, hs⟩

theorem exists_reads_of_mem_letters {n : Node} {a : Letter} (ha : a ∈ letters n.words) :
    ∃ s ∈ n.symbols, s.Reads a := exists_reads_of_mem_letters_occurrence (letters_words_subset n ha)

/-- Particles of one tree have no letters in common. -/
theorem disjoint_letters {o : Occurs} {c : Compositor} {cs : List Node}
    (h : (group o c cs).Numbered) :
    (wordsOf cs).Pairwise fun l m => Disjoint (letters l) (letters m) := by
  rw [wordsOf_eq, List.pairwise_map]
  refine (numbered_group.1 h).2.imp fun {m n} hmn => Set.disjoint_left.2 fun a ha ha' => ?_
  obtain ⟨s, hs, hread⟩ := exists_reads_of_mem_letters ha
  obtain ⟨t, ht, hread'⟩ := exists_reads_of_mem_letters ha'
  have hleaf : s.leaf = t.leaf := congrArg Leaf.number (hread.2.symm.trans hread'.2)
  exact hmn (List.mem_map_of_mem hs) (hleaf ▸ List.mem_map_of_mem ht)

/-- Particles without common letters are told apart by any letter. -/
theorem eq_of_mem_letters {cs : List Node}
    (h : (wordsOf cs).Pairwise fun l m => Disjoint (letters l) (letters m)) {m n : Node}
    (hm : m ∈ cs) (hn : n ∈ cs) {a : Letter} (ha : a ∈ letters m.words)
    (ha' : a ∈ letters n.words) : m = n := by
  by_contra hne
  rw [wordsOf_eq, List.pairwise_map] at h
  have hsymm : Std.Symm fun m n : Node => Disjoint (letters m.words) (letters n.words) :=
    ⟨fun _ _ h => h.symm⟩
  exact Set.disjoint_left.1 (h.forall hm hn hne) ha ha'

/-- A tree as compiling makes it of a model group with bounds in order whose leaves match
something. -/
structure Proper (n : Node) : Prop where
  ordered : n.Ordered
  matchable : n.Matchable
  trimmed : n.Trimmed
  numbered : n.Numbered

namespace Proper

variable {o : Occurs} {c : Compositor} {cs : List Node} {n m : Node}

theorem of_mem (h : (group o c cs).Proper) (hm : m ∈ cs) : m.Proper where
  ordered := h.ordered.of_mem hm
  matchable := h.matchable.of_mem hm
  trimmed := h.trimmed.of_mem hm
  numbered := (numbered_group.1 h.numbered).1 m hm

theorem exists_mem_occurrence (h : n.Proper) : ∃ w, w ∈ n.occurrence :=
  Node.exists_mem_occurrence h.ordered h.matchable

theorem exists_mem_words (h : n.Proper) : ∃ w, w ∈ n.words :=
  Node.exists_mem_words h.ordered h.matchable

/-- Every particle of a group has a word. -/
theorem exists_mem_of_mem_wordsOf (h : (group o c cs).Proper) : ∀ l ∈ wordsOf cs, ∃ w, w ∈ l := by
  rw [wordsOf_eq, List.forall_mem_map]
  exact fun m hm => (h.of_mem hm).exists_mem_words

end Proper

section Exact

variable {version : Version} {n : Node}

/-- Letters of one leaf do not contest. -/
theorem apart_letters_of_leaf {s : Symbol} (hs : n.symbol? = some s) :
    Apart (Letter.Contests version) (letters n.occurrence) (letters n.occurrence) := by
  rw [occurrence_of_leaf hs]
  rintro a ⟨_, ⟨a', ha, rfl⟩, ha'⟩ b ⟨_, ⟨b', hb, rfl⟩, hb'⟩ ⟨-, hne, -⟩
  obtain rfl := List.mem_singleton.1 ha'
  obtain rfl := List.mem_singleton.1 hb'
  exact hne (ha.2.trans hb.2.symm)

/-- What a separated tree goes on with does not contest what it begins with if it may occur more
than once. -/
theorem Separated.apart (h : n.Separated version) (hmultiple : n.occurs.multiple = true) :
    Apart (Letter.Contests version) (goesOn n.occurrence) (starts n.occurrence) := by
  cases n with
  | group o c cs =>
    rw [Separated] at h
    exact h.2.2 hmultiple
  | element o k d accepts =>
    exact (apart_letters_of_leaf rfl).mono goesOn_subset_letters starts_subset_letters
  | wildcard o k spaces strictness =>
    exact (apart_letters_of_leaf rfl).mono goesOn_subset_letters starts_subset_letters

/-- A group that keeps particles with tame words apart has tame words. -/
theorem tame_occurrence_group {o : Occurs} {c : Compositor} {cs : List Node}
    (hn : (group o c cs).Proper) (hcs : ∀ m ∈ cs, Tame (Letter.Contests version) m.words)
    (h : c.KeepsApart (Letter.Contests version) (wordsOf cs)) :
    Tame (Letter.Contests version) (group o c cs).occurrence := by
  rw [occurrence]
  refine tame_combine Letter.Contests.symm ?_ (disjoint_letters hn.numbered) h
  rw [wordsOf_eq, List.forall_mem_map]
  exact hcs

/-- The words of one occurrence of a separated tree are tame. -/
theorem Separated.tame_occurrence (h : n.Separated version) (hn : n.Proper) :
    Tame (Letter.Contests version) n.occurrence := by
  induction n using Node.induct with
  | leaf n s hs =>
    refine .of_single hn.exists_mem_occurrence (fun w hw => ?_) (apart_letters_of_leaf hs)
    rw [occurrence_of_leaf hs] at hw
    exact hw.imp fun a ha => ha.2
  | group o c cs ih =>
    rw [Separated, separatedEach_iff] at h
    refine tame_occurrence_group hn (fun m hm => ?_) h.2.1
    exact (ih m hm (h.1 m hm) (hn.of_mem hm)).words (hn.of_mem hm).ordered.valid
      (hn.trimmed.never_eq_false hm) (h.1 m hm).apart

/-- The words of a separated tree are tame. -/
theorem Separated.tame_words (h : n.Separated version) (hn : n.Proper)
    (hmax : n.occurs.never = false) : Tame (Letter.Contests version) n.words :=
  (h.tame_occurrence hn).words hn.ordered.valid hmax h.apart

/-- A tree whose words keep letters apart is separated. -/
theorem separated_of_separate (hn : n.Proper) (hmax : n.occurs.never = false)
    (h : Separate (Letter.Contests version) n.words) : n.Separated version := by
  induction n using Node.induct with
  | leaf n s hs => cases n <;> cases hs <;> exact trivial
  | group o c cs ih =>
    have hterm := h.of_words hn.ordered.valid hmax hn.exists_mem_occurrence
    obtain ⟨heach, hbetween⟩ := Separate.of_combine hn.exists_mem_of_mem_wordsOf hterm
    rw [wordsOf_eq, List.forall_mem_map] at heach
    rw [Separated, separatedEach_iff]
    refine ⟨fun m hm => ?_, hbetween, h.apart_of_words hn.ordered.valid hn.exists_mem_occurrence⟩
    exact ih m hm (hn.of_mem hm) (hn.trimmed.never_eq_false hm) (heach m hm)

/-- **The criterion is exact**: the words of a tree keep letters apart if and only if it is
separated. -/
theorem separate_words_iff (hn : n.Proper) (hmax : n.occurs.never = false) :
    Separate (Letter.Contests version) n.words ↔ n.Separated version :=
  ⟨separated_of_separate hn hmax, fun h => (h.tame_words hn hmax).separate⟩

end Exact

end Node

/-- Compiling makes a proper tree of a model group with bounds in order whose leaves match
something. -/
theorem Faithful.proper {accepts : ElementId → List Name} {g : ModelGroup} {n : Node} {k : Nat}
    (h : Faithful accepts g.toParticle 0 n k) (hbounds : g.BoundsValid)
    (hleaves : g.LeavesMatch accepts) : n.Proper where
  ordered := h.ordered hbounds
  matchable := h.matchable hleaves
  trimmed := h.trimmed
  numbered := h.numbered

end ContentModel
end SchemaAssist
