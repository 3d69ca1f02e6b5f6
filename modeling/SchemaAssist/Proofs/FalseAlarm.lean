/-
# Alarms of the check

A model group that is refused as ambiguous need not be.  What the check compares inside a group is
all real: every pair of leaves that competes there makes the model group ambiguous.  But it also
compares the end of a group with its beginning if the group may occur once or not at all, where the
two never meet.  There is no other false alarm (`Node.ambiguity?_eq_none`,
`Automaton.ambiguous_iff_of_refused`).
-/

import SchemaAssist.Proofs.Overlooked

namespace SchemaAssist
namespace ContentModel
namespace Node

variable {version : Version} {n : Node} {o : Occurs} {c : Compositor} {cs : List Node}

/-- Leaves that read letters of two sets do not compete if the sets are apart. -/
theorem competes_eq_false_of_apart {xs ys : List Symbol} {s t : Set Letter}
    (h : Apart (Letter.Contests version) s t) (hs : ∀ a, ReadBy xs a → a ∈ s)
    (ht : ∀ b, ReadBy ys b → b ∈ t) : ∀ x ∈ xs, ∀ y ∈ ys, x.competes version y = false := by
  intro x hx y hy
  rw [← Bool.not_eq_true]
  intro hcompetes
  have hleaf : x.leaf ≠ y.leaf := by
    rw [Symbol.competes, Bool.and_eq_true, bne_iff_ne] at hcompetes
    exact hcompetes.1
  obtain ⟨a, b, ha, hb, hab⟩ := (Symbol.competes_iff hleaf).1 hcompetes
  exact h a (hs a ⟨x, hx, ha⟩) b (ht b ⟨y, hy, hb⟩) hab

/-- Bounds that are not exact and allow no more than one occurrence allow one or none. -/
theorem eq_optional_of_repeatable (hmax : o.never = false) (hrep : o.repeatable = true)
    (hmultiple : o.multiple = false) : o = ⟨0, some 1⟩ := by
  obtain ⟨min, max⟩ := o
  cases max with
  | none => simp [Occurs.multiple] at hmultiple
  | some max =>
    have hle : max = 0 ∨ max = 1 := by
      by_contra h
      rw [not_or] at h
      simp [Occurs.multiple, h] at hmultiple
    have hne : max ≠ 0 := fun h => by simp [Occurs.never, h] at hmax
    have hlt : min < max := by simpa [Occurs.repeatable] using hrep
    obtain rfl : max = 1 := hle.resolve_left hne
    obtain rfl : min = 0 := by omega
    rfl

section Group

variable (hn : (group o c cs).Proper)

include hn

/-- In a sequence that keeps its particles apart the check finds nothing. -/
theorem sequenceConflict?_eq_none {ds : List Node} (hds : ∀ m ∈ ds, m ∈ cs)
    (h : Compositor.sequence.KeepsApart (Letter.Contests version) (wordsOf ds)) :
    sequenceConflict? version ds = none := by
  induction ds with
  | nil => rfl
  | cons d ds ih =>
    rw [List.forall_mem_cons] at hds
    rw [sequenceConflict?, Option.or_eq_none_iff, followConflict?_eq_none_iff]
    refine ⟨competes_eq_false_of_apart h.1 (fun a ha => ?_) fun b hb => ?_, ih hds.2 h.2⟩
    · exact mem_goesOn_words_of_readBy (hn.of_mem hds.1) (hn.trimmed.never_eq_false hds.1) ha
    · exact (mem_starts_prod_iff (fun m hm => hn.of_mem (hds.2 m hm)) fun m hm =>
        mem_starts_words_iff (hn.of_mem (hds.2 m hm))
          (hn.trimmed.never_eq_false (hds.2 m hm))).2 hb

/-- Between particles that a group keeps apart the check finds nothing. -/
theorem siblingConflict?_eq_none (h : c.KeepsApart (Letter.Contests version) (wordsOf cs)) :
    siblingConflict? version c cs = none := by
  have hstart : ∀ m ∈ cs, ∀ a, ReadBy m.firstSymbols a → a ∈ starts m.words := fun m hm a ha =>
    (mem_starts_words_iff (hn.of_mem hm) (hn.trimmed.never_eq_false hm)).2 ha
  cases c with
  | sequence => exact sequenceConflict?_eq_none hn (fun _ hm => hm) h
  | choice =>
    rw [Compositor.KeepsApart, wordsOf_eq, List.pairwise_map] at h
    refine startConflict?_eq_none_iff.2 (h.imp_of_mem fun {m n} hm hm' hmn => ?_)
    exact competes_eq_false_of_apart hmn (hstart m hm) (hstart n hm')
  | all =>
    rw [Compositor.KeepsApart, wordsOf_eq, List.pairwise_map] at h
    refine startConflict?_eq_none_iff.2 (h.imp_of_mem fun {m n} hm hm' hmn => ?_)
    exact competes_eq_false_of_apart hmn (fun a ha => starts_subset_letters (hstart m hm a ha))
      fun b hb => starts_subset_letters (hstart n hm' b hb)

end Group

/-- **Only groups that may be left out raise false alarms**: the check finds nothing in a separated
tree if no group that occurs once or not at all goes on with what contests its beginning. -/
theorem ambiguity?_eq_none (hn : n.Proper) (hmax : n.occurs.never = false)
    (h : n.Separated version)
    (hoptional : ∀ m ∈ n.subtrees, m.symbol? = none → m.occurs = ⟨0, some 1⟩ →
      Apart (Letter.Contests version) (goesOn m.occurrence) (starts m.occurrence)) :
    n.ambiguity? version = none := by
  induction n using Node.induct with
  | leaf n s hs => cases n <;> cases hs <;> rfl
  | group o c cs ih =>
    rw [Separated, separatedEach_iff] at h
    refine ambiguity?_group_eq_none_iff.2
      ⟨siblingConflict?_eq_none hn h.2.1, fun hrep => ?_, fun m hm => ?_⟩
    · have hapart : Apart (Letter.Contests version) (goesOn (group o c cs).occurrence)
          (starts (group o c cs).occurrence) := by
        cases hmultiple : o.multiple with
        | true => exact h.2.2 hmultiple
        | false =>
          exact hoptional _ (self_mem_subtrees _) rfl
            (eq_optional_of_repeatable hmax hrep hmultiple)
      exact competes_eq_false_of_apart hapart (fun a ha => mem_goesOn_of_readBy hn ha)
        fun b hb => (mem_starts_iff hn).2 hb
    · exact ih m hm (hn.of_mem hm) (hn.trimmed.never_eq_false hm) (h.1 m hm) fun x hx =>
        hoptional x (mem_subtrees_group.2 (Or.inr ⟨m, hm, hx⟩))

end Node

namespace Automaton

variable {g : ModelGroup} {accepts : ElementId → List Name} {version : Version} {limits : Limits}
  {a : Ambiguity}

/-- **What is refused is ambiguous exactly if it is not separated**, and it is ambiguous unless some
group that occurs once or not at all goes on with what contests its beginning. -/
theorem ambiguous_iff_of_refused (hbounds : g.BoundsValid) (hleaves : g.LeavesMatch accepts)
    (hmax : g.occurs.never = false)
    (h : compile g accepts version limits = .error (.ambiguous a)) :
    ∃ root k, buildNode accepts limits 0 g.toParticle 0 = .ok (root, k) ∧
      (g.Ambiguous accepts .v10 ↔ ¬ root.Separated .v10) ∧
      (g.Ambiguous accepts version ∨ ∃ n ∈ root.subtrees, n.symbol? = none ∧
        n.occurs = ⟨0, some 1⟩ ∧ ¬ Apart (Letter.Contests version) (goesOn n.occurrence)
          (starts n.occurrence)) := by
  obtain ⟨root, k, hbuild, hfound⟩ := of_compile_eq_ambiguous h
  have hfaithful := buildNode_faithful _ hbuild
  have hproper := hfaithful.proper hbounds hleaves
  have hroot : root.occurs.never = false := hfaithful.occurs ▸ hmax
  have hiff : ∀ version, g.Ambiguous accepts version ↔ ¬ root.Separated version := fun version => by
    rw [← Node.separate_words_iff hproper hroot, hfaithful.words_eq, ← ModelGroup.unambiguous_iff,
      not_not]
  refine ⟨root, k, hbuild, hiff .v10, ?_⟩
  by_contra hne
  rw [not_or, hiff version, not_not] at hne
  refine Option.some_ne_none a (hfound.symm.trans ?_)
  refine Node.ambiguity?_eq_none hproper hroot hne.1 fun m hm hgroup hoptional => ?_
  by_contra hcontest
  exact hne.2 ⟨m, hm, hgroup, hoptional, hcontest⟩

/-- An optional `a` before another one. -/
def optionalFirst : ModelGroup := ⟨.sequence, [.element ⟨0⟩ ⟨0, some 1⟩, .element ⟨0⟩ .once], .once⟩

theorem ambiguous_optionalFirst :
    optionalFirst.BoundsValid ∧ optionalFirst.LeavesMatch twoNames ∧
      optionalFirst.occurs.never = false ∧
      (∃ a, compile optionalFirst twoNames .v10 {} = .error (.ambiguous a)) ∧
      optionalFirst.Ambiguous twoNames .v10 := by
  have hbounds : optionalFirst.BoundsValid := by decide
  have hleaves : optionalFirst.LeavesMatch twoNames :=
    ModelGroup.leavesMatch_of_elements (by simp [optionalFirst]) exists_mem_twoNames
  have hrefused : compile optionalFirst twoNames .v10 {} =
    .error (.ambiguous ⟨.names (twoNames ⟨0⟩), .names (twoNames ⟨0⟩), .sequence⟩) := rfl
  obtain ⟨root, k, hbuild, -, h⟩ := ambiguous_iff_of_refused hbounds hleaves rfl hrefused
  refine ⟨hbounds, hleaves, rfl, ⟨_, hrefused⟩, h.resolve_right ?_⟩
  rintro ⟨n, hn, hgroup, hoptional, -⟩
  cases hbuild
  -- the only group of the tree occurs exactly once
  rcases Node.mem_subtrees_group.1 hn with rfl | ⟨m, hm, hn⟩
  · cases hoptional
  · simp only [List.mem_cons, List.not_mem_nil, or_false] at hm
    rcases hm with rfl | rfl <;> obtain rfl := List.mem_singleton.1 hn <;> cases hgroup

/-- An `a` between two optional elements `b`, all of it once or not at all. -/
def optionalBetween : ModelGroup :=
  ⟨.sequence, [.element ⟨1⟩ ⟨0, some 1⟩, .element ⟨0⟩ .once, .element ⟨1⟩ ⟨0, some 1⟩],
    ⟨0, some 1⟩⟩

/-- The two elements `b` never meet, and yet the model group is refused. -/
theorem not_ambiguous_optionalBetween :
    optionalBetween.BoundsValid ∧ optionalBetween.LeavesMatch twoNames ∧
      optionalBetween.occurs.never = false ∧
      (∃ a, compile optionalBetween twoNames .v10 {} = .error (.ambiguous a)) ∧
      ¬ optionalBetween.Ambiguous twoNames .v10 := by
  have hleaves : optionalBetween.LeavesMatch twoNames :=
    ModelGroup.leavesMatch_of_elements (by simp [optionalBetween]) exists_mem_twoNames
  refine ⟨by decide, hleaves, rfl, ⟨_, rfl⟩, ?_⟩
  -- with exact bounds the same particles compile, and the check sees all of them
  let once : ModelGroup := { optionalBetween with occurs := .once }
  have honce : compile once twoNames .v10 {} = .ok ⟨.group .once .sequence
    [.element ⟨0, some 1⟩ 1 ⟨1⟩ (twoNames ⟨1⟩), .element .once 2 ⟨0⟩ (twoNames ⟨0⟩),
      .element ⟨0, some 1⟩ 3 ⟨1⟩ (twoNames ⟨1⟩)], .standard⟩ := rfl
  obtain ⟨⟨k, hfaithful⟩, hcheck⟩ := of_compile_eq_ok honce
  have hproper := hfaithful.proper (by decide)
    (ModelGroup.leavesMatch_of_elements (by simp [once, optionalBetween]) exists_mem_twoNames)
  have hseparated := Node.separated_of_plain hproper hcheck (by decide)
  have hseparate := (hseparated.tame_occurrence hproper).separate
  rw [hfaithful.occurrence] at hseparate
  rw [ModelGroup.unambiguous_iff]
  exact (separate_one_add_iff.2 hseparate).mono (Occurs.words_le_one_add rfl)

end Automaton
end ContentModel
end SchemaAssist
