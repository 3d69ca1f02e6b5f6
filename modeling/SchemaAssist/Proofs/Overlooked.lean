/-
# Ambiguities that the check overlooks

A model group that compiles may still be ambiguous.  The check compares the end of a group with its
beginning only if the number of its occurrences is not fixed, it takes too few leaves for the end of
a blunt particle, and of an unordered group it compares only what the particles begin with.  Nothing
else is overlooked: a model group that compiles is unambiguous exactly if it is separated at these
places (`Automaton.not_ambiguous_iff`), and it is if there are none (`Node.Plain`).
-/

import SchemaAssist.Proofs.Ends

namespace SchemaAssist
namespace ContentModel
namespace Node

variable {version : Version} {n : Node} {o : Occurs} {c : Compositor} {cs : List Node}

/-! ### What the check compares -/

theorem followConflict?_eq_none_iff {tail : List Symbol} :
    followConflict? version tail cs = none ↔
      ∀ x ∈ tail, ∀ y ∈ sequenceFirstSymbols cs, x.competes version y = false := by
  induction cs with
  | nil => simp [followConflict?, sequenceFirstSymbols]
  | cons c cs ih =>
    rw [followConflict?, sequenceFirstSymbols]
    cases h : conflict? version .sequence tail c.firstSymbols with
    | some a =>
      refine iff_of_false (by simp) fun hnone => ?_
      have hfirst : conflict? version .sequence tail c.firstSymbols = none :=
        conflict?_eq_none_iff.2 fun x hx y hy => hnone x hx y (List.mem_append_left _ hy)
      rw [hfirst] at h
      cases h
    | none =>
      rw [conflict?_eq_none_iff] at h
      cases c.nullable with
      | true =>
        rw [if_pos rfl, if_pos rfl, ih]
        refine forall₂_congr fun x hx => ?_
        rw [List.forall_mem_append]
        exact (and_iff_right (h x hx)).symm
      | false => simpa using h

theorem startConflict?_eq_none_iff : startConflict? version c cs = none ↔
    cs.Pairwise fun m n =>
      ∀ x ∈ m.firstSymbols, ∀ y ∈ n.firstSymbols, x.competes version y = false := by
  induction cs with
  | nil => simp [startConflict?]
  | cons m cs ih =>
    rw [startConflict?, Option.or_eq_none_iff, List.findSome?_eq_none_iff, ih, List.pairwise_cons]
    exact and_congr_left fun _ => forall₂_congr fun n _ => conflict?_eq_none_iff

theorem ambiguityIn?_eq_none_iff :
    ambiguityIn? version cs = none ↔ ∀ m ∈ cs, m.ambiguity? version = none := by
  induction cs with
  | nil => simp [ambiguityIn?]
  | cons m cs ih => rw [ambiguityIn?, Option.or_eq_none_iff, ih, List.forall_mem_cons]

/-- The check finds nothing in a group if it finds nothing between its particles, between the end
and the beginning of a group whose bounds are not exact, and inside the particles. -/
theorem ambiguity?_group_eq_none_iff : (group o c cs).ambiguity? version = none ↔
    siblingConflict? version c cs = none ∧
      (o.repeatable = true → ∀ x ∈ (group o c cs).termEndSymbols,
        ∀ y ∈ (group o c cs).firstSymbols, x.competes version y = false) ∧
      ∀ m ∈ cs, m.ambiguity? version = none := by
  rw [ambiguity?, Option.or_eq_none_iff, Option.or_eq_none_iff, ambiguityIn?_eq_none_iff]
  refine and_congr_right fun _ => and_congr_left fun _ => ?_
  split
  next h => exact conflict?_eq_none_iff.trans (by simp [h])
  next h => simp [h]

/-- Letters that are read by leaves that do not compete do not contest. -/
theorem Proper.apart_of_competes_eq_false (hn : n.Proper) {xs ys : List Symbol} {s t : Set Letter}
    (hs : ∀ a ∈ s, ReadBy xs a ∧ ReadBy n.symbols a)
    (ht : ∀ a ∈ t, ReadBy ys a ∧ ReadBy n.symbols a)
    (h : ∀ x ∈ xs, ∀ y ∈ ys, x.competes version y = false) :
    Apart (Letter.Contests version) s t := by
  intro a ha b hb hab
  obtain ⟨⟨x, hx, hread⟩, x', hx', hread'⟩ := hs a ha
  obtain ⟨⟨y, hy, hread₁⟩, y', hy', hread₁'⟩ := ht b hb
  have hleaf : x.leaf ≠ y.leaf := by
    intro heq
    have hx : x.leaf = x'.leaf := congrArg Leaf.number (hread.2.symm.trans hread'.2)
    have hy : y.leaf = y'.leaf := congrArg Leaf.number (hread₁.2.symm.trans hread₁'.2)
    have hsame := hn.eq_of_leaf_eq hx' hy' (by rw [← hx, heq, hy])
    exact hab.2.1 (by rw [hread'.2, hread₁'.2, hsame])
  have hcompetes := (Symbol.competes_iff hleaf).2 ⟨a, b, hread, hread₁, hab⟩
  rw [h x hx y hy] at hcompetes
  cases hcompetes

theorem readBy_symbols_of_mem {m : Node} (hm : m ∈ cs) {a : Letter} (ha : a ∈ letters m.words) :
    ReadBy (group o c cs).symbols a := by
  obtain ⟨s, hs, ha⟩ := exists_reads_of_mem_letters ha
  refine ⟨s, ?_, ha⟩
  rw [symbols, symbolsOf_eq]
  exact List.mem_flatMap.2 ⟨m, hm, hs⟩

/-! ### What it does not compare -/

/-- Between the particles of a group the check overlooks what a particle that is not sharp goes on
with and, of an unordered group with groups in it, all but the beginnings. -/
def UnseenApart (version : Version) : Compositor → List Node → Prop
  | .sequence, [] => True
  | .sequence, c :: cs =>
    (¬ c.Sharp → Apart (Letter.Contests version) (goesOn c.words) (starts (wordsOf cs).prod)) ∧
      UnseenApart version .sequence cs
  | .choice, _ => True
  | .all, cs => (∃ m ∈ cs, m.symbol? = none) →
      (wordsOf cs).Pairwise fun l m => Apart (Letter.Contests version) (letters l) (letters m)

mutual

/-- A tree is separated where the check does not see it: between the particles of its groups, and
between the end and the beginning of a group that may occur more than once, if its bounds are exact
or a particle is not sharp. -/
def SeparatedUnseen (version : Version) : Node → Prop
  | n@(group o c cs) => SeparatedUnseenEach version cs ∧ UnseenApart version c cs ∧
      (o.multiple = true → (o.repeatable = false ∨ ∃ m ∈ cs, ¬ m.Sharp) →
        Apart (Letter.Contests version) (goesOn n.occurrence) (starts n.occurrence))
  | _ => True

/-- Each of several trees is separated where the check does not see it. -/
def SeparatedUnseenEach (version : Version) : List Node → Prop
  | [] => True
  | c :: cs => SeparatedUnseen version c ∧ SeparatedUnseenEach version cs

end

theorem separatedUnseenEach_iff :
    SeparatedUnseenEach version cs ↔ ∀ m ∈ cs, m.SeparatedUnseen version := by
  induction cs with
  | nil => exact iff_of_true trivial nofun
  | cons c cs ih => rw [SeparatedUnseenEach, ih, List.forall_mem_cons]

theorem unseenApart_of_keepsApart (h : c.KeepsApart (Letter.Contests version) (wordsOf cs)) :
    UnseenApart version c cs := by
  cases c with
  | sequence =>
    induction cs with
    | nil => exact trivial
    | cons d cs ih => exact ⟨fun _ => h.1, ih h.2⟩
  | choice =>
    rw [UnseenApart]
    exact trivial
  | all =>
    rw [Compositor.KeepsApart] at h
    rw [UnseenApart]
    exact fun _ => h

/-- A separated tree is separated where the check does not see it. -/
theorem Separated.unseen (h : n.Separated version) : n.SeparatedUnseen version := by
  induction n using Node.induct with
  | leaf n s hs => cases n <;> cases hs <;> exact trivial
  | group o c cs ih =>
    rw [Separated, separatedEach_iff] at h
    rw [SeparatedUnseen, separatedUnseenEach_iff]
    exact ⟨fun m hm => ih m hm (h.1 m hm), unseenApart_of_keepsApart h.2.1, fun hm _ => h.2.2 hm⟩

section Group

variable (hn : (group o c cs).Proper) (hcs : ∀ m ∈ cs, m.Separated version)

include hn hcs

/-- What one of the particles of a group goes on with is read by the leaves taken for its end. -/
theorem readBy_of_mem_goesOn_of_mem {m : Node} (hm : m ∈ cs) (hsharp : m.Sharp) {a : Letter}
    (ha : a ∈ goesOn m.words) : ReadBy m.endSymbols a :=
  readBy_of_mem_goesOn_words (hn.of_mem hm) (hn.trimmed.never_eq_false hm) (hcs m hm) hsharp ha

/-- Of a sequence the check overlooks only what follows particles that are not sharp. -/
theorem keepsApart_sequence {ds : List Node} (hds : ∀ m ∈ ds, m ∈ cs)
    (hcheck : sequenceConflict? version ds = none) (hunseen : UnseenApart version .sequence ds) :
    Compositor.sequence.KeepsApart (Letter.Contests version) (wordsOf ds) := by
  induction ds with
  | nil => exact trivial
  | cons d ds ih =>
    rw [List.forall_mem_cons] at hds
    rw [sequenceConflict?, Option.or_eq_none_iff, followConflict?_eq_none_iff] at hcheck
    refine ⟨?_, ih hds.2 hcheck.2 hunseen.2⟩
    by_cases hsharp : d.Sharp
    · refine hn.apart_of_competes_eq_false (fun a ha => ⟨?_, ?_⟩) (fun b hb => ⟨?_, ?_⟩) hcheck.1
      · exact readBy_of_mem_goesOn_of_mem hn hcs hds.1 hsharp ha
      · exact readBy_symbols_of_mem hds.1 (goesOn_subset_letters ha)
      · exact (mem_starts_prod_iff (fun m hm => hn.of_mem (hds.2 m hm)) fun m hm =>
          mem_starts_words_iff (hn.of_mem (hds.2 m hm))
            (hn.trimmed.never_eq_false (hds.2 m hm))).1 hb
      · obtain ⟨l, hl, hb⟩ := letters_prod_subset (starts_subset_letters hb)
        rw [wordsOf_eq] at hl
        obtain ⟨m, hm, rfl⟩ := List.mem_map.1 hl
        exact readBy_symbols_of_mem (hds.2 m hm) hb
    · exact hunseen.1 hsharp

/-- A group whose particles are separated keeps them apart if the check finds nothing and it does so
where the check does not see it. -/
theorem keepsApart_of_unseen (hcheck : siblingConflict? version c cs = none)
    (hunseen : UnseenApart version c cs) :
    c.KeepsApart (Letter.Contests version) (wordsOf cs) := by
  -- what holds of the beginnings holds of all letters if there are only leaves
  have hfirst : ∀ {s : Node → Set Letter}, (∀ m ∈ cs, ∀ a ∈ s m, ReadBy m.firstSymbols a) →
      (∀ m ∈ cs, s m ⊆ letters m.words) → startConflict? version c cs = none →
      cs.Pairwise fun m n => Apart (Letter.Contests version) (s m) (s n) := by
    intro s hread hletters hstart
    refine (startConflict?_eq_none_iff.1 hstart).imp_of_mem fun {m n} hm hm' hmn => ?_
    exact hn.apart_of_competes_eq_false
      (fun a ha => ⟨hread m hm a ha, readBy_symbols_of_mem hm (hletters m hm ha)⟩)
      (fun a ha => ⟨hread n hm' a ha, readBy_symbols_of_mem hm' (hletters n hm' ha)⟩) hmn
  cases c with
  | sequence => exact keepsApart_sequence hn hcs (fun _ hm => hm) hcheck hunseen
  | choice =>
    rw [Compositor.KeepsApart, wordsOf_eq, List.pairwise_map]
    refine hfirst (fun m hm a ha => ?_) (fun m _ => starts_subset_letters) hcheck
    exact (mem_starts_words_iff (hn.of_mem hm) (hn.trimmed.never_eq_false hm)).1 ha
  | all =>
    rw [UnseenApart] at hunseen
    rw [Compositor.KeepsApart]
    by_cases hgroup : ∃ m ∈ cs, m.symbol? = none
    · exact hunseen hgroup
    · rw [wordsOf_eq, List.pairwise_map]
      refine hfirst (fun m hm a ha => ?_) (fun m _ => le_rfl) hcheck
      cases m with
      | group o' c' cs' => exact absurd ⟨_, hm, rfl⟩ hgroup
      | element o' k d accepts => exact exists_reads_of_mem_letters ha
      | wildcard o' k spaces strictness => exact exists_reads_of_mem_letters ha

/-- What a group goes on with does not contest what it begins with if the check finds nothing and
that is so where the check does not see it. -/
theorem apart_of_unseen (hbetween : c.KeepsApart (Letter.Contests version) (wordsOf cs))
    (hcheck : o.repeatable = true → ∀ x ∈ (group o c cs).termEndSymbols,
      ∀ y ∈ (group o c cs).firstSymbols, x.competes version y = false)
    (hunseen : (o.repeatable = false ∨ ∃ m ∈ cs, ¬ m.Sharp) → Apart (Letter.Contests version)
      (goesOn (group o c cs).occurrence) (starts (group o c cs).occurrence)) :
    Apart (Letter.Contests version) (goesOn (group o c cs).occurrence)
      (starts (group o c cs).occurrence) := by
  by_cases h : o.repeatable = false ∨ ∃ m ∈ cs, ¬ m.Sharp
  · exact hunseen h
  rw [not_or, Bool.not_eq_false] at h
  have hsharp : ∀ m ∈ cs, m.Sharp := fun m hm => by
    by_contra hne
    exact h.2 ⟨m, hm, hne⟩
  have htame : Tame (Letter.Contests version) (group o c cs).occurrence :=
    tame_occurrence_group hn (fun m hm => (hcs m hm).tame_words (hn.of_mem hm)
      (hn.trimmed.never_eq_false hm)) hbetween
  have hread : ∀ a ∈ letters (group o c cs).occurrence, ReadBy (group o c cs).symbols a :=
    fun a ha => exists_reads_of_mem_letters_occurrence ha
  have hend : Apart (Letter.Contests version)
      {a | ReadBy (group o c cs).termEndSymbols a ∧ ReadBy (group o c cs).symbols a}
      (starts (group o c cs).occurrence) :=
    hn.apart_of_competes_eq_false (fun a ha => ha)
      (fun b hb => ⟨(mem_starts_iff hn).1 hb, hread b (starts_subset_letters hb)⟩) (hcheck h.1)
  intro a ha b hb
  have hgoes := readBy_of_mem_goesOn hn
    (fun m hm ha => readBy_of_mem_goesOn_of_mem hn hcs hm (hsharp m hm) ha) ha
  rcases hgoes with hread' | ⟨-, hstart⟩
  · exact hend a ⟨hread', hread a (goesOn_subset_letters ha)⟩ b hb
  · exact htame.separate.starts a ((mem_starts_iff hn).2 hstart) b hb

end Group

/-- **The check overlooks nothing else**: a tree in which it finds nothing is separated if it is so
where the check does not see it. -/
theorem separated_of_unseen (hn : n.Proper) (hcheck : n.ambiguity? version = none)
    (hunseen : n.SeparatedUnseen version) : n.Separated version := by
  induction n using Node.induct with
  | leaf n s hs => cases n <;> cases hs <;> exact trivial
  | group o c cs ih =>
    obtain ⟨hsiblings, hself, hinside⟩ := ambiguity?_group_eq_none_iff.1 hcheck
    rw [SeparatedUnseen, separatedUnseenEach_iff] at hunseen
    have hcs : ∀ m ∈ cs, m.Separated version := fun m hm =>
      ih m hm (hn.of_mem hm) (hinside m hm) (hunseen.1 m hm)
    have hbetween := keepsApart_of_unseen hn hcs hsiblings hunseen.2.1
    rw [Separated, separatedEach_iff]
    exact ⟨hcs, hbetween, fun hm => apart_of_unseen hn hcs hbetween hself (hunseen.2.2 hm)⟩

/-! ### Trees without places that the check does not see -/

/-- The check sees the whole of a group: its bounds are not exact, or it occurs once and is no
choice that only some of its particles may leave without elements; and if it is unordered, its
particles are leaves. -/
def seen : Node → Bool
  | group o c cs =>
    (o.repeatable || (!o.multiple && !(c == .choice && anyNullable cs && !allNullable cs))) &&
      (c != .all || cs.all fun m => m.symbol?.isSome)
  | _ => true

/-- The check sees the whole of every group of a tree. -/
def Plain (n : Node) : Prop := ∀ m ∈ n.subtrees, m.seen = true

instance (n : Node) : Decidable n.Plain :=
  inferInstanceAs (Decidable (∀ m ∈ n.subtrees, m.seen = true))

theorem Plain.of_mem {m : Node} (h : (group o c cs).Plain) (hm : m ∈ cs) : m.Plain :=
  fun x hx => h x (mem_subtrees_group.2 (Or.inr ⟨m, hm, hx⟩))

theorem Plain.sharp (h : n.Plain) : n.Sharp := by
  intro m hm
  have hseen := h m hm
  cases m with
  | group o c cs =>
    rw [seen, Bool.and_eq_true, Bool.or_eq_true, Bool.and_eq_true, Bool.not_eq_true',
      Bool.not_eq_true'] at hseen
    rw [blunt, Bool.and_eq_false_iff, Bool.not_eq_false']
    refine hseen.1.imp_right fun hsingle => ?_
    rw [hsingle.1, hsingle.2]
    rfl
  | _ => rfl

theorem unseenApart_of_sharp (hsharp : ∀ m ∈ cs, m.Sharp)
    (hleaves : c = .all → ∀ m ∈ cs, m.symbol?.isSome = true) : UnseenApart version c cs := by
  cases c with
  | sequence =>
    clear hleaves
    induction cs with
    | nil => exact trivial
    | cons d cs ih =>
      rw [List.forall_mem_cons] at hsharp
      exact ⟨fun hd => absurd hsharp.1 hd, ih hsharp.2⟩
  | choice =>
    rw [UnseenApart]
    exact trivial
  | all =>
    rw [UnseenApart]
    rintro ⟨m, hm, hgroup⟩
    have hleaf := hleaves rfl m hm
    rw [hgroup] at hleaf
    cases hleaf

/-- A tree whose groups the check sees whole has no place that it does not see. -/
theorem Plain.separatedUnseen (h : n.Plain) : n.SeparatedUnseen version := by
  induction n using Node.induct with
  | leaf n s hs => cases n <;> cases hs <;> exact trivial
  | group o c cs ih =>
    have hseen := h _ (self_mem_subtrees _)
    rw [seen, Bool.and_eq_true, Bool.or_eq_true, Bool.and_eq_true, Bool.or_eq_true,
      List.all_eq_true] at hseen
    have hsharp : ∀ m ∈ cs, m.Sharp := fun m hm => (h.of_mem hm).sharp
    rw [SeparatedUnseen, separatedUnseenEach_iff]
    refine ⟨fun m hm => ih m hm (h.of_mem hm), unseenApart_of_sharp hsharp fun hc => ?_,
      fun hmultiple hunseen => ?_⟩
    · exact hseen.2.resolve_left (by simp [hc])
    · rcases hunseen with hexact | ⟨m, hm, hblunt⟩
      · rw [hexact, hmultiple] at hseen
        exact absurd hseen.1 (by simp)
      · exact absurd (hsharp m hm) hblunt

/-- A tree in which the check finds nothing is separated if the check sees the whole of it. -/
theorem separated_of_plain (hn : n.Proper) (hcheck : n.ambiguity? version = none)
    (hplain : n.Plain) : n.Separated version := separated_of_unseen hn hcheck hplain.separatedUnseen

end Node

theorem separate_words_of_never {o : Occurs} {l : Language Letter} {version : Version}
    (ho : o.never = true) : Separate (Letter.Contests version) (o.words l) := by
  rintro u a b v v' ⟨k, hk, ha⟩
  have hmax : o.max = some 0 := by simpa [Occurs.never] using ho
  obtain rfl : k = 0 := Nat.le_zero.1 (hk.2 0 hmax)
  exact absurd ha (by simp [Language.mem_one])

namespace Automaton

variable {g : ModelGroup} {accepts : ElementId → List Name} {version : Version} {limits : Limits}
  {m : Automaton}

/-- **What compiles is unambiguous exactly if it is separated where the check does not see it**, and
so it is if there are no such places. -/
theorem not_ambiguous_iff (hbounds : g.BoundsValid) (hleaves : g.LeavesMatch accepts)
    (hm : compile g accepts version limits = .ok m) :
    (¬ g.Ambiguous accepts version ↔
      m.root.occurs.never = true ∨ m.root.SeparatedUnseen version) ∧
    (m.root.Plain → ¬ g.Ambiguous accepts version) := by
  obtain ⟨⟨k, hfaithful⟩, hcheck⟩ := of_compile_eq_ok hm
  have hproper := hfaithful.proper hbounds hleaves
  have hiff : ¬ g.Ambiguous accepts version ↔
      m.root.occurs.never = true ∨ m.root.SeparatedUnseen version := by
    rw [ModelGroup.unambiguous_iff, ← hfaithful.words_eq]
    cases hmax : m.root.occurs.never with
    | true => exact iff_of_true (separate_words_of_never hmax) (Or.inl rfl)
    | false =>
      rw [Node.separate_words_iff hproper hmax]
      refine ⟨fun h => Or.inr h.unseen, fun h => ?_⟩
      exact Node.separated_of_unseen hproper hcheck (h.resolve_left (by simp))
  exact ⟨hiff, fun hplain => hiff.2 (Or.inr hplain.separatedUnseen)⟩

/-- Any number of times an optional `a` and a `b`. -/
def listed : ModelGroup :=
  ⟨.sequence, [.element ⟨0⟩ ⟨0, some 1⟩, .element ⟨1⟩ .once], .anyNumber⟩

theorem not_ambiguous_listed :
    listed.BoundsValid ∧ listed.LeavesMatch twoNames ∧
      (∃ m, compile listed twoNames .v10 {} = .ok m ∧ m.root.Plain) ∧
      ¬ listed.Ambiguous twoNames .v10 := by
  have hbounds : listed.BoundsValid := by decide
  have hleaves : listed.LeavesMatch twoNames :=
    ModelGroup.leavesMatch_of_elements (by simp [listed]) exists_mem_twoNames
  have hm : compile listed twoNames .v10 {} = .ok ⟨.group .anyNumber .sequence
    [.element ⟨0, some 1⟩ 1 ⟨0⟩ (twoNames ⟨0⟩), .element .once 2 ⟨1⟩ (twoNames ⟨1⟩)],
    .standard⟩ := rfl
  have hplain : (Node.group .anyNumber .sequence [.element ⟨0, some 1⟩ 1 ⟨0⟩ (twoNames ⟨0⟩),
    .element .once 2 ⟨1⟩ (twoNames ⟨1⟩)]).Plain := by decide
  exact ⟨hbounds, hleaves, ⟨_, hm, hplain⟩, (not_ambiguous_iff hbounds hleaves hm).2 hplain⟩

/-- Twice an `a` between two optional elements `b`. -/
def twiceBetween : ModelGroup :=
  ⟨.sequence, [.element ⟨1⟩ ⟨0, some 1⟩, .element ⟨0⟩ .once, .element ⟨1⟩ ⟨0, some 1⟩],
    ⟨2, some 2⟩⟩

/-- After the first `a` a `b` ends the first sequence or begins the second one, and yet the model
group compiles. -/
theorem ambiguous_twiceBetween :
    twiceBetween.BoundsValid ∧ twiceBetween.LeavesMatch twoNames ∧
      (∃ m, compile twiceBetween twoNames .v10 {} = .ok m) ∧
      twiceBetween.Ambiguous twoNames .v10 := by
  have hleaves : twiceBetween.LeavesMatch twoNames :=
    ModelGroup.leavesMatch_of_elements (by simp [twiceBetween]) exists_mem_twoNames
  refine ⟨by decide, hleaves, ⟨_, rfl⟩, ?_⟩
  let before : Letter := (.unqualified "b", ⟨1, false⟩)
  let middle : Letter := (.unqualified "a", ⟨2, false⟩)
  let after : Letter := (.unqualified "b", ⟨3, false⟩)
  have hoptional : ∀ (k : Nat) (x : List Letter), x = [] ∨ x = [(.unqualified "b", ⟨k, false⟩)] →
      x ∈ (⟨0, some 1⟩ : Occurs).words (Symbol.words ⟨k, .names (twoNames ⟨1⟩)⟩) := by
    have hname : (twoNames ⟨1⟩).contains (.unqualified "b") = true := by decide
    rintro k x (rfl | rfl)
    · exact Occurs.nil_mem_words_of_allows (by decide)
    · exact Occurs.mem_words_of_allows_one (by decide)
        ⟨(.unqualified "b", ⟨k, false⟩), ⟨hname, rfl⟩, rfl⟩
  have hmiddle : [middle] ∈ Occurs.once.words (Symbol.words ⟨2, .names (twoNames ⟨0⟩)⟩) :=
    Occurs.mem_words_of_allows_one (by decide) ⟨_, ⟨by decide, rfl⟩, rfl⟩
  have hterm : ∀ x y, (x = [] ∨ x = [before]) → (y = [] ∨ y = [after]) →
      x ++ ([middle] ++ (y ++ [])) ∈ twiceBetween.toParticle.occurrence twoNames 0 :=
    fun x y hx hy => Language.append_mem_mul (hoptional 1 x hx) <|
      Language.append_mem_mul hmiddle <|
        Language.append_mem_mul (hoptional 3 y hy) Language.nil_mem_one
  have hwords : ∀ x ∈ twiceBetween.toParticle.occurrence twoNames 0,
      ∀ y ∈ twiceBetween.toParticle.occurrence twoNames 0,
        x ++ y ∈ twiceBetween.attributions twoNames := fun x hx y hy =>
    Occurs.append_mem_words_of_allows_two (by decide) hx hy
  refine ⟨[middle], .unqualified "b", ⟨3, false⟩, ⟨1, false⟩, [middle], [middle], by decide,
    Or.inl rfl, ?_, ?_⟩
  · exact hwords _ (hterm [] [after] (Or.inl rfl) (Or.inr rfl)) _
      (hterm [] [] (Or.inl rfl) (Or.inl rfl))
  · exact hwords _ (hterm [] [] (Or.inl rfl) (Or.inl rfl)) _
      (hterm [before] [] (Or.inr rfl) (Or.inl rfl))

end Automaton
end ContentModel
end SchemaAssist
