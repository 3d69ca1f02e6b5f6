/-
# Elements before wildcards

The later version of the schema language lets an element and a wildcard match the same name and
gives the name to the element.  The check relies on it, and so does a step where it chooses between
the particles of a choice or of an unordered group.  But the current particle of a sequence is asked
before those that follow it, and an occurrence under way before a further one: there a wildcard that
stands in front of an element (`Node.Fronts`) takes its names.

There is no other place.  Whatever has been taken, an element offered goes to an element unless a
wildcard that matches it stands in front (`Automaton.prefersElements_of_yielding`).
-/

import SchemaAssist.Proofs.Offers
import SchemaAssist.Proofs.Places

namespace SchemaAssist
namespace ContentModel
namespace Node

/-- A leaf that stands for an element declaration. -/
def IsDeclared (n : Node) : Prop := ∃ d, n.leafTerm? = some (.element d)

/-- A leaf that stands for a wildcard. -/
def IsWildcard (n : Node) : Prop := ∃ p, n.leafTerm? = some (.wildcard p)

/-- A particle that has occurred may occur once more, although it might as well end. -/
def renewable (n : Node) : Bool :=
  n.occurs.multiple && (n.occurs.repeatable || n.termNullable)

mutual

/-- The leaves that a particle that has occurred may go on with where it might as well end. -/
def lateLeaves : Node → List Node
  | n@(group _ .sequence cs) =>
    sequenceLateLeaves cs ++ if n.renewable then n.firstLeaves else []
  | n@(group _ .choice cs) => choiceLateLeaves cs ++ if n.renewable then n.firstLeaves else []
  | n@(group _ .all cs) => allLateLeaves cs ++ if n.renewable then n.firstLeaves else []
  | n => if n.renewable then n.firstLeaves else []

/-- A sequence may end at a particle if all those behind it may be left out. -/
def sequenceLateLeaves : List Node → List Node
  | [] => []
  | c :: cs =>
    (if allNullable cs then c.lateLeaves ++ sequenceFirstLeaves cs else []) ++
      sequenceLateLeaves cs

/-- A choice goes on with the particle taken. -/
def choiceLateLeaves : List Node → List Node
  | [] => []
  | c :: cs => c.lateLeaves ++ choiceLateLeaves cs

/-- An unordered group goes on with any particle, also with one that has been left out so far. -/
def allLateLeaves : List Node → List Node
  | [] => []
  | c :: cs => c.lateLeaves ++ (if c.nullable then c.firstLeaves else []) ++ allLateLeaves cs

end

/-- The leaves that one occurrence of a group may go on with where it might as well end. -/
def lateInside (cs : List Node) : Compositor → List Node
  | .sequence => sequenceLateLeaves cs
  | .choice => choiceLateLeaves cs
  | .all => allLateLeaves cs

/-- The leaves that a particle may go on or begin with where it might as well end. -/
def endLeaves (n : Node) : List Node :=
  n.lateLeaves ++ if n.nullable then n.firstLeaves else []

/-- In a sequence a leaf is asked before another one: a particle may still go on with it where what
follows may begin with the other. -/
def SequenceFronts (l l' : Node) : List Node → Prop
  | [] => False
  | c :: cs => (l ∈ c.endLeaves ∧ l' ∈ sequenceFirstLeaves cs) ∨ SequenceFronts l l' cs

/-- A group asks a leaf before another one: in the order of a sequence, or because an occurrence may
still go on with it where a further one may begin with the other. -/
def GroupFronts (l l' : Node) : Node → Prop
  | n@(group o c cs) => (c = .sequence ∧ SequenceFronts l l' cs) ∨
      (o.multiple = true ∧ l ∈ lateInside cs c ∧ l' ∈ n.firstLeaves)
  | _ => False

/-- Some group of a tree asks a leaf before another one. -/
def Fronts (n l l' : Node) : Prop := ∃ m ∈ n.subtrees, GroupFronts l l' m

/-- No wildcard of a tree stands in front of an element with a name that it matches. -/
def Yielding (n : Node) : Prop := ∀ l l', n.Fronts l l' → l.IsWildcard → l'.IsDeclared →
  ∀ name, l.Matches name → ¬ l'.Matches name

/-- The progress at all places of a tree has the right shape. -/
def ShapedAt (n : Node) (st : Progress) : Prop := ∀ p ∈ n.places st, p.1.Shaped p.2

section Shapes

variable {o : Occurs} {c : Compositor} {cs : List Node} {n : Node} {st : Progress}

theorem Fronts.of_child {l l' : Node} (h : ∃ m ∈ cs, m.Fronts l l') :
    (group o c cs).Fronts l l' := by
  obtain ⟨m, hm, x, hx, hfronts⟩ := h
  exact ⟨x, mem_subtrees_group.2 (Or.inr ⟨m, hm, hx⟩), hfronts⟩

theorem ShapedAt.self (h : n.ShapedAt st) : n.Shaped st := h _ (self_mem_places n st)

theorem ShapedAt.inside (h : (group o c cs).ShapedAt st) :
    ∀ p ∈ placesInside cs st, p.1.Shaped p.2 := by
  rw [ShapedAt, places_group, List.forall_mem_cons] at h
  exact h.2

theorem shapedAt_fresh (n : Node) : n.ShapedAt .fresh :=
  fun p hp => (wellFormed_fresh 0 n p hp).shaped

theorem shapedAt_placesAt_fresh (cs : List Node) : ∀ p ∈ placesAt cs 0 .fresh, p.1.Shaped p.2 := by
  cases cs with
  | nil => nofun
  | cons c cs => exact shapedAt_fresh c

theorem shapedAt_placesEach_fresh (cs : List Node) :
    ∀ p ∈ placesEach cs (cs.map fun _ => .fresh), p.1.Shaped p.2 := by
  rw [placesEach_fresh, List.forall_mem_map]
  exact fun c _ => (shapedAt_fresh c).self

/-- A particle that has not occurred has not begun. -/
theorem Shaped.eq_fresh (h : n.Shaped st) (hcount : st.count = 0) : st = .fresh := by
  cases st with
  | leaf k => exact congrArg Progress.leaf hcount
  | _ =>
    cases n with
    | group o c cs => cases c <;> first | exact h.elim | exact absurd hcount h.1.ne'
    | _ => exact h.elim

/-- An occurrence is under way only in a group that has occurred. -/
theorem Shaped.count_pos_of_inside {l : Node} (h : (group o c cs).Shaped st)
    (hl : l ∈ insideLeaves cs st) : 0 < st.count := by
  rcases Nat.eq_zero_or_pos st.count with hcount | hcount
  · rw [h.eq_fresh hcount] at hl
    cases hl
  · exact hcount

theorem lateLeaves_group :
    (group o c cs).lateLeaves = lateInside cs c ++
      if (group o c cs).renewable then (group o c cs).firstLeaves else [] := by
  cases c <;> rfl

theorem lateLeaves_of_leaf {s : Symbol} (hs : n.symbol? = some s) :
    n.lateLeaves = if n.renewable then n.firstLeaves else [] := by
  cases n <;> cases hs <;> rfl

end Shapes

/-! ### Where a particle might as well end -/

section Ends

/-- A particle that has occurred and is not full may occur more than once. -/
theorem multiple_of_canStart {n : Node} {st : Progress} (hcount : 0 < st.count)
    (hstart : n.canStart st = true) : n.occurs.multiple = true := by
  rw [canStart, Bool.and_eq_true, Bool.not_eq_true'] at hstart
  have hne : ∀ max, n.occurs.max = some max → max ≠ 0 ∧ max ≠ 1 := fun max hmax => by
    have := Occurs.full_eq_false_iff.1 hstart.1 max hmax
    omega
  rw [Occurs.multiple, Bool.and_eq_true, bne_iff_ne, bne_iff_ne]
  exact ⟨fun h => (hne 0 h).1 rfl, fun h => (hne 1 h).2 rfl⟩

/-- A further occurrence starts only after one that is complete. -/
theorem complete_of_canStart {n : Node} {st : Progress} (hcount : 0 < st.count)
    (hstart : n.canStart st = true) : n.complete st = true := by
  rw [canStart, Bool.and_eq_true, Bool.or_eq_true, decide_eq_true_eq] at hstart
  exact hstart.2.resolve_left hcount.ne'

/-- A particle that has occurred and may end can start once more only if it is renewable. -/
theorem renewable_of_canEnd {n : Node} {st : Progress} (hcount : 0 < st.count)
    (hend : n.canEnd st = true) (hstart : n.canStart st = true) : n.renewable = true := by
  have hmultiple := multiple_of_canStart hcount hstart
  rw [canEnd, mayEnd, if_neg hcount.ne', Bool.and_eq_true, Bool.or_eq_true,
    decide_eq_true_eq] at hend
  rw [canStart, Bool.and_eq_true, Bool.not_eq_true'] at hstart
  have hwithin := Occurs.full_eq_false_iff.1 hstart.1
  rw [renewable, hmultiple, Bool.true_and, Bool.or_eq_true]
  refine hend.2.imp_left fun hmin => ?_
  rw [Occurs.repeatable]
  split
  next max hmax =>
    have := hwithin max hmax
    exact decide_eq_true (by omega)
  next => rfl

/-- The leaves offered where a tree that has occurred might as well end are late. -/
def OffersLate (n : Node) : Prop := ∀ st, n.ShapedAt st → 0 < st.count → n.canEnd st = true →
  n.nextLeaves st ⊆ n.lateLeaves

theorem OffersLate.subset_endLeaves {n : Node} (h : OffersLate n) {st : Progress}
    (hst : n.ShapedAt st) (hend : n.canEnd st = true) : n.nextLeaves st ⊆ n.endLeaves := by
  intro l hl
  rw [endLeaves, List.mem_append]
  rcases Nat.eq_zero_or_pos st.count with hcount | hcount
  · obtain rfl := hst.self.eq_fresh hcount
    have hnullable : n.nullable = true := hend
    rw [nextLeaves_fresh] at hl
    rw [if_pos hnullable]
    exact Or.inr (mem_of_mem_ite hl)
  · exact Or.inl (h st hst hcount hend hl)

variable {cs : List Node} {st : Progress} (hcs : ∀ c ∈ cs, OffersLate c)

include hcs

theorem sequenceNextLeaves_subset_late {i : Nat} (hcount : 0 < st.count)
    (hst : ∀ p ∈ placesAt cs i st, p.1.Shaped p.2) (hend : sequenceCanEnd cs i st = true) :
    sequenceNextLeaves cs i st ⊆ sequenceLateLeaves cs := by
  induction cs generalizing i with
  | nil => nofun
  | cons c cs ih =>
    rw [List.forall_mem_cons] at hcs
    intro l hl
    rw [sequenceLateLeaves, List.mem_append]
    cases i with
    | zero =>
      rw [sequenceCanEnd, Bool.and_eq_true] at hend
      rw [sequenceNextLeaves, List.mem_append] at hl
      rw [if_pos hend.2, List.mem_append]
      exact Or.inl (hl.imp (fun hl => hcs.1 st hst hcount hend.1 hl) mem_of_mem_ite)
    | succ i => exact Or.inr (ih hcs.2 hst hend hl)

theorem branchNextLeaves_subset_late {i : Nat} (hcount : 0 < st.count)
    (hst : ∀ p ∈ placesAt cs i st, p.1.Shaped p.2) (hend : branchCanEnd cs i st = true) :
    branchNextLeaves cs i st ⊆ choiceLateLeaves cs := by
  induction cs generalizing i with
  | nil => nofun
  | cons c cs ih =>
    rw [List.forall_mem_cons] at hcs
    intro l hl
    rw [choiceLateLeaves, List.mem_append]
    cases i with
    | zero => exact Or.inl (hcs.1 st hst hcount hend hl)
    | succ i => exact Or.inr (ih hcs.2 hst hend hl)

theorem allNextLeaves_subset_late {sts : List Progress}
    (hst : ∀ p ∈ placesEach cs sts, p.1.Shaped p.2) (hend : allCanEnd cs sts = true) :
    allNextLeaves cs sts ⊆ allLateLeaves cs := by
  induction cs generalizing sts with
  | nil => cases sts <;> nofun
  | cons c cs ih =>
    rw [List.forall_mem_cons] at hcs
    cases sts with
    | nil => nofun
    | cons st sts =>
      rw [placesEach, List.forall_mem_append] at hst
      rw [allCanEnd, Bool.and_eq_true] at hend
      intro l hl
      rw [allNextLeaves, List.mem_append] at hl
      rw [allLateLeaves, List.mem_append]
      refine hl.imp (fun hl => ?_) fun hl => ih hcs.2 hst.2 hend.2 hl
      exact hcs.1.subset_endLeaves hst.1 hend.1 hl

/-- What is offered inside an occurrence that might as well end is late. -/
theorem insideLeaves_subset_late {o : Occurs} {c : Compositor} (hst : (group o c cs).ShapedAt st)
    (hend : (group o c cs).complete st = true) : insideLeaves cs st ⊆ lateInside cs c := by
  have hshaped := hst.self
  cases st with
  | leaf k => nofun
  | sequence k i cur =>
    cases c <;> simp only [Shaped] at hshaped
    exact sequenceNextLeaves_subset_late hcs hshaped.2.2 hst.inside hend
  | choice k i cur =>
    cases c <;> simp only [Shaped] at hshaped
    exact branchNextLeaves_subset_late hcs hshaped.2.2 hst.inside hend
  | all k sts =>
    cases c <;> simp only [Shaped] at hshaped
    exact allNextLeaves_subset_late hcs hst.inside hend

end Ends

theorem offersLate (n : Node) : OffersLate n := by
  induction n using Node.induct with
  | leaf n s hs =>
    intro st hst hcount hend l hl
    rw [nextLeaves_of_leaf hs] at hl
    cases hstart : n.canStart st with
    | false =>
      rw [hstart] at hl
      cases hl
    | true =>
      rw [hstart] at hl
      rw [lateLeaves_of_leaf hs, renewable_of_canEnd hcount hend hstart, firstLeaves_of_leaf hs]
      exact hl
  | group o c cs ih =>
    intro st hst hcount hend l hl
    rw [nextLeaves_group, List.mem_append] at hl
    rw [lateLeaves_group, List.mem_append]
    refine hl.imp (fun hl => ?_) fun hl => ?_
    · rw [canEnd, mayEnd, if_neg hcount.ne', Bool.and_eq_true] at hend
      exact insideLeaves_subset_late ih hst hend.1 hl
    · cases hstart : (group o c cs).canStart st with
      | false =>
        rw [hstart] at hl
        cases hl
      | true =>
        rw [renewable_of_canEnd hcount hend hstart]
        exact mem_of_mem_ite hl

/-! ### What a step takes an element for -/

/-- A term is that of an element. -/
def ForElement (t? : Option Term) : Prop := ∃ d, t? = some (.element d)

/-- Among some leaves there is a wildcard that matches a name and stands in front of a leaf. -/
def Overtaken (name : Name) (ls : List Node) (fronts : Node → Prop) : Prop :=
  ∃ l ∈ ls, l.IsWildcard ∧ l.Matches name ∧ fronts l

/-- Nothing is taken, or an element is, or a wildcard that is offered. -/
theorem Picks.cases {name : Name} {ls : List Node} {t? : Option Term} (h : Picks name ls t?) :
    t? = none ∨ ForElement t? ∨ Overtaken name ls fun _ => True := by
  cases t? with
  | none => exact Or.inl rfl
  | some t =>
    obtain ⟨l, hl, hmatch, hterm⟩ := h
    cases t with
    | element d => exact Or.inr (Or.inl ⟨d, rfl⟩)
    | wildcard p => exact Or.inr (Or.inr ⟨l, hl, ⟨p, hterm⟩, hmatch, trivial⟩)

theorem Overtaken.imp {name : Name} {ls ls' : List Node} {p q : Node → Prop}
    (h : Overtaken name ls p) (hls : ls ⊆ ls') (hpq : ∀ l ∈ ls, p l → q l) :
    Overtaken name ls' q := by
  obtain ⟨l, hl, hwildcard, hmatch, hp⟩ := h
  exact ⟨l, hls hl, hwildcard, hmatch, hpq l hl hp⟩

theorem ForElement.or {t? t?' : Option Term} (h : ForElement t?) : ForElement (t?.or t?') := by
  obtain ⟨d, rfl⟩ := h
  exact ⟨d, rfl⟩

/-- Of two matches one of an element is followed, if there is one. -/
theorem forElement_prefer {α : Type} {a b : Option (α × Term)}
    (h : ForElement (a.map Prod.snd) ∨ ForElement (b.map Prod.snd)) :
    ForElement ((preferElement a b).map Prod.snd) := by
  cases a with
  | none => exact h.resolve_left fun ⟨_, h⟩ => by cases h
  | some a =>
    cases b with
    | none => exact h.resolve_right fun ⟨_, h⟩ => by cases h
    | some b =>
      obtain ⟨x, t⟩ := a
      obtain ⟨y, u⟩ := b
      cases t with
      | element d => exact ⟨d, rfl⟩
      | wildcard p =>
        cases u with
        | element d => exact ⟨d, rfl⟩
        | wildcard q =>
          rcases h with ⟨d, h⟩ | ⟨d, h⟩ <;> cases h

section Steps

variable {name : Name} {e : Node}

/-- A step of a tree takes the name of an element offered for an element, unless a wildcard of the
tree stands in front. -/
def Prefers (name : Name) (e n : Node) : Prop := ∀ st, n.ShapedAt st → e ∈ n.nextLeaves st →
  ForElement ((n.step name st).map Prod.snd) ∨
    Overtaken name (n.nextLeaves st) fun l => n.Fronts l e

variable (hdeclared : e.IsDeclared) (hmatch : e.Matches name)

include hdeclared hmatch

theorem prefers_leaf {n : Node} {s : Symbol} (hs : n.symbol? = some s) : Prefers name e n := by
  intro st _ he
  have hpicks := picks_step name n st
  rw [nextLeaves_of_leaf hs] at he hpicks
  cases hstart : n.canStart st with
  | false =>
    rw [hstart] at he
    cases he
  | true =>
    rw [hstart, if_pos rfl] at he hpicks
    obtain rfl := List.mem_singleton.1 he
    left
    cases hstep : (e.step name st).map Prod.snd with
    | none =>
      rw [hstep] at hpicks
      exact absurd hmatch (hpicks e he)
    | some t =>
      rw [hstep] at hpicks
      obtain ⟨l, hl, -, hterm⟩ := hpicks
      obtain rfl := List.mem_singleton.1 hl
      obtain ⟨d, hd⟩ := hdeclared
      exact ⟨d, hterm.symm.trans hd⟩

omit hdeclared hmatch

variable {cs : List Node} (hcs : ∀ c ∈ cs, Prefers name e c)

include hcs

theorem prefers_sequenceStep {i : Nat} {st : Progress}
    (hst : ∀ p ∈ placesAt cs i st, p.1.Shaped p.2) (he : e ∈ sequenceNextLeaves cs i st) :
    ForElement ((sequenceStep name cs i st).map (·.2.2)) ∨
      Overtaken name (sequenceNextLeaves cs i st) fun l =>
        SequenceFronts l e cs ∨ ∃ c ∈ cs, c.Fronts l e := by
  induction cs generalizing i st with
  | nil => cases he
  | cons c cs ih =>
    rw [List.forall_mem_cons] at hcs
    cases i with
    | zero =>
      rw [map_sequenceStep_zero]
      rw [sequenceNextLeaves] at he ⊢
      rcases List.mem_append.1 he with he | he
      · refine (hcs.1 st hst he).imp ForElement.or fun h => ?_
        exact h.imp (List.subset_append_left _ _) fun l _ hl =>
          Or.inr ⟨c, List.mem_cons_self, hl⟩
      · -- the element is one of what follows, so the current particle may end
        cases hend : c.canEnd st with
        | false =>
          rw [hend] at he
          cases he
        | true =>
          rw [hend, if_pos rfl] at he
          rw [if_pos rfl, if_pos rfl]
          rcases (picks_step name c st).cases with hnone | helement | hwildcard
          · rw [hnone, Option.none_or]
            rw [← sequenceNextLeaves_fresh] at he ⊢
            refine (ih hcs.2 (shapedAt_placesAt_fresh cs) he).imp_right fun h => ?_
            refine h.imp (List.subset_append_right _ _) fun l _ hl => ?_
            exact hl.imp Or.inr List.exists_mem_cons_of_exists
          · exact Or.inl helement.or
          · refine Or.inr (hwildcard.imp (List.subset_append_left _ _) fun l hl _ => ?_)
            exact Or.inl (Or.inl ⟨(offersLate c).subset_endLeaves hst hend hl, he⟩)
    | succ i =>
      rw [sequenceStep, Option.map_map]
      refine (ih hcs.2 hst he).imp_right fun h => h.imp (List.Subset.refl _) fun l _ hl => ?_
      exact hl.imp Or.inr List.exists_mem_cons_of_exists

theorem prefers_branchStep {i : Nat} {st : Progress}
    (hst : ∀ p ∈ placesAt cs i st, p.1.Shaped p.2) (he : e ∈ branchNextLeaves cs i st) :
    ForElement ((branchStep name cs i st).map Prod.snd) ∨
      Overtaken name (branchNextLeaves cs i st) fun l => ∃ c ∈ cs, c.Fronts l e := by
  induction cs generalizing i with
  | nil => cases he
  | cons c cs ih =>
    rw [List.forall_mem_cons] at hcs
    cases i with
    | zero =>
      refine (hcs.1 st hst he).imp_right fun h => h.imp (List.Subset.refl _) fun l _ hl => ?_
      exact ⟨c, List.mem_cons_self, hl⟩
    | succ i =>
      refine (ih hcs.2 hst he).imp_right fun h => ?_
      exact h.imp (List.Subset.refl _) fun _ _ => List.exists_mem_cons_of_exists

theorem prefers_choiceStep (he : e ∈ eachFirstLeaves cs) :
    ForElement ((choiceStep name cs).map Prod.snd) ∨
      Overtaken name (eachFirstLeaves cs) fun l => ∃ c ∈ cs, c.Fronts l e := by
  induction cs with
  | nil => cases he
  | cons c cs ih =>
    rw [List.forall_mem_cons] at hcs
    rw [choiceStep]
    rw [eachFirstLeaves] at he ⊢
    rcases List.mem_append.1 he with he | he
    · have hfirst := hcs.1 .fresh (shapedAt_fresh c)
      rw [nextLeaves_fresh] at hfirst
      refine (hfirst he).imp (fun h => forElement_prefer (Or.inl ?_)) fun h => ?_
      · rw [Option.map_map]
        exact h
      · exact h.imp (List.subset_append_left _ _) fun l _ hl => ⟨c, List.mem_cons_self, hl⟩
    · refine (ih hcs.2 he).imp (fun h => forElement_prefer (Or.inr ?_)) fun h => ?_
      · rw [Option.map_map]
        exact h
      · exact h.imp (List.subset_append_right _ _) fun _ _ => List.exists_mem_cons_of_exists

theorem prefers_allStep {sts : List Progress}
    (hst : ∀ p ∈ placesEach cs sts, p.1.Shaped p.2) (he : e ∈ allNextLeaves cs sts) :
    ForElement ((allStep name cs sts).map Prod.snd) ∨
      Overtaken name (allNextLeaves cs sts) fun l => ∃ c ∈ cs, c.Fronts l e := by
  induction cs generalizing sts with
  | nil => cases he
  | cons c cs ih =>
    rw [List.forall_mem_cons] at hcs
    cases sts with
    | nil => cases he
    | cons st sts =>
      rw [placesEach, List.forall_mem_append] at hst
      rw [allStep]
      rw [allNextLeaves] at he ⊢
      rcases List.mem_append.1 he with he | he
      · refine (hcs.1 st hst.1 he).imp (fun h => forElement_prefer (Or.inl ?_)) fun h => ?_
        · rw [Option.map_map]
          exact h
        · exact h.imp (List.subset_append_left _ _) fun l _ hl => ⟨c, List.mem_cons_self, hl⟩
      · refine (ih hcs.2 hst.2 he).imp (fun h => forElement_prefer (Or.inr ?_)) fun h => ?_
        · rw [Option.map_map]
          exact h
        · exact h.imp (List.subset_append_right _ _) fun _ _ => List.exists_mem_cons_of_exists

variable {o : Occurs} {c : Compositor}

theorem prefers_stepInside {st : Progress} (hst : (group o c cs).ShapedAt st)
    (he : e ∈ insideLeaves cs st) :
    ForElement ((stepInside name cs st).map Prod.snd) ∨
      Overtaken name (insideLeaves cs st) fun l => (group o c cs).Fronts l e := by
  have hshaped := hst.self
  cases st with
  | leaf k => cases he
  | sequence k i cur =>
    cases c <;> simp only [Shaped] at hshaped
    rw [stepInside, Option.map_map]
    refine (prefers_sequenceStep hcs hst.inside he).imp_right fun h =>
      h.imp (List.Subset.refl _) fun l _ hl => ?_
    rcases hl with hl | hl
    · exact ⟨_, self_mem_subtrees _, Or.inl ⟨rfl, hl⟩⟩
    · exact .of_child hl
  | choice k i cur =>
    rw [stepInside, Option.map_map]
    refine (prefers_branchStep hcs hst.inside he).imp_right fun h =>
      h.imp (List.Subset.refl _) fun _ _ => Fronts.of_child
  | all k sts =>
    rw [stepInside, Option.map_map]
    refine (prefers_allStep hcs hst.inside he).imp_right fun h =>
      h.imp (List.Subset.refl _) fun _ _ => Fronts.of_child

theorem prefers_stepAfresh (k : Nat) (he : e ∈ (group o c cs).firstLeaves) :
    ForElement ((stepAfresh name cs k c).map Prod.snd) ∨
      Overtaken name (group o c cs).firstLeaves fun l => (group o c cs).Fronts l e := by
  cases c with
  | sequence =>
    rw [firstLeaves, ← sequenceNextLeaves_fresh] at he ⊢
    rw [stepAfresh, Option.map_map]
    refine (prefers_sequenceStep hcs (shapedAt_placesAt_fresh cs) he).imp_right fun h =>
      h.imp (List.Subset.refl _) fun l _ hl => ?_
    rcases hl with hl | hl
    · exact ⟨_, self_mem_subtrees _, Or.inl ⟨rfl, hl⟩⟩
    · exact .of_child hl
  | choice =>
    rw [stepAfresh, Option.map_map]
    refine (prefers_choiceStep hcs he).imp_right fun h =>
      h.imp (List.Subset.refl _) fun _ _ => Fronts.of_child
  | all =>
    have hfirst : (group o .all cs).firstLeaves = allNextLeaves cs (cs.map fun _ => .fresh) :=
      (allNextLeaves_fresh cs).symm
    rw [hfirst] at he ⊢
    rw [stepAfresh, Option.map_map]
    refine (prefers_allStep hcs (shapedAt_placesEach_fresh cs) he).imp_right fun h =>
      h.imp (List.Subset.refl _) fun _ _ => Fronts.of_child

end Steps

/-- **A step takes the name of an element offered for an element, unless a wildcard stands in
front.** -/
theorem prefers {name : Name} {e : Node} (hdeclared : e.IsDeclared) (hmatch : e.Matches name)
    (n : Node) : Prefers name e n := by
  induction n using Node.induct with
  | leaf n s hs => exact prefers_leaf hdeclared hmatch hs
  | group o c cs ih =>
    intro st hst he
    rw [map_step_group]
    rw [nextLeaves_group] at he ⊢
    rcases List.mem_append.1 he with he | he
    · refine (prefers_stepInside ih hst he).imp ForElement.or fun h => ?_
      exact h.imp (List.subset_append_left _ _) fun l _ hl => hl
    · -- the element begins a further occurrence
      cases hstart : (group o c cs).canStart st with
      | false =>
        rw [hstart] at he
        cases he
      | true =>
        rw [hstart, if_pos rfl] at he
        rw [if_pos rfl, if_pos rfl]
        have hinside : Picks name (insideLeaves cs st) ((stepInside name cs st).map Prod.snd) :=
          picks_stepInside (fun m _ => picks_step name m) st
        rcases hinside.cases with hnone | helement | hwildcard
        · rw [hnone, Option.none_or]
          refine (prefers_stepAfresh ih _ he).imp_right fun h => ?_
          exact h.imp (List.subset_append_right _ _) fun l _ hl => hl
        · exact Or.inl helement.or
        · refine Or.inr (hwildcard.imp (List.subset_append_left _ _) fun l hl _ => ?_)
          have hcount := hst.self.count_pos_of_inside hl
          refine ⟨_, self_mem_subtrees _, Or.inr ⟨multiple_of_canStart hcount hstart, ?_, he⟩⟩
          exact insideLeaves_subset_late (fun m _ => offersLate m) hst
            (complete_of_canStart hcount hstart) hl

end Node

namespace Automaton

variable {m : Automaton} {g : ModelGroup} {accepts : ElementId → List Name} {version : Version}
  {limits : Limits}

/-- Whatever has been taken, an element that is offered goes to an element. -/
def PrefersElements (m : Automaton) (accepts : ElementId → List Name) : Prop :=
  ∀ w st, m.replayable.run w = .ok st → ∀ d, .element d ∈ m.candidates st →
    ∀ name ∈ accepts d, ∃ st' e, m.step st name = some (st', .element e)

/-- In a state, a wildcard offered matches a name and stands in front of the declaration of an
element that matches it too. -/
def Overtakes (m : Automaton) (st : Progress) (name : Name) (d : ElementId) : Prop :=
  ∃ e, e.leafTerm? = some (.element d) ∧ e.Matches name ∧
    Node.Overtaken name (m.nextLeaves st) fun l => m.root.Fronts l e

/-- The name of an element offered goes to an element, unless a wildcard stands in front. -/
theorem exists_step_of_element (hm : compile g accepts version limits = .ok m) {w : List Name}
    {st : Progress} (hrun : m.replayable.run w = .ok st) {d : ElementId}
    (hd : .element d ∈ m.candidates st) {name : Name} (hname : name ∈ accepts d) :
    ∃ st' t, m.step st name = some (st', t) ∧
      ((∃ e, t = .element e) ∨ m.Overtakes st name d) := by
  have hshaped : m.root.ShapedAt st := fun p hp => ((wellFormed_of_run hrun).1 p hp).shaped
  obtain ⟨l, hl, hterm, hmatch⟩ := exists_leaf_of_element (namedBy_of_compile hm) hd hname
  obtain ⟨⟨st', t⟩, hstep⟩ := Option.isSome_iff_exists.1 (isSome_step_of_leaf hl hmatch)
  refine ⟨st', t, hstep, ?_⟩
  refine (Node.prefers ⟨d, hterm⟩ hmatch m.root st hshaped hl).imp (fun h => ?_) fun h =>
    ⟨l, hterm, hmatch, h⟩
  rw [show m.root.step name st = some (st', t) from hstep] at h
  obtain ⟨e, he⟩ := h
  exact ⟨e, Option.some.inj he⟩

/-- **Only a wildcard in front takes what an element is offered for.**  In every state that steps
lead to, the name of an element offered goes to an element, unless a wildcard offered as well
stands in front of it.  Where no wildcard stands in front of an element with a name that it
matches, elements are always preferred. -/
theorem prefersElements_of_yielding (hm : compile g accepts version limits = .ok m) :
    (∀ w st, m.replayable.run w = .ok st → ∀ d, .element d ∈ m.candidates st →
      ∀ name ∈ accepts d, ∃ st' t, m.step st name = some (st', t) ∧
        ((∃ e, t = .element e) ∨ m.Overtakes st name d)) ∧
      (m.root.Yielding → m.PrefersElements accepts) := by
  refine ⟨fun w st hrun d hd name hname => exists_step_of_element hm hrun hd hname,
    fun hyielding w st hrun d hd name hname => ?_⟩
  obtain ⟨st', t, hstep, htaken⟩ := exists_step_of_element hm hrun hd hname
  rcases htaken with ⟨e, rfl⟩ | ⟨e, he, hmatch, l, -, hwildcard, hlmatch, hfronts⟩
  · exact ⟨st', e, hstep⟩
  · exact absurd hmatch (hyielding l e hfronts hwildcard ⟨d, he⟩ name hlmatch)

/-- Any elements, elements `a` among them, in any order. -/
def anyAndOne : ModelGroup :=
  ⟨.choice, [.any ⟨.any, .lax, .once⟩, .element ⟨0⟩ .once], .anyNumber⟩

/-- The content model of `anyAndOne`. -/
def anyAndOneModel : Automaton :=
  ⟨.group .anyNumber .choice [.wildcard .once 1 .any .lax,
    .element .once 2 ⟨0⟩ (twoNames ⟨0⟩)], .standard⟩

/-- No particle of a choice stands in front of another one, also in the next round. -/
theorem yielding_anyAndOneModel : anyAndOneModel.root.Yielding := by
  rintro l l' ⟨m, hm, hfronts⟩
  have hsubtrees : anyAndOneModel.root.subtrees = [anyAndOneModel.root,
      .wildcard .once 1 .any .lax, .element .once 2 ⟨0⟩ (twoNames ⟨0⟩)] := rfl
  rw [hsubtrees, List.mem_cons, List.mem_cons, List.mem_singleton] at hm
  obtain rfl | rfl | rfl := hm
  · obtain ⟨hseq, -⟩ | ⟨-, hlate, -⟩ := hfronts
    · cases hseq
    · cases hlate
  · exact hfronts.elim
  · exact hfronts.elim

/-- After an `a` and a `b`, which is taken by the wildcard, a further `a` is an element again. -/
theorem prefersElements_of_yielding_anyAndOne :
    compile anyAndOne twoNames .v11 {} = .ok anyAndOneModel ∧ anyAndOneModel.root.Yielding ∧
      anyAndOneModel.replayable.run (["a", "b"].map .unqualified) =
        .ok (.choice 2 0 (.leaf 1)) ∧
      anyAndOneModel.candidates (.choice 2 0 (.leaf 1)) = [.wildcard .lax, .element ⟨0⟩] ∧
      ∃ st' e, anyAndOneModel.step (.choice 2 0 (.leaf 1)) (.unqualified "a") =
        some (st', .element e) := by
  have hm : compile anyAndOne twoNames .v11 {} = .ok anyAndOneModel := rfl
  have hrun : anyAndOneModel.replayable.run (["a", "b"].map .unqualified) =
      .ok (.choice 2 0 (.leaf 1)) := rfl
  have hoffered : anyAndOneModel.candidates (.choice 2 0 (.leaf 1)) =
      [.wildcard .lax, .element ⟨0⟩] := rfl
  have hprefers := (prefersElements_of_yielding hm).2 yielding_anyAndOneModel
  exact ⟨hm, yielding_anyAndOneModel, hrun, hoffered,
    hprefers _ _ hrun ⟨0⟩ (by simp [hoffered]) _ (List.mem_singleton_self _)⟩

/-- An element `a` behind one element or none that may be any. -/
def anyThenOne : ModelGroup :=
  ⟨.sequence, [.any ⟨.any, .lax, ⟨0, some 1⟩⟩, .element ⟨0⟩ .once], .once⟩

/-- The content model of `anyThenOne`. -/
def anyThenOneModel : Automaton :=
  ⟨.group .once .sequence [.wildcard ⟨0, some 1⟩ 1 .any .lax,
    .element .once 2 ⟨0⟩ (twoNames ⟨0⟩)], .standard⟩

/-- A sequence asks its wildcard first: it takes the `a` that is offered as an element. -/
theorem not_prefersElements_anyThenOne :
    compile anyThenOne twoNames .v11 {} = .ok anyThenOneModel ∧
      .element ⟨0⟩ ∈ anyThenOneModel.candidates .fresh ∧
      anyThenOneModel.step .fresh (.unqualified "a") =
        some (.sequence 1 0 (.leaf 1), .wildcard .lax) ∧
      ¬ anyThenOneModel.PrefersElements twoNames := by
  have hoffered : .element ⟨0⟩ ∈ anyThenOneModel.candidates .fresh := by decide
  have hstep : anyThenOneModel.step .fresh (.unqualified "a") =
      some (.sequence 1 0 (.leaf 1), .wildcard .lax) := rfl
  refine ⟨rfl, hoffered, hstep, fun hprefers => ?_⟩
  obtain ⟨st', e, htaken⟩ := hprefers [] .fresh rfl ⟨0⟩ hoffered (.unqualified "a")
    (List.mem_singleton_self _)
  rw [hstep] at htaken
  cases htaken

end Automaton
end ContentModel
end SchemaAssist
