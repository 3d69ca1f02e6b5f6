/-
# What is offered can be taken

The terms that may come next and the step that takes an element are found by two recursions over the
tree: one collects, the other stops at a match and prefers some matches to others.  Both pass the
same leaves (`Node.nextLeaves`).  The terms offered are those of these leaves
(`filterMap_nextLeaves`), and a step picks one of them that matches the name, if there is any
(`picks_step`).  So, whatever the progress, exactly the names that a leaf offered matches can be
taken (`Automaton.step_iff_offered`).
-/

import SchemaAssist.Proofs.Soundness

namespace SchemaAssist
namespace ContentModel
namespace Node

/-- A leaf that matches a name. -/
def Matches (n : Node) (name : Name) : Prop :=
  ∃ s, n.symbol? = some s ∧ s.matcher.matchesName name = true

mutual

/-- The leaves that can start an occurrence of a particle. -/
def firstLeaves : Node → List Node
  | group _ .sequence cs => sequenceFirstLeaves cs
  | group _ _ cs => eachFirstLeaves cs
  | n => [n]

/-- The leaves that can start a sequence. -/
def sequenceFirstLeaves : List Node → List Node
  | [] => []
  | c :: cs =>
    (if c.canStart .fresh then c.firstLeaves else []) ++
      if c.nullable then sequenceFirstLeaves cs else []

/-- The leaves that can start one of several particles. -/
def eachFirstLeaves : List Node → List Node
  | [] => []
  | c :: cs => (if c.canStart .fresh then c.firstLeaves else []) ++ eachFirstLeaves cs

end

mutual

/-- The leaves of a particle that can take the next element. -/
def nextLeaves : Node → Progress → List Node
  | n@(group _ _ cs), st =>
    (match st with
      | .leaf _ => []
      | .sequence _ i cur => sequenceNextLeaves cs i cur
      | .choice _ i cur => branchNextLeaves cs i cur
      | .all _ sts => allNextLeaves cs sts) ++
      if n.canStart st then n.firstLeaves else []
  | n, st => if n.canStart st then n.firstLeaves else []

/-- The leaves of a sequence that can take the next element. -/
def sequenceNextLeaves : List Node → Nat → Progress → List Node
  | [], _, _ => []
  | c :: cs, 0, st => nextLeaves c st ++ if c.canEnd st then sequenceFirstLeaves cs else []
  | _ :: cs, i + 1, st => sequenceNextLeaves cs i st

/-- The leaves of the particle taken of a choice that can take the next element. -/
def branchNextLeaves : List Node → Nat → Progress → List Node
  | [], _, _ => []
  | c :: _, 0, st => nextLeaves c st
  | _ :: cs, i + 1, st => branchNextLeaves cs i st

/-- The leaves of an unordered group that can take the next element. -/
def allNextLeaves : List Node → List Progress → List Node
  | c :: cs, st :: sts => nextLeaves c st ++ allNextLeaves cs sts
  | _, _ => []

end

/-- The leaves inside the occurrence of a group under way that can take the next element. -/
def insideLeaves (cs : List Node) : Progress → List Node
  | .leaf _ => []
  | .sequence _ i st => sequenceNextLeaves cs i st
  | .choice _ i st => branchNextLeaves cs i st
  | .all _ sts => allNextLeaves cs sts

theorem nextLeaves_group (o : Occurs) (c : Compositor) (cs : List Node) (st : Progress) :
    (group o c cs).nextLeaves st = insideLeaves cs st ++
      if (group o c cs).canStart st then (group o c cs).firstLeaves else [] := by
  cases st <;> rfl

theorem firstLeaves_of_leaf {n : Node} {s : Symbol} (hs : n.symbol? = some s) :
    n.firstLeaves = [n] := by
  cases n <;> cases hs <;> rfl

theorem nextLeaves_of_leaf {n : Node} {s : Symbol} (hs : n.symbol? = some s) (st : Progress) :
    n.nextLeaves st = if n.canStart st then [n] else [] := by
  cases n <;> cases hs <;> rfl

/-- Before its first occurrence a particle offers what can start one. -/
theorem nextLeaves_fresh (n : Node) :
    n.nextLeaves .fresh = if n.canStart .fresh then n.firstLeaves else [] := by
  cases n <;> rfl

theorem sequenceNextLeaves_fresh (cs : List Node) :
    sequenceNextLeaves cs 0 .fresh = sequenceFirstLeaves cs := by
  cases cs with
  | nil => rfl
  | cons c cs => rw [sequenceNextLeaves, nextLeaves_fresh, sequenceFirstLeaves]; rfl

theorem allNextLeaves_fresh (cs : List Node) :
    allNextLeaves cs (cs.map fun _ => .fresh) = eachFirstLeaves cs := by
  induction cs with
  | nil => rfl
  | cons c cs ih => rw [List.map_cons, allNextLeaves, nextLeaves_fresh, ih, eachFirstLeaves]

/-! ### The terms offered are those of the leaves -/

section Terms

/-- The terms of leaves that count only under a condition. -/
theorem filterMap_leafTerm?_ite (b : Bool) (ls : List Node) :
    (if b then ls else []).filterMap leafTerm? = if b then ls.filterMap leafTerm? else [] := by
  cases b <;> rfl

section Members

variable {cs : List Node}

theorem filterMap_sequenceFirstLeaves
    (hcs : ∀ c ∈ cs, c.firstLeaves.filterMap leafTerm? = c.firstTerms) :
    (sequenceFirstLeaves cs).filterMap leafTerm? = sequenceFirstTerms cs := by
  induction cs with
  | nil => rfl
  | cons c cs ih =>
    rw [List.forall_mem_cons] at hcs
    rw [sequenceFirstLeaves, List.filterMap_append, filterMap_leafTerm?_ite,
      filterMap_leafTerm?_ite, hcs.1, ih hcs.2, sequenceFirstTerms]

theorem filterMap_eachFirstLeaves
    (hcs : ∀ c ∈ cs, c.firstLeaves.filterMap leafTerm? = c.firstTerms) :
    (eachFirstLeaves cs).filterMap leafTerm? = eachFirstTerms cs := by
  induction cs with
  | nil => rfl
  | cons c cs ih =>
    rw [List.forall_mem_cons] at hcs
    rw [eachFirstLeaves, List.filterMap_append, filterMap_leafTerm?_ite, hcs.1, ih hcs.2,
      eachFirstTerms]

end Members

theorem filterMap_firstLeaves (n : Node) : n.firstLeaves.filterMap leafTerm? = n.firstTerms := by
  induction n using Node.induct with
  | leaf n s hs => cases n <;> cases hs <;> rfl
  | group o c cs ih =>
    cases c with
    | sequence => exact filterMap_sequenceFirstLeaves ih
    | choice => exact filterMap_eachFirstLeaves ih
    | all => exact filterMap_eachFirstLeaves ih

section Members

variable {cs : List Node}
  (hcs : ∀ c ∈ cs, ∀ st, (c.nextLeaves st).filterMap leafTerm? = c.nextTerms st)

include hcs

theorem filterMap_sequenceNextLeaves (i : Nat) (st : Progress) :
    (sequenceNextLeaves cs i st).filterMap leafTerm? = sequenceNextTerms cs i st := by
  induction cs generalizing i with
  | nil => rfl
  | cons c cs ih =>
    rw [List.forall_mem_cons] at hcs
    cases i with
    | zero =>
      rw [sequenceNextLeaves, List.filterMap_append, filterMap_leafTerm?_ite, hcs.1,
        filterMap_sequenceFirstLeaves fun c _ => filterMap_firstLeaves c, sequenceNextTerms]
      rfl
    | succ i => exact ih hcs.2 i

theorem filterMap_branchNextLeaves (i : Nat) (st : Progress) :
    (branchNextLeaves cs i st).filterMap leafTerm? = branchNextTerms cs i st := by
  induction cs generalizing i with
  | nil => rfl
  | cons c cs ih =>
    rw [List.forall_mem_cons] at hcs
    cases i with
    | zero => exact hcs.1 st
    | succ i => exact ih hcs.2 i

theorem filterMap_allNextLeaves (sts : List Progress) :
    (allNextLeaves cs sts).filterMap leafTerm? = allNextTerms cs sts := by
  induction cs generalizing sts with
  | nil => rfl
  | cons c cs ih =>
    rw [List.forall_mem_cons] at hcs
    cases sts with
    | nil => rfl
    | cons st sts => rw [allNextLeaves, List.filterMap_append, hcs.1, ih hcs.2, allNextTerms]

end Members

/-- **The terms offered are those of the leaves offered.** -/
theorem filterMap_nextLeaves (n : Node) (st : Progress) :
    (n.nextLeaves st).filterMap leafTerm? = n.nextTerms st := by
  induction n using Node.induct generalizing st with
  | leaf n s hs =>
    rw [nextLeaves_of_leaf hs, ← firstLeaves_of_leaf hs, filterMap_leafTerm?_ite,
      filterMap_firstLeaves]
    cases n <;> cases hs <;> rfl
  | group o c cs ih =>
    rw [nextLeaves_group, List.filterMap_append, filterMap_leafTerm?_ite, filterMap_firstLeaves]
    cases st with
    | leaf k => rfl
    | sequence k i st => rw [insideLeaves, filterMap_sequenceNextLeaves ih]; rfl
    | choice k i st => rw [insideLeaves, filterMap_branchNextLeaves ih]; rfl
    | all k sts => rw [insideLeaves, filterMap_allNextLeaves ih]; rfl

end Terms

/-! ### A step takes one of the leaves -/

/-- A term is that of one of some leaves that match a name; there is none if no leaf matches. -/
def Picks (name : Name) (ls : List Node) : Option Term → Prop
  | some t => ∃ l ∈ ls, l.Matches name ∧ l.leafTerm? = some t
  | none => ∀ l ∈ ls, ¬ l.Matches name

namespace Picks

variable {name : Name} {ls ls' : List Node} {t t' : Option Term}

theorem nil : Picks name [] none := fun _ h => absurd h List.not_mem_nil

/-- One pick before another. -/
theorem or (h : Picks name ls t) (h' : Picks name ls' t') : Picks name (ls ++ ls') (t.or t') := by
  cases t with
  | some t =>
    obtain ⟨l, hl, hmatch⟩ := h
    exact ⟨l, List.mem_append_left _ hl, hmatch⟩
  | none =>
    cases t' with
    | some t' =>
      obtain ⟨l, hl, hmatch⟩ := h'
      exact ⟨l, List.mem_append_right _ hl, hmatch⟩
    | none => exact fun l hl => (List.mem_append.1 hl).elim (h l) (h' l)

theorem ite (b : Bool) (h : Picks name ls t) :
    Picks name (if b then ls else []) (if b then t else none) := by
  cases b with
  | false => exact nil
  | true => exact h

/-- Of two picks the one that is preferred. -/
theorem prefer {α : Type} {a b : Option (α × Term)} (h : Picks name ls (a.map Prod.snd))
    (h' : Picks name ls' (b.map Prod.snd)) :
    Picks name (ls ++ ls') ((preferElement a b).map Prod.snd) := by
  cases a with
  | none => exact or h h'
  | some a =>
    cases b with
    | none => exact or h h'
    | some b =>
      rw [preferElement]
      split
      · exact or h h'
      · split
        · obtain ⟨l, hl, hmatch⟩ := h'
          exact ⟨l, List.mem_append_right _ hl, hmatch⟩
        · exact or h h'

end Picks

section Steps

variable {name : Name}

/-- The current particle of a sequence takes an element first; what follows counts where it may
end. -/
theorem map_sequenceStep_zero (c : Node) (cs : List Node) (st : Progress) :
    (sequenceStep name (c :: cs) 0 st).map (·.2.2) = ((c.step name st).map Prod.snd).or
      (if c.canEnd st then (sequenceStep name cs 0 .fresh).map (·.2.2) else none) := by
  rw [sequenceStep, canEnd]
  cases c.step name st with
  | some found => rfl
  | none =>
    simp only
    split
    · rw [Option.map_map, Option.map_none, Option.none_or]
      rfl
    · rfl

/-- The occurrence of a group under way takes an element first, a further one where it may start. -/
theorem map_step_group (o : Occurs) (c : Compositor) (cs : List Node) (st : Progress) :
    (step name (group o c cs) st).map Prod.snd = ((stepInside name cs st).map Prod.snd).or
      (if (group o c cs).canStart st then
        (stepAfresh name cs (st.count + 1) c).map Prod.snd else none) := by
  rw [step_group, Option.map_or]
  split <;> rfl

/-- A step of a tree takes one of the leaves offered. -/
def StepPicks (name : Name) (n : Node) : Prop :=
  ∀ st, Picks name (n.nextLeaves st) ((n.step name st).map Prod.snd)

variable {cs : List Node} (hcs : ∀ c ∈ cs, StepPicks name c)

include hcs

theorem picks_sequenceStep (i : Nat) (st : Progress) :
    Picks name (sequenceNextLeaves cs i st) ((sequenceStep name cs i st).map (·.2.2)) := by
  induction cs generalizing i st with
  | nil => exact .nil
  | cons c cs ih =>
    rw [List.forall_mem_cons] at hcs
    cases i with
    | zero =>
      have hlater := ih hcs.2 0 .fresh
      rw [sequenceNextLeaves_fresh] at hlater
      rw [map_sequenceStep_zero, sequenceNextLeaves]
      exact (hcs.1 st).or (hlater.ite _)
    | succ i =>
      rw [sequenceStep, Option.map_map]
      exact ih hcs.2 i st

theorem picks_branchStep (i : Nat) (st : Progress) :
    Picks name (branchNextLeaves cs i st) ((branchStep name cs i st).map Prod.snd) := by
  induction cs generalizing i with
  | nil => exact .nil
  | cons c cs ih =>
    rw [List.forall_mem_cons] at hcs
    cases i with
    | zero => exact hcs.1 st
    | succ i => exact ih hcs.2 i

theorem picks_choiceStep :
    Picks name (eachFirstLeaves cs) ((choiceStep name cs).map Prod.snd) := by
  induction cs with
  | nil => exact .nil
  | cons c cs ih =>
    rw [List.forall_mem_cons] at hcs
    have hfirst := hcs.1 .fresh
    rw [nextLeaves_fresh] at hfirst
    rw [choiceStep, eachFirstLeaves]
    refine .prefer ?_ ?_
    · rw [Option.map_map]
      exact hfirst
    · rw [Option.map_map]
      exact ih hcs.2

theorem picks_allStep (sts : List Progress) :
    Picks name (allNextLeaves cs sts) ((allStep name cs sts).map Prod.snd) := by
  induction cs generalizing sts with
  | nil => exact .nil
  | cons c cs ih =>
    rw [List.forall_mem_cons] at hcs
    cases sts with
    | nil => exact .nil
    | cons st sts =>
      rw [allStep, allNextLeaves]
      refine .prefer ?_ ?_
      · rw [Option.map_map]
        exact hcs.1 st
      · rw [Option.map_map]
        exact ih hcs.2 sts

theorem picks_stepInside (st : Progress) :
    Picks name (insideLeaves cs st) ((stepInside name cs st).map Prod.snd) := by
  cases st with
  | leaf k => exact .nil
  | sequence k i st =>
    rw [stepInside, Option.map_map]
    exact picks_sequenceStep hcs i st
  | choice k i st =>
    rw [stepInside, Option.map_map]
    exact picks_branchStep hcs i st
  | all k sts =>
    rw [stepInside, Option.map_map]
    exact picks_allStep hcs sts

theorem picks_stepAfresh (o : Occurs) (c : Compositor) (k : Nat) :
    Picks name (group o c cs).firstLeaves ((stepAfresh name cs k c).map Prod.snd) := by
  cases c with
  | sequence =>
    rw [stepAfresh, Option.map_map, firstLeaves, ← sequenceNextLeaves_fresh]
    exact picks_sequenceStep hcs 0 .fresh
  | choice =>
    rw [stepAfresh, Option.map_map]
    exact picks_choiceStep hcs
  | all =>
    have hfirst : (group o .all cs).firstLeaves = allNextLeaves cs (cs.map fun _ => .fresh) :=
      (allNextLeaves_fresh cs).symm
    rw [stepAfresh, Option.map_map, hfirst]
    exact picks_allStep hcs _

end Steps

/-- **A step takes one of the leaves offered that match the name, if there is any.** -/
theorem picks_step (name : Name) (n : Node) : StepPicks name n := by
  induction n using Node.induct with
  | leaf n s hs =>
    intro st
    rw [nextLeaves_of_leaf hs, step_leaf name hs, Bool.and_comm]
    cases hstart : n.canStart st with
    | false =>
      rw [Bool.and_false]
      exact .nil
    | true =>
      rw [Bool.and_true]
      by_cases hname : s.matcher.matchesName name = true
      · rw [if_pos hname]
        obtain ⟨t, ht⟩ : ∃ t, n.leafTerm? = some t := by cases n <;> cases hs <;> exact ⟨_, rfl⟩
        rw [ht]
        exact ⟨n, List.mem_singleton_self n, ⟨s, hs, hname⟩, ht⟩
      · rw [if_neg hname]
        rintro l hl ⟨s', hs', hmatch⟩
        rw [if_pos rfl, List.mem_singleton] at hl
        subst hl
        rw [hs, Option.some.injEq] at hs'
        exact hname (hs' ▸ hmatch)
  | group o c cs ih =>
    intro st
    rw [map_step_group, nextLeaves_group]
    exact (picks_stepInside ih st).or ((picks_stepAfresh ih o c _).ite _)

/-! ### The leaves offered belong to the tree -/

section Subtrees

variable {cs : List Node} {l : Node}

theorem mem_of_mem_ite {b : Bool} {ls : List Node} (h : l ∈ if b then ls else []) : l ∈ ls := by
  cases b with
  | false => cases h
  | true => exact h

theorem exists_of_mem_sequenceFirstLeaves (h : l ∈ sequenceFirstLeaves cs) :
    ∃ c ∈ cs, l ∈ c.firstLeaves := by
  induction cs with
  | nil => cases h
  | cons c cs ih =>
    rw [sequenceFirstLeaves, List.mem_append] at h
    rcases h with h | h
    · exact ⟨c, List.mem_cons_self, mem_of_mem_ite h⟩
    · obtain ⟨d, hd, hl⟩ := ih (mem_of_mem_ite h)
      exact ⟨d, List.mem_cons_of_mem c hd, hl⟩

theorem exists_of_mem_eachFirstLeaves (h : l ∈ eachFirstLeaves cs) :
    ∃ c ∈ cs, l ∈ c.firstLeaves := by
  induction cs with
  | nil => cases h
  | cons c cs ih =>
    rw [eachFirstLeaves, List.mem_append] at h
    rcases h with h | h
    · exact ⟨c, List.mem_cons_self, mem_of_mem_ite h⟩
    · obtain ⟨d, hd, hl⟩ := ih h
      exact ⟨d, List.mem_cons_of_mem c hd, hl⟩

theorem firstLeaves_subset (n : Node) : n.firstLeaves ⊆ n.subtrees := by
  induction n using Node.induct with
  | leaf n s hs => rw [firstLeaves_of_leaf hs, subtrees_of_leaf hs]; exact fun _ h => h
  | group o c cs ih =>
    intro l hl
    have hchild : ∃ d ∈ cs, l ∈ d.firstLeaves := by
      cases c with
      | sequence => exact exists_of_mem_sequenceFirstLeaves hl
      | choice => exact exists_of_mem_eachFirstLeaves hl
      | all => exact exists_of_mem_eachFirstLeaves hl
    obtain ⟨d, hd, hl⟩ := hchild
    exact mem_subtrees_group.2 (Or.inr ⟨d, hd, ih d hd hl⟩)

theorem exists_of_mem_sequenceNextLeaves {i : Nat} {st : Progress}
    (h : l ∈ sequenceNextLeaves cs i st) :
    ∃ c ∈ cs, l ∈ c.firstLeaves ∨ ∃ st', l ∈ c.nextLeaves st' := by
  induction cs generalizing i with
  | nil => cases h
  | cons c cs ih =>
    cases i with
    | zero =>
      rw [sequenceNextLeaves, List.mem_append] at h
      rcases h with h | h
      · exact ⟨c, List.mem_cons_self, Or.inr ⟨st, h⟩⟩
      · obtain ⟨d, hd, hl⟩ := exists_of_mem_sequenceFirstLeaves (mem_of_mem_ite h)
        exact ⟨d, List.mem_cons_of_mem c hd, Or.inl hl⟩
    | succ i =>
      obtain ⟨d, hd, hl⟩ := ih h
      exact ⟨d, List.mem_cons_of_mem c hd, hl⟩

theorem exists_of_mem_branchNextLeaves {i : Nat} {st : Progress}
    (h : l ∈ branchNextLeaves cs i st) : ∃ c ∈ cs, ∃ st', l ∈ c.nextLeaves st' := by
  induction cs generalizing i with
  | nil => cases h
  | cons c cs ih =>
    cases i with
    | zero => exact ⟨c, List.mem_cons_self, st, h⟩
    | succ i =>
      obtain ⟨d, hd, hl⟩ := ih h
      exact ⟨d, List.mem_cons_of_mem c hd, hl⟩

theorem exists_of_mem_allNextLeaves {sts : List Progress} (h : l ∈ allNextLeaves cs sts) :
    ∃ c ∈ cs, ∃ st', l ∈ c.nextLeaves st' := by
  induction cs generalizing sts with
  | nil => cases h
  | cons c cs ih =>
    cases sts with
    | nil => cases h
    | cons st sts =>
      rw [allNextLeaves, List.mem_append] at h
      rcases h with h | h
      · exact ⟨c, List.mem_cons_self, st, h⟩
      · obtain ⟨d, hd, hl⟩ := ih h
        exact ⟨d, List.mem_cons_of_mem c hd, hl⟩

/-- Inside an occurrence the particles offer what they can go on with, or what they can start
with. -/
theorem exists_of_mem_insideLeaves {st : Progress} (h : l ∈ insideLeaves cs st) :
    ∃ c ∈ cs, l ∈ c.firstLeaves ∨ ∃ st', l ∈ c.nextLeaves st' := by
  cases st with
  | leaf k => cases h
  | sequence k i st => exact exists_of_mem_sequenceNextLeaves h
  | choice k i st =>
    obtain ⟨c, hc, hl⟩ := exists_of_mem_branchNextLeaves h
    exact ⟨c, hc, Or.inr hl⟩
  | all k sts =>
    obtain ⟨c, hc, hl⟩ := exists_of_mem_allNextLeaves h
    exact ⟨c, hc, Or.inr hl⟩

/-- The leaves offered are leaves of the tree. -/
theorem nextLeaves_subset (n : Node) (st : Progress) : n.nextLeaves st ⊆ n.subtrees := by
  induction n using Node.induct generalizing st with
  | leaf n s hs =>
    rw [nextLeaves_of_leaf hs, subtrees_of_leaf hs]
    exact fun _ h => mem_of_mem_ite h
  | group o c cs ih =>
    intro l hl
    rw [nextLeaves_group, List.mem_append] at hl
    rcases hl with hl | hl
    · obtain ⟨d, hd, hl | ⟨st', hl⟩⟩ := exists_of_mem_insideLeaves hl
      · exact mem_subtrees_group.2 (Or.inr ⟨d, hd, firstLeaves_subset d hl⟩)
      · exact mem_subtrees_group.2 (Or.inr ⟨d, hd, ih d hd st' hl⟩)
    · exact firstLeaves_subset _ (mem_of_mem_ite hl)

end Subtrees

/-- The element leaves of a tree match the names that are accepted for their declarations. -/
def NamedBy (accepts : ElementId → List Name) (n : Node) : Prop :=
  ∀ o leaf d names, element o leaf d names ∈ n.subtrees → names = accepts d

end Node

section Build

variable {accepts : ElementId → List Name} {limits : Limits}

mutual

/-- Compiling gives the element leaves the names that are accepted for them. -/
theorem buildNode_namedBy : ∀ (p : Particle) {depth k : Nat} {n : Node} {k' : Nat},
    buildNode accepts limits depth p k = .ok (n, k') → n.NamedBy accepts
  | .element d o, depth, k, n, k', h => by
    rw [buildNode] at h
    cases h
    rintro o' leaf d' names hmem
    rw [Node.subtrees_of_leaf rfl, List.mem_singleton] at hmem
    cases hmem
    rfl
  | .any w, depth, k, n, k', h => by
    rw [buildNode] at h
    cases h
    rintro o' leaf d' names hmem
    rw [Node.subtrees_of_leaf rfl, List.mem_singleton] at hmem
    cases hmem
  | .group c ps o, depth, k, n, k', h => by
    rw [buildNode] at h
    split at h
    · cases h
    · cases hcs : buildNodes accepts limits (depth + 1) ps k with
      | error e =>
        rw [hcs] at h
        cases h
      | ok built =>
        rw [hcs] at h
        cases h
        intro o' leaf d names hmem
        rcases Node.mem_subtrees_group.1 hmem with hmem | ⟨m, hm, hmem⟩
        · cases hmem
        · exact buildNodes_namedBy ps hcs m hm o' leaf d names hmem
  | .elementRef .., depth, k, n, k', h => by
    rw [buildNode] at h
    cases h
  | .groupRef .., depth, k, n, k', h => by
    rw [buildNode] at h
    cases h

theorem buildNodes_namedBy : ∀ (ps : List Particle) {depth k : Nat} {cs : List Node} {k' : Nat},
    buildNodes accepts limits depth ps k = .ok (cs, k') → ∀ c ∈ cs, c.NamedBy accepts
  | [], depth, k, cs, k', h => by
    rw [buildNodes] at h
    cases h
    nofun
  | p :: ps, depth, k, cs, k', h => by
    rw [buildNodes] at h
    split at h
    · exact buildNodes_namedBy ps h
    · cases hc : buildNode accepts limits depth p k with
      | error e =>
        rw [hc] at h
        cases h
      | ok built =>
        obtain ⟨c, k₁⟩ := built
        rw [hc] at h
        cases hcs : buildNodes accepts limits depth ps k₁ with
        | error e => simp [bind, Except.bind, hcs] at h
        | ok built' =>
          simp only [bind, Except.bind, hcs, pure, Except.pure] at h
          cases h
          exact List.forall_mem_cons.2 ⟨buildNode_namedBy p hc, buildNodes_namedBy ps hcs⟩

end

end Build

namespace Automaton

variable {m : Automaton} {g : ModelGroup} {accepts : ElementId → List Name} {version : Version}
  {limits : Limits}

/-- The element leaves of a compiled content model match the names that are accepted for them. -/
theorem namedBy_of_compile (h : compile g accepts version limits = .ok m) :
    m.root.NamedBy accepts := by
  rw [compile] at h
  cases hroot : buildNode accepts limits 0 g.toParticle 0 with
  | error e => simp [bind, Except.bind, hroot] at h
  | ok built =>
    obtain ⟨root, k⟩ := built
    simp only [bind, Except.bind, hroot] at h
    split at h
    · cases h
    · cases h
      exact buildNode_namedBy _ hroot

/-- The leaves of a content model that can take the next element. -/
def nextLeaves (m : Automaton) (st : Progress) : List Node := m.root.nextLeaves st

theorem candidates_eq (m : Automaton) (st : Progress) :
    m.candidates st = distinct ((m.nextLeaves st).filterMap Node.leafTerm?) := by
  rw [nextLeaves, Node.filterMap_nextLeaves]
  rfl

theorem mem_candidates {st : Progress} {t : Term} :
    t ∈ m.candidates st ↔ ∃ l ∈ m.nextLeaves st, l.leafTerm? = some t := by
  rw [candidates_eq, mem_distinct, List.mem_filterMap]

/-- A step takes one of the leaves offered that match the name. -/
theorem exists_leaf_of_step {st st' : Progress} {name : Name} {t : Term}
    (h : m.step st name = some (st', t)) :
    ∃ l ∈ m.nextLeaves st, l.Matches name ∧ l.leafTerm? = some t := by
  have hpicks := Node.picks_step name m.root st
  rw [show m.root.step name st = some (st', t) from h] at hpicks
  exact hpicks

/-- A name that a leaf offered matches can be taken. -/
theorem isSome_step_of_leaf {st : Progress} {name : Name} {l : Node} (hl : l ∈ m.nextLeaves st)
    (hmatch : l.Matches name) : (m.step st name).isSome := by
  have hpicks := Node.picks_step name m.root st
  cases hstep : m.step st name with
  | some found => rfl
  | none =>
    rw [show m.root.step name st = none from hstep] at hpicks
    exact absurd hmatch (hpicks l hl)

/-- An element offered is that of a leaf that matches all its names. -/
theorem exists_leaf_of_element (hm : m.root.NamedBy accepts) {st : Progress} {d : ElementId}
    (hd : .element d ∈ m.candidates st) {name : Name} (hname : name ∈ accepts d) :
    ∃ l ∈ m.nextLeaves st, l.leafTerm? = some (.element d) ∧ l.Matches name := by
  obtain ⟨l, hl, hterm⟩ := mem_candidates.1 hd
  refine ⟨l, hl, hterm, ?_⟩
  cases l with
  | element o leaf d' names =>
    cases hterm
    obtain rfl := hm o leaf d names (Node.nextLeaves_subset _ _ hl)
    exact ⟨_, rfl, List.contains_iff_mem.2 hname⟩
  | wildcard => cases hterm
  | group => cases hterm

/-- Of an element offered all names can be taken. -/
theorem isSome_step_of_mem_candidates (hm : m.root.NamedBy accepts) {st : Progress}
    {d : ElementId} (hd : .element d ∈ m.candidates st) {name : Name} (hname : name ∈ accepts d) :
    (m.step st name).isSome := by
  obtain ⟨l, hl, -, hmatch⟩ := exists_leaf_of_element hm hd hname
  exact isSome_step_of_leaf hl hmatch

/-- **Candidates and steps agree in every state.**  The terms offered are those of leaves of the
tree, each once.  A name can be taken exactly if one of these leaves matches it, and the term that
takes it is among those offered; of an element offered every name can be taken. -/
theorem step_iff_offered (hm : compile g accepts version limits = .ok m) (st : Progress) :
    (∀ l ∈ m.nextLeaves st, l ∈ m.root.subtrees) ∧
      m.candidates st = distinct ((m.nextLeaves st).filterMap Node.leafTerm?) ∧
      (∀ name, (m.step st name).isSome ↔ ∃ l ∈ m.nextLeaves st, l.Matches name) ∧
      (∀ name st' t, m.step st name = some (st', t) → t ∈ m.candidates st) ∧
      (∀ d, .element d ∈ m.candidates st → ∀ name ∈ accepts d, (m.step st name).isSome) ∧
      (m.candidates st).Nodup := by
  refine ⟨fun l hl => Node.nextLeaves_subset _ _ hl, candidates_eq m st,
    fun name => ⟨fun h => ?_, ?_⟩, fun name st' t h => ?_, fun d hd name hname => ?_,
    nodup_distinct _⟩
  · obtain ⟨⟨st', t⟩, hstep⟩ := Option.isSome_iff_exists.1 h
    obtain ⟨l, hl, hmatch, -⟩ := exists_leaf_of_step hstep
    exact ⟨l, hl, hmatch⟩
  · rintro ⟨l, hl, hmatch⟩
    exact isSome_step_of_leaf hl hmatch
  · obtain ⟨l, hl, -, hterm⟩ := exists_leaf_of_step h
    exact mem_candidates.2 ⟨l, hl, hterm⟩
  · exact isSome_step_of_mem_candidates (namedBy_of_compile hm) hd hname

/-- After one `a` of one or two, another `a` or the `b` behind them can be taken. -/
theorem step_iff_offered_repeatedSequence :
    compile repeatedSequence twoNames .v10 {} = .ok repeatedSequenceModel ∧
      repeatedSequenceModel.replayable.run [.unqualified "a"] = .ok (.sequence 1 0 (.leaf 1)) ∧
      repeatedSequenceModel.candidates (.sequence 1 0 (.leaf 1)) =
        [.element ⟨0⟩, .element ⟨1⟩] ∧
      (repeatedSequenceModel.step (.sequence 1 0 (.leaf 1)) (.unqualified "a")).isSome ∧
      (repeatedSequenceModel.step (.sequence 1 0 (.leaf 1)) (.unqualified "b")).isSome := by
  have hm : compile repeatedSequence twoNames .v10 {} = .ok repeatedSequenceModel := rfl
  have hoffered : repeatedSequenceModel.candidates (.sequence 1 0 (.leaf 1)) =
      [.element ⟨0⟩, .element ⟨1⟩] := rfl
  obtain ⟨-, -, -, -, hnames, -⟩ := step_iff_offered hm (.sequence 1 0 (.leaf 1))
  rw [hoffered] at hnames
  exact ⟨hm, rfl, hoffered, hnames ⟨0⟩ (by simp) _ (List.mem_singleton_self _),
    hnames ⟨1⟩ (by simp) _ (List.mem_singleton_self _)⟩

end Automaton
end ContentModel
end SchemaAssist
