/-
# Content models under other identifiers

A content model goes by the identifiers of its elements, and each of its leaves by a list of names.
With other identifiers, and with lists of the same names (`ContentModel.Node.relabel`), it takes the
same lists of elements with the same progress (`ContentModel.Node.step_relabel`), and offers the same
terms but for identifiers (`ContentModel.Node.nextTerms_relabel`).
-/

import SchemaAssist.Proofs.Steps

namespace SchemaAssist

/-! ### The same names -/

/-- Two lists start with the same name and hold the same ones. -/
structure SameNames (xs ys : List Name) : Prop where
  head?_eq : xs.head? = ys.head?
  mem_iff : ∀ n, n ∈ xs ↔ n ∈ ys

namespace SameNames

variable {xs ys xs' ys' : List Name}

theorem contains_eq (h : SameNames xs ys) (n : Name) : xs.contains n = ys.contains n := by
  rw [Bool.eq_iff_iff, List.contains_iff_mem, List.contains_iff_mem, h.mem_iff]

theorem any_eq (h : SameNames xs ys) (p : Name → Bool) : xs.any p = ys.any p := by
  rw [Bool.eq_iff_iff, List.any_eq_true, List.any_eq_true]
  simp only [h.mem_iff]

end SameNames

namespace ContentModel

/-- A term with another identifier. -/
def Term.relabel (f : ElementId → ElementId) : Term → Term
  | element d => .element (f d)
  | wildcard p => .wildcard p

theorem Term.isElement_relabel (f : ElementId → ElementId) (t : Term) :
    (t.relabel f).isElement = t.isElement := by
  cases t <;> rfl

theorem Term.relabel_inj {f : ElementId → ElementId} (hf : f.Injective) :
    (Term.relabel f).Injective := by
  intro t t' h
  cases t with
  | element d =>
    cases t' with
    | element d' => exact congrArg Term.element (hf (Term.element.inj h))
    | wildcard p' => cases h
  | wildcard p =>
    cases t' with
    | element d' => cases h
    | wildcard p' => exact h

namespace Node

variable {f : ElementId → ElementId} {a : ElementId → List Name} {n : Node} {cs : List Node}

mutual

/-- A tree with other identifiers, and with the names that are accepted for its declarations. -/
def relabel (f : ElementId → ElementId) (a : ElementId → List Name) : Node → Node
  | element o leaf d _ => .element o leaf (f d) (a d)
  | wildcard o leaf spaces p => .wildcard o leaf spaces p
  | group o c cs => .group o c (relabelAll f a cs)

/-- Several trees with other identifiers. -/
def relabelAll (f : ElementId → ElementId) (a : ElementId → List Name) : List Node → List Node
  | [] => []
  | c :: cs => c.relabel f a :: relabelAll f a cs

end

theorem relabelAll_eq (cs : List Node) : relabelAll f a cs = cs.map (relabel f a) := by
  induction cs with
  | nil => rfl
  | cons c cs ih => rw [relabelAll, ih, List.map_cons]

theorem relabel_group (o : Occurs) (c : Compositor) (cs : List Node) :
    (group o c cs).relabel f a = .group o c (cs.map (relabel f a)) := by
  rw [relabel, relabelAll_eq]

/-- Every element leaf of a tree matches the names that are accepted for its declaration. -/
def NamedAs (a : ElementId → List Name) (n : Node) : Prop :=
  ∀ o leaf d names, element o leaf d names ∈ n.subtrees → SameNames names (a d)

theorem NamedAs.of_mem {o : Occurs} {c : Compositor} (h : (group o c cs).NamedAs a) {m : Node}
    (hm : m ∈ cs) : m.NamedAs a :=
  fun o leaf d names hl => h o leaf d names (mem_subtrees_group.2 (Or.inr ⟨m, hm, hl⟩))

/-! ### Where a list may end -/

@[simp] theorem occurs_relabel (n : Node) : (n.relabel f a).occurs = n.occurs := by
  cases n <;> rfl

section Nullable

variable (h : ∀ m ∈ cs, (m.relabel f a).termNullable = m.termNullable)

include h

theorem anyNullable_map_relabel : anyNullable (cs.map (relabel f a)) = anyNullable cs := by
  induction cs with
  | nil => rfl
  | cons m cs ih =>
    rw [List.forall_mem_cons] at h
    rw [List.map_cons, anyNullable, anyNullable, occurs_relabel, h.1, ih h.2]

theorem allNullable_map_relabel : allNullable (cs.map (relabel f a)) = allNullable cs := by
  induction cs with
  | nil => rfl
  | cons m cs ih =>
    rw [List.forall_mem_cons] at h
    rw [List.map_cons, allNullable, allNullable, occurs_relabel, h.1, ih h.2]

end Nullable

@[simp] theorem termNullable_relabel (n : Node) :
    (n.relabel f a).termNullable = n.termNullable := by
  induction n using induct with
  | leaf n s hs =>
    cases n with
    | group => cases hs
    | _ => rfl
  | group o c cs ih =>
    have hany := anyNullable_map_relabel ih
    have hall := allNullable_map_relabel ih
    rw [relabel_group]
    cases c with
    | choice => rw [termNullable, termNullable, hany, List.isEmpty_map]
    | sequence => exact hall
    | all => exact hall

@[simp] theorem allNullable_relabel (cs : List Node) :
    allNullable (cs.map (relabel f a)) = allNullable cs :=
  allNullable_map_relabel fun m _ => m.termNullable_relabel

@[simp] theorem nullable_relabel (n : Node) : (n.relabel f a).nullable = n.nullable := by
  rw [nullable, nullable, occurs_relabel, termNullable_relabel]

@[simp] theorem mayEnd_relabel (n : Node) (count : Nat) (complete : Bool) :
    (n.relabel f a).mayEnd count complete = n.mayEnd count complete := by
  rw [mayEnd, mayEnd, nullable_relabel, occurs_relabel, termNullable_relabel]

/-- What one occurrence makes of a state is the same for a tree under other identifiers. -/
def EndsAlike (f : ElementId → ElementId) (a : ElementId → List Name) (n : Node) : Prop :=
  ∀ st, (n.relabel f a).complete st = n.complete st

section Complete

variable (h : ∀ m ∈ cs, EndsAlike f a m)

include h

theorem sequenceCanEnd_relabel (i : Nat) (st : Progress) :
    sequenceCanEnd (cs.map (relabel f a)) i st = sequenceCanEnd cs i st := by
  induction cs generalizing i with
  | nil => rfl
  | cons m cs ih =>
    rw [List.forall_mem_cons] at h
    cases i with
    | zero => rw [List.map_cons, sequenceCanEnd, sequenceCanEnd, mayEnd_relabel, h.1,
        allNullable_relabel]
    | succ i => exact ih h.2 i

theorem branchCanEnd_relabel (i : Nat) (st : Progress) :
    branchCanEnd (cs.map (relabel f a)) i st = branchCanEnd cs i st := by
  induction cs generalizing i with
  | nil => rfl
  | cons m cs ih =>
    rw [List.forall_mem_cons] at h
    cases i with
    | zero => rw [List.map_cons, branchCanEnd, branchCanEnd, mayEnd_relabel, h.1]
    | succ i => exact ih h.2 i

theorem allCanEnd_relabel (sts : List Progress) :
    allCanEnd (cs.map (relabel f a)) sts = allCanEnd cs sts := by
  induction cs generalizing sts with
  | nil => rfl
  | cons m cs ih =>
    rw [List.forall_mem_cons] at h
    cases sts with
    | nil => rfl
    | cons st sts => rw [List.map_cons, allCanEnd, allCanEnd, mayEnd_relabel, h.1, ih h.2]

end Complete

@[simp] theorem complete_relabel (n : Node) (st : Progress) :
    (n.relabel f a).complete st = n.complete st := by
  induction n using induct generalizing st with
  | leaf n s hs =>
    cases n with
    | group => cases hs
    | _ => rfl
  | group o c cs ih =>
    rw [relabel_group]
    cases st with
    | leaf k => rfl
    | sequence k i st => exact sequenceCanEnd_relabel ih i st
    | choice k i st => exact branchCanEnd_relabel ih i st
    | all k sts => exact allCanEnd_relabel ih sts

@[simp] theorem canStart_relabel (n : Node) (st : Progress) :
    (n.relabel f a).canStart st = n.canStart st := by
  rw [canStart, canStart, occurs_relabel, complete_relabel]

/-! ### One more element -/

theorem preferElement_relabel {α : Type} (x y : Option (α × Term)) :
    preferElement (x.map (Prod.map id (Term.relabel f))) (y.map (Prod.map id (Term.relabel f))) =
      (preferElement x y).map (Prod.map id (Term.relabel f)) := by
  cases x with
  | none => cases y <;> rfl
  | some x =>
    cases y with
    | none => rfl
    | some y =>
      change (if (x.2.relabel f).isElement then _ else if (y.2.relabel f).isElement then _ else _) =
        Option.map _ (if x.2.isElement then _ else if y.2.isElement then _ else _)
      rw [Term.isElement_relabel, Term.isElement_relabel]
      split
      · rfl
      · split <;> rfl

/-- A tree under other identifiers takes the same element with the same progress, and tells the same
term but for its identifier. -/
def StepsAlike (f : ElementId → ElementId) (a : ElementId → List Name) (name : Name) (n : Node) :
    Prop :=
  ∀ st, step name (n.relabel f a) st = (step name n st).map (Prod.map id (Term.relabel f))

section Step

variable {name : Name} (h : ∀ m ∈ cs, StepsAlike f a name m)

include h

theorem sequenceStep_relabel (i : Nat) (st : Progress) :
    sequenceStep name (cs.map (relabel f a)) i st =
      (sequenceStep name cs i st).map fun (i, st, t) => (i, st, t.relabel f) := by
  induction cs generalizing i st with
  | nil => rfl
  | cons m cs ih =>
    rw [List.forall_mem_cons] at h
    cases i with
    | zero =>
      rw [List.map_cons, sequenceStep, sequenceStep, h.1, mayEnd_relabel, complete_relabel, ih h.2]
      cases step name m st with
      | some found => rfl
      | none =>
        simp only [Option.map_none]
        split
        · cases sequenceStep name cs 0 .fresh <;> rfl
        · rfl
    | succ i =>
      rw [List.map_cons, sequenceStep, sequenceStep, ih h.2]
      cases sequenceStep name cs i st <;> rfl

theorem branchStep_relabel (i : Nat) (st : Progress) :
    branchStep name (cs.map (relabel f a)) i st =
      (branchStep name cs i st).map (Prod.map id (Term.relabel f)) := by
  induction cs generalizing i with
  | nil => rfl
  | cons m cs ih =>
    rw [List.forall_mem_cons] at h
    cases i with
    | zero => exact h.1 st
    | succ i => exact ih h.2 i

theorem choiceStep_relabel : choiceStep name (cs.map (relabel f a)) =
    (choiceStep name cs).map (Prod.map id (Term.relabel f)) := by
  induction cs with
  | nil => rfl
  | cons m cs ih =>
    rw [List.forall_mem_cons] at h
    rw [List.map_cons, choiceStep, choiceStep, h.1, ih h.2, ← preferElement_relabel]
    congr 1
    · cases step name m .fresh <;> rfl
    · cases choiceStep name cs <;> rfl

theorem allStep_relabel (sts : List Progress) : allStep name (cs.map (relabel f a)) sts =
    (allStep name cs sts).map (Prod.map id (Term.relabel f)) := by
  induction cs generalizing sts with
  | nil => rfl
  | cons m cs ih =>
    rw [List.forall_mem_cons] at h
    cases sts with
    | nil => rfl
    | cons st sts =>
      rw [List.map_cons, allStep, allStep, h.1, ih h.2, ← preferElement_relabel]
      congr 1
      · cases step name m st <;> rfl
      · cases allStep name cs sts <;> rfl

theorem stepInside_relabel (st : Progress) : stepInside name (cs.map (relabel f a)) st =
    (stepInside name cs st).map (Prod.map id (Term.relabel f)) := by
  cases st with
  | leaf k => rfl
  | sequence k i st =>
    rw [stepInside, stepInside, sequenceStep_relabel h]
    cases sequenceStep name cs i st <;> rfl
  | choice k i st =>
    rw [stepInside, stepInside, branchStep_relabel h]
    cases branchStep name cs i st <;> rfl
  | all k sts =>
    rw [stepInside, stepInside, allStep_relabel h]
    cases allStep name cs sts <;> rfl

theorem stepAfresh_relabel (k : Nat) (c : Compositor) :
    stepAfresh name (cs.map (relabel f a)) k c =
      (stepAfresh name cs k c).map (Prod.map id (Term.relabel f)) := by
  cases c with
  | sequence =>
    rw [stepAfresh, stepAfresh, sequenceStep_relabel h]
    cases sequenceStep name cs 0 .fresh <;> rfl
  | choice =>
    rw [stepAfresh, stepAfresh, choiceStep_relabel h]
    cases choiceStep name cs <;> rfl
  | all =>
    rw [stepAfresh, stepAfresh, allStep_relabel h, List.map_map]
    change Option.map _ (Option.map _ (allStep name cs (cs.map fun _ => .fresh))) = _
    cases allStep name cs (cs.map fun _ => .fresh) <;> rfl

end Step

/-- **A tree under other identifiers takes the same elements.** -/
theorem step_relabel (name : Name) (h : n.NamedAs a) : StepsAlike f a name n := by
  induction n using induct with
  | leaf n s hs =>
    intro st
    cases n with
    | element o leaf d names =>
      have hsame : names.contains name = (a d).contains name :=
        (h o leaf d names (self_mem_subtrees _)).contains_eq name
      have hstart : ((element o leaf d names).relabel f a).canStart st = _ := canStart_relabel _ st
      change (if ((element o leaf d names).relabel f a).canStart st && (a d).contains name
        then _ else _) = Option.map _ (if _ then _ else _)
      rw [hstart, hsame]
      split <;> rfl
    | wildcard o leaf spaces p =>
      rw [relabel, step]
      split <;> rfl
    | group => cases hs
  | group o c cs ih =>
    intro st
    have hcs : ∀ m ∈ cs, StepsAlike f a name m := fun m hm => ih m hm (h.of_mem hm)
    have hstart : (group o c (cs.map (relabel f a))).canStart st = (group o c cs).canStart st := by
      rw [← relabel_group, canStart_relabel]
    rw [relabel_group, step_group, step_group, stepInside_relabel hcs, stepAfresh_relabel hcs,
      hstart, Option.map_or]
    split <;> rfl

/-! ### What may come next -/

section FirstTerms

variable (h : ∀ m ∈ cs, (m.relabel f a).firstTerms = m.firstTerms.map (Term.relabel f))

include h

theorem sequenceFirstTerms_relabel_of : sequenceFirstTerms (cs.map (relabel f a)) =
    (sequenceFirstTerms cs).map (Term.relabel f) := by
  induction cs with
  | nil => rfl
  | cons m cs ih =>
    rw [List.forall_mem_cons] at h
    rw [List.map_cons, sequenceFirstTerms, sequenceFirstTerms, canStart_relabel, nullable_relabel,
      h.1, ih h.2, List.map_append, apply_ite (List.map (Term.relabel f)),
      apply_ite (List.map (Term.relabel f)), List.map_nil]

theorem eachFirstTerms_relabel_of : eachFirstTerms (cs.map (relabel f a)) =
    (eachFirstTerms cs).map (Term.relabel f) := by
  induction cs with
  | nil => rfl
  | cons m cs ih =>
    rw [List.forall_mem_cons] at h
    rw [List.map_cons, eachFirstTerms, eachFirstTerms, canStart_relabel, h.1, ih h.2,
      List.map_append, apply_ite (List.map (Term.relabel f)), List.map_nil]

end FirstTerms

theorem firstTerms_relabel (n : Node) :
    (n.relabel f a).firstTerms = n.firstTerms.map (Term.relabel f) := by
  induction n using induct with
  | leaf n s hs =>
    cases n with
    | group => cases hs
    | _ => rfl
  | group o c cs ih =>
    rw [relabel_group]
    cases c with
    | sequence => exact sequenceFirstTerms_relabel_of ih
    | choice => exact eachFirstTerms_relabel_of ih
    | all => exact eachFirstTerms_relabel_of ih

/-- A tree under other identifiers offers the same terms but for identifiers. -/
def OffersAlike (f : ElementId → ElementId) (a : ElementId → List Name) (n : Node) : Prop :=
  ∀ st, (n.relabel f a).nextTerms st = (n.nextTerms st).map (Term.relabel f)

section NextTerms

variable (h : ∀ m ∈ cs, OffersAlike f a m)

include h

theorem sequenceNextTerms_relabel (i : Nat) (st : Progress) :
    sequenceNextTerms (cs.map (relabel f a)) i st =
      (sequenceNextTerms cs i st).map (Term.relabel f) := by
  induction cs generalizing i with
  | nil => rfl
  | cons m cs ih =>
    rw [List.forall_mem_cons] at h
    cases i with
    | zero =>
      rw [List.map_cons, sequenceNextTerms, sequenceNextTerms, h.1, mayEnd_relabel,
        complete_relabel, sequenceFirstTerms_relabel_of fun m _ => m.firstTerms_relabel,
        List.map_append, apply_ite (List.map (Term.relabel f)), List.map_nil]
    | succ i => exact ih h.2 i

theorem branchNextTerms_relabel (i : Nat) (st : Progress) :
    branchNextTerms (cs.map (relabel f a)) i st =
      (branchNextTerms cs i st).map (Term.relabel f) := by
  induction cs generalizing i with
  | nil => rfl
  | cons m cs ih =>
    rw [List.forall_mem_cons] at h
    cases i with
    | zero => exact h.1 st
    | succ i => exact ih h.2 i

theorem allNextTerms_relabel (sts : List Progress) :
    allNextTerms (cs.map (relabel f a)) sts = (allNextTerms cs sts).map (Term.relabel f) := by
  induction cs generalizing sts with
  | nil => rfl
  | cons m cs ih =>
    rw [List.forall_mem_cons] at h
    cases sts with
    | nil => rfl
    | cons st sts =>
      rw [List.map_cons, allNextTerms, allNextTerms, h.1, ih h.2, List.map_append]

end NextTerms

/-- The terms inside the occurrence of a group that is under way. -/
def insideTerms (cs : List Node) : Progress → List Term
  | .leaf _ => []
  | .sequence _ i cur => sequenceNextTerms cs i cur
  | .choice _ i cur => branchNextTerms cs i cur
  | .all _ sts => allNextTerms cs sts

theorem nextTerms_group (o : Occurs) (c : Compositor) (cs : List Node) (st : Progress) :
    nextTerms (group o c cs) st = insideTerms cs st ++
      if (group o c cs).canStart st then (group o c cs).firstTerms else [] := by
  rw [nextTerms.eq_def]
  cases st <;> rfl

theorem nextTerms_leaf {s : Symbol} (hs : n.symbol? = some s) (st : Progress) :
    n.nextTerms st = if n.canStart st then n.firstTerms else [] := by
  rw [nextTerms.eq_def]
  cases n with
  | group => cases hs
  | _ => rfl

/-- **A tree under other identifiers offers the same terms.** -/
theorem nextTerms_relabel (n : Node) : OffersAlike f a n := by
  induction n using induct with
  | leaf n s hs =>
    intro st
    obtain ⟨s', hs'⟩ : ∃ s', (n.relabel f a).symbol? = some s' := by
      cases n with
      | group => cases hs
      | _ => exact ⟨_, rfl⟩
    rw [nextTerms_leaf hs, nextTerms_leaf hs', canStart_relabel, firstTerms_relabel,
      apply_ite (List.map (Term.relabel f)), List.map_nil]
  | group o c cs ih =>
    intro st
    have hinside : insideTerms (cs.map (relabel f a)) st =
        (insideTerms cs st).map (Term.relabel f) := by
      cases st with
      | leaf k => rfl
      | sequence k i st => exact sequenceNextTerms_relabel ih i st
      | choice k i st => exact branchNextTerms_relabel ih i st
      | all k sts => exact allNextTerms_relabel ih sts
    rw [nextTerms_group, relabel_group, nextTerms_group, ← relabel_group, canStart_relabel,
      firstTerms_relabel, hinside, List.map_append, apply_ite (List.map (Term.relabel f)),
      List.map_nil]

end Node
end ContentModel
end SchemaAssist
