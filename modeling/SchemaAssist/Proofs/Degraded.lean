/-
# What is offered without a content model

Where a type has no content model, or its content model cannot be followed, the elements that may
stand in the type somewhere are offered: those of its model group with their direct members, and all
global elements if there is a wildcard.  They include whatever is offered with a content model, after
any children (`Grammar.mem_static_of_candidatesAfter`): the terms that the content model offers are
terms of the model group, and a term stands for the same elements in both.
-/

import SchemaAssist.Proofs.Origins
import SchemaAssist.Proofs.Suggestions

namespace SchemaAssist

open ContentModel (Automaton Progress Term)

/-! ### The elements that may stand in a type somewhere -/

/-- A wildcard of a model group that admits elements without a declaration. -/
def ModelGroup.isLenient (group : ModelGroup) : Bool :=
  group.wildcards.any (·.strictness ≠ .strict)

theorem ContentModel.Term.Of.isLenient {group : ModelGroup} {t : Term} (ht : t.Of group)
    (hlenient : t.isLenient = true) : group.isLenient = true := by
  cases t with
  | element d => cases hlenient
  | wildcard p =>
    obtain ⟨w, hw, rfl⟩ := ht
    refine List.any_eq_true.2 ⟨w, hw, decide_eq_true fun hstrict => ?_⟩
    rw [hstrict] at hlenient
    cases hlenient

namespace Grammar

variable {g : Grammar} {t : TypeId} {group : ModelGroup}

theorem mem_declared {ds : List ElementId} {e : Declaration} :
    e ∈ g.declared ds ↔ ∃ d ∈ ds, Declaration.ofGrammar? g d = some e := List.mem_filterMap

theorem declared_subset {ds ds' : List ElementId} (h : ∀ d ∈ ds, d ∈ ds') {e : Declaration}
    (he : e ∈ g.declared ds) : e ∈ g.declared ds' := by
  obtain ⟨d, hd, he⟩ := mem_declared.1 he
  exact mem_declared.2 ⟨d, h d hd, he⟩

/-- The elements of a model group and their direct members may stand in its type. -/
theorem mem_staticChildren_of_element {d e : ElementId} (hgroup : g.groupOf? t = some group)
    (hd : d ∈ group.elements) (he : e ∈ d :: g.members d) : e ∈ g.staticChildren t := by
  have hdeclared : e ∈ distinct (group.elements.flatMap fun d => d :: g.members d) :=
    mem_distinct.2 (List.mem_flatMap.2 ⟨d, hd, he⟩)
  rw [staticChildren, hgroup]
  dsimp only
  split
  · exact hdeclared
  · exact mem_addAllNew.2 (Or.inl hdeclared)

/-- Any global element may stand in a type with a wildcard. -/
theorem mem_staticChildren_of_wildcard {w : Wildcard} {e : ElementId}
    (hgroup : g.groupOf? t = some group) (hw : w ∈ group.wildcards) (he : e ∈ g.globals) :
    e ∈ g.staticChildren t := by
  have hne : group.wildcards.isEmpty = false := by
    rw [List.isEmpty_eq_false_iff]
    exact List.ne_nil_of_mem hw
  rw [staticChildren, hgroup]
  simp only [hne, Bool.false_eq_true, if_false]
  exact mem_addAllNew.2 (Or.inr he)

/-- What a term of a model group stands for may stand in its type. -/
theorem mem_declared_staticChildren (hgroup : g.groupOf? t = some group) {term : Term}
    (hterm : term.Of group) {e : Declaration} (he : e ∈ g.standsFor term) :
    e ∈ g.declared (g.staticChildren t) := by
  cases term with
  | element d =>
    exact declared_subset (fun d' hd' => mem_staticChildren_of_element hgroup hterm hd') he
  | wildcard p =>
    obtain ⟨w, hw, rfl⟩ := hterm
    cases hstrict : w.strictness with
    | strict =>
      rw [hstrict] at he
      exact declared_subset (fun d' hd' => mem_staticChildren_of_wildcard hgroup hw hd') he
    | _ =>
      rw [hstrict] at he
      cases he

end Grammar

namespace Asking

/-- What is offered without a content model: any element if there is a lenient wildcard, and else
the elements that may stand in the type somewhere. -/
theorem gets_staticCandidates {g : Grammar} {t : TypeId} {group : ModelGroup}
    (hgroup : g.groupOf? t = some group) :
    Gets g (staticCandidates g t)
      (if group.isLenient then .any else ⟨distinct (g.declared (g.staticChildren t)), false⟩) := by
  rw [staticCandidates, hgroup, Option.map_some, Option.getD_some, ← ModelGroup.isLenient]
  split
  · exact .pure g _
  · exact (gets_declarations g _).bind (.pure g _)

end Asking

namespace Grammar

variable {c : Components} {g : Grammar} {t : TypeId} {m : Automaton} {closed : List Name}
  {terms : List Term}

/-- **Less precise, but not less.**  Where a list of children fits a content model, whatever is
offered after it is offered without the content model as well: any element at all, if that is
offered, and else each of the elements, unless any element at all is. -/
theorem mem_static_of_candidatesAfter (hg : c.build = .ok g) (hm : g.model t = .compiled m)
    (hterms : m.replayable.nextTerms closed = .ok terms) {s s' : Session}
    (hs : s.grammar? = some g) (hs' : s'.grammar? = some g) :
    let after := ((Asking.candidatesAfter g t closed).run s).1
    let static := ((Asking.staticCandidates g t).run s').1
    (after.anyElement = true → static = .any) ∧
      (after.anyElement = false → static = .any ∨ ∀ e ∈ after.elements, e ∈ static.elements) := by
  intro after static
  obtain ⟨c', -, rfl⟩ := Components.exists_finish_of_build hg
  obtain ⟨group, hgroup, hcompile⟩ := Components.exists_compile_of_model_finish hm
  obtain ⟨st, -, rfl⟩ := Replayable.exists_run_of_nextTerms hterms
  have hof : ∀ term ∈ m.replayable.offered st, term.Of group := fun term hterm =>
    Automaton.of_offered hcompile hterm
  have hafter : after = if (m.replayable.offered st).any Term.isLenient then .any
      else ⟨distinct ((m.replayable.offered st).flatMap c'.finish.standsFor), false⟩ :=
    (Asking.gets_candidatesAfter hm hterms s hs).1
  have hstatic : static = if group.isLenient then .any
      else ⟨distinct (c'.finish.declared (c'.finish.staticChildren t)), false⟩ :=
    (Asking.gets_staticCandidates hgroup s' hs').1
  cases hlenient : group.isLenient with
  | true =>
    rw [hlenient, if_pos rfl] at hstatic
    exact ⟨fun _ => hstatic, fun _ => Or.inl hstatic⟩
  | false =>
    -- without a lenient wildcard in the group there is none among the terms
    have hterms : (m.replayable.offered st).any Term.isLenient = false := by
      rw [List.any_eq_false]
      intro term hterm hl
      rw [(hof term hterm).isLenient hl] at hlenient
      cases hlenient
    rw [hlenient, if_neg nofun] at hstatic
    rw [hterms, if_neg nofun] at hafter
    rw [hafter, hstatic]
    refine ⟨nofun, fun _ => Or.inr fun e he => ?_⟩
    obtain ⟨term, hterm, he⟩ := List.mem_flatMap.1 (mem_distinct.1 he)
    exact mem_distinct.2 (mem_declared_staticChildren hgroup (hof term hterm) he)

/-- Any number of shapes and one more declared element, in any order; a circle may stand in for a
shape. -/
def shelf : Components where
  version := .v11
  limits := {}
  elements := #[{ name := .unqualified "shape", scoping := .global },
    { name := .unqualified "circle", scoping := .global, heads := [.unqualified "shape"] }]
  types := #[.complex {
    name? := none
    content := .group ⟨.all,
      [.elementRef (.unqualified "shape") .anyNumber, .any ⟨.any, .strict, .once⟩], .once⟩ }]
  globalElements := ⟨[(.unqualified "shape", ⟨0⟩), (.unqualified "circle", ⟨1⟩)]⟩

/-- The content model of `shelf`. -/
def shelfModel : Automaton :=
  ⟨.group .once .all
    [.element .anyNumber 1 ⟨0⟩ [.unqualified "shape", .unqualified "circle"],
      .wildcard .once 2 .any .strict], .unordered11⟩

/-- After a circle a circle is offered, with and without the content model. -/
theorem mem_static_of_candidatesAfter_shelf :
    ∃ g, shelf.build = .ok g ∧ g.model ⟨0⟩ = .compiled shelfModel ∧
      shelfModel.replayable.nextTerms [.unqualified "circle"] =
        .ok [.element ⟨0⟩, .wildcard .strict] ∧
      ∃ e ∈ ((Asking.candidatesAfter g ⟨0⟩ [.unqualified "circle"]).run (.ofGrammar g)).1.elements,
        e.name = .unqualified "circle" ∧
          e ∈ ((Asking.staticCandidates g ⟨0⟩).run (.ofGrammar g)).1.elements := by
  let g := (Components.resolve.run shelf).2.finish
  have hg : shelf.build = .ok g := by
    rw [Components.build, show shelf.limits.checkComponents _ = .ok () from rfl]
  have hm : g.model ⟨0⟩ = .compiled shelfModel := by cbv
  have hterms : shelfModel.replayable.nextTerms [.unqualified "circle"] =
      .ok [.element ⟨0⟩, .wildcard .strict] := rfl
  have hs : (Session.ofGrammar g).grammar? = some g := rfl
  obtain ⟨-, hmem⟩ := mem_static_of_candidatesAfter hg hm hterms hs hs
  have hdefinite : ((Asking.candidatesAfter g ⟨0⟩ [.unqualified "circle"]).run
      (.ofGrammar g)).1.anyElement = false := by cbv
  have hcircle : (((Asking.candidatesAfter g ⟨0⟩ [.unqualified "circle"]).run
      (.ofGrammar g)).1.elements.any (·.name == .unqualified "circle")) = true := by cbv
  have hstatic : ((Asking.staticCandidates g ⟨0⟩).run (.ofGrammar g)).1 ≠ .any := by
    decide +kernel
  obtain ⟨e, he, hname⟩ := List.any_eq_true.1 hcircle
  exact ⟨g, hg, hm, hterms, e, he, eq_of_beq hname,
    (hmem hdefinite).resolve_left hstatic e he⟩

end Grammar
end SchemaAssist
