/-
# What is suggested fits

An element that is offered after closed children comes from a term that the content model can take
next: it is the element of the term or a direct member of its substitution group, and the names of
both are among those that the leaf of the term matches.  So the children with that element behind
them can be replayed as well (`Grammar.run_suggested`).  The members without an upper bound of an
unordered group, which are offered whatever the content model says, are terms that it offers anyhow
(`Automaton.mem_offered_iff`).
-/

import SchemaAssist.Proofs.Answers
import SchemaAssist.Proofs.Catalog
import SchemaAssist.Proofs.Completeness
import SchemaAssist.Proofs.Offers
import SchemaAssist.Proofs.Places

namespace SchemaAssist

open ContentModel (Automaton Node Progress Term)

/-! ### Substitution groups -/

namespace Substitutions

variable {s : Substitutions} {met ds : List ElementId} {d e : ElementId}

/-- What has been met stays met. -/
theorem mem_gather_of_mem_met (h : e ∈ met) : e ∈ s.gather met ds := by
  fun_induction gather s met ds with
  | case1 met => exact h
  | case2 met d rest hd ih => exact ih h
  | case3 met d rest hd ih => exact ih (List.mem_append_left _ h)

/-- All elements of a stack are met. -/
theorem mem_gather (h : e ∈ ds) : e ∈ s.gather met ds := by
  fun_induction gather s met ds with
  | case1 met => cases h
  | case2 met d rest hd ih =>
    rcases List.mem_cons.1 h with rfl | h
    · exact mem_gather_of_mem_met hd
    · exact ih h
  | case3 met d rest hd ih =>
    rcases List.mem_cons.1 h with rfl | h
    · exact mem_gather_of_mem_met (List.mem_append_right _ (List.mem_singleton_self e))
    · exact ih (List.mem_append_right _ h)

/-- An element belongs to what follows it. -/
theorem mem_closure_self (s : Substitutions) (d : ElementId) : d ∈ s.closure d :=
  mem_gather (List.mem_singleton_self d)

/-- The direct members of an element belong to what follows it. -/
theorem mem_closure_of_mem_members (h : e ∈ s.members d) : e ∈ s.closure d := by
  rw [closure, gather, if_neg List.not_mem_nil]
  exact mem_gather (List.mem_append_left _ h)

end Substitutions

namespace Components

variable {c : Components} {s : Substitutions}

/-- The names of an element and of its direct members are accepted for it. -/
theorem mem_acceptedNames {d e : ElementId} {decl : ElementDecl} (he : e ∈ d :: s.members d)
    (hdecl : c.elements[e.index]? = some decl) : decl.name ∈ c.acceptedNames s d := by
  have hclosure : e ∈ s.closure d := by
    rcases List.mem_cons.1 he with rfl | he
    · exact s.mem_closure_self e
    · exact Substitutions.mem_closure_of_mem_members he
  rw [acceptedNames, mem_distinct, List.mem_filterMap]
  exact ⟨e, hclosure, by rw [hdecl]; rfl⟩

/-- The content model of a type is what compiling makes of its model group, for the names of the
declarations. -/
theorem model_finish (c : Components) (t : TypeId) :
    c.finish.model t = match c.finish.groupOf? t with
      | none => .absent
      | some group =>
        match Automaton.compile group (c.acceptedNames c.substitutions) c.version c.limits with
        | .ok m => .compiled m
        | .error refusal => .refused refusal := by
  have hmodel : c.finish.model t =
      ((c.types[t.index]?).map (c.compileModel c.substitutions)).getD .absent := by
    rw [Grammar.model, finish, Array.getElem?_map]
  have hgroup : c.finish.groupOf? t = (c.types[t.index]?).bind TypeDef.group? := rfl
  rw [hmodel, hgroup]
  cases c.types[t.index]? with
  | none => rfl
  | some d => rfl

/-- The content model of a type is compiled from its model group, for the names of the
declarations. -/
theorem exists_compile_of_model_finish {t : TypeId} {m : Automaton}
    (hm : c.finish.model t = .compiled m) :
    ∃ group, c.finish.groupOf? t = some group ∧
      Automaton.compile group (c.acceptedNames c.substitutions) c.version c.limits = .ok m := by
  rw [model_finish] at hm
  split at hm
  · cases hm
  · next group hgroup =>
    split at hm
    · next m' hcompile =>
      cases hm
      exact ⟨group, hgroup, hcompile⟩
    · cases hm

end Components

/-! ### Unordered groups -/

namespace ContentModel
namespace Node

variable {cs : List Node} {l : Node}

/-- A leaf without an upper bound can always take one more element. -/
theorem canStart_of_unbounded {s : Symbol} (hs : l.symbol? = some s)
    (hunbounded : l.occurs.unbounded = true) (st : Progress) : l.canStart st = true := by
  have hmax : l.occurs.max = none := Option.isNone_iff_eq_none.1 hunbounded
  rw [canStart, Occurs.full, hmax]
  cases l <;> cases hs <;> cases st <;> simp [complete]

theorem mem_allNextLeaves {sts : List Progress} (hl : l ∈ cs) (hlength : sts.length = cs.length)
    (hnext : ∀ st, l ∈ l.nextLeaves st) : l ∈ allNextLeaves cs sts := by
  induction cs generalizing sts with
  | nil => cases hl
  | cons c cs ih =>
    cases sts with
    | nil => cases hlength
    | cons st sts =>
      rw [allNextLeaves, List.mem_append]
      rcases List.mem_cons.1 hl with rfl | hl
      · exact Or.inl (hnext st)
      · exact Or.inr (ih hl (Nat.succ.inj hlength))

/-- Whatever has been taken, an unordered group that may occur offers its leaves without an upper
bound. -/
theorem mem_nextLeaves_of_unbounded {o : Occurs} {s : Symbol} {st : Progress}
    (hnever : o.never = false) (hst : (group o .all cs).Shaped st) (hl : l ∈ cs)
    (hs : l.symbol? = some s) (hunbounded : l.occurs.unbounded = true) :
    l ∈ (group o .all cs).nextLeaves st := by
  have hnext : ∀ st, l ∈ l.nextLeaves st := fun st => by
    rw [nextLeaves_of_leaf hs, if_pos (canStart_of_unbounded hs hunbounded st)]
    exact List.mem_singleton_self l
  rw [nextLeaves_group, List.mem_append]
  cases st with
  | leaf k =>
    obtain rfl : k = 0 := hst
    have hstart : (group o .all cs).canStart .fresh = true := by
      have hfull : o.full 0 = false := by
        rw [Occurs.never] at hnever
        cases hmax : o.max with
        | none => rw [Occurs.full, hmax]
        | some max =>
          rw [Occurs.full, hmax]
          simp_all
      simp [canStart, Progress.fresh, Progress.count, occurs, hfull]
    have hfirst : (group o .all cs).firstLeaves = allNextLeaves cs (cs.map fun _ => .fresh) :=
      (allNextLeaves_fresh cs).symm
    rw [show Progress.leaf 0 = .fresh from rfl, if_pos hstart, hfirst]
    exact Or.inr (mem_allNextLeaves hl (List.length_map _) hnext)
  | all k sts => exact Or.inl (mem_allNextLeaves hl hst.2 hnext)
  | sequence k i cur => exact hst.elim
  | choice k i cur => exact hst.elim

end Node

namespace Automaton

variable {m : Automaton} {g : ModelGroup} {accepts : ElementId → List Name} {version : Version}
  {limits : Limits}

/-- The content model of a group is a group of the same kind and bounds. -/
theorem exists_root_of_compile (h : compile g accepts version limits = .ok m) :
    ∃ cs, m.root = .group g.occurs g.compositor cs ∧
      m.variant = variantOf version g.compositor := by
  rw [compile, ModelGroup.toParticle, buildNode] at h
  split at h
  · cases h
  · cases hcs : buildNodes accepts limits 1 g.particles 0 with
    | error e => simp [bind, Except.bind, hcs] at h
    | ok built =>
      simp only [bind, Except.bind, hcs, pure, Except.pure] at h
      split at h
      · cases h
      · cases h
        exact ⟨_, rfl, rfl⟩

/-- **The members of an unordered group that are always offered can come next anyhow**, whatever has
been taken. -/
theorem mem_candidates_of_mem_unboundedMembers (hm : compile g accepts version limits = .ok m)
    (hnever : m.root.occurs.never = false) {w : List Name} {st : Progress}
    (hrun : m.replayable.run w = .ok st) {t : Term} (ht : t ∈ m.unboundedMembers) :
    t ∈ m.candidates st := by
  obtain ⟨cs, hroot, hvariant⟩ := exists_root_of_compile hm
  have hform := (wellFormed_of_run hrun).1.self
  cases hv : m.variant with
  | standard =>
    rw [unboundedMembers, hv] at ht
    cases ht
  | unordered11 =>
    have hall : g.compositor = .all := by
      rw [hvariant] at hv
      cases hc : g.compositor with
      | all => rfl
      | _ => rw [hc] at hv; cases hv
    rw [hall] at hroot
    rw [unboundedMembers, hv, hroot, List.mem_filterMap] at ht
    obtain ⟨l, hl, hterm⟩ := ht
    obtain ⟨hl, hunbounded⟩ := List.mem_filter.1 hl
    obtain ⟨s, hs⟩ : ∃ s, l.symbol? = some s := by cases l <;> first | exact ⟨_, rfl⟩ | cases hterm
    rw [hroot] at hnever hform
    refine mem_candidates.2 ⟨l, ?_, hterm⟩
    rw [nextLeaves, hroot]
    exact Node.mem_nextLeaves_of_unbounded hnever hform.shaped hl hs hunbounded

/-- **Nothing is offered that the content model does not offer.** -/
theorem mem_offered_iff (hm : compile g accepts version limits = .ok m)
    (hnever : m.root.occurs.never = false) {w : List Name} {st : Progress}
    (hrun : m.replayable.run w = .ok st) {t : Term} :
    t ∈ m.replayable.offered st ↔ t ∈ m.candidates st := by
  have hcandidates : m.replayable.candidates st = m.candidates st := rfl
  rw [Replayable.offered, hcandidates]
  cases m.replayable.variant with
  | standard => exact mem_distinct
  | unordered11 =>
    rw [mem_addAllNew, mem_distinct, or_iff_left_iff_imp]
    exact mem_candidates_of_mem_unboundedMembers hm hnever hrun

end Automaton
end ContentModel

/-- The name of a declaration is that of the element. -/
theorem Declaration.exists_element_of_ofGrammar? {g : Grammar} {d : ElementId} {e : Declaration}
    (h : ofGrammar? g d = some e) : ∃ decl, g.elements[d.index]? = some decl ∧ e.name = decl.name := by
  rw [ofGrammar?] at h
  obtain ⟨decl, hdecl, h⟩ := Option.bind_eq_some_iff.1 h
  obtain ⟨t, -, h⟩ := Option.bind_eq_some_iff.1 h
  obtain ⟨definition, -, h⟩ := Option.bind_eq_some_iff.1 h
  cases h
  exact ⟨decl, hdecl, rfl⟩

/-- The terms that may come next are those offered in the state that is reached. -/
theorem Replayable.exists_run_of_nextTerms {σ : Type} {m : Replayable σ} {w : List Name}
    {terms : List Term} (h : m.nextTerms w = .ok terms) :
    ∃ st, m.run w = .ok st ∧ m.offered st = terms := by
  rw [nextTerms] at h
  cases hrun : m.run w with
  | error r =>
    rw [hrun] at h
    cases h
  | ok st =>
    rw [hrun] at h
    exact ⟨st, rfl, Except.ok.inj h⟩

namespace Grammar

variable {c : Components} {g : Grammar} {t : TypeId} {m : Automaton} {closed : List Name}
  {terms : List Term}

/-- Of the terms that may come next, none is a wildcard. -/
def Definite (terms : List Term) : Prop := ∀ p, .wildcard p ∉ terms

theorem Definite.any_isLenient (h : Definite terms) : terms.any Term.isLenient = false := by
  rw [List.any_eq_false]
  rintro (d | p) ht
  · exact Bool.false_ne_true
  · exact absurd ht (h p)

/-- **What is suggested fits.**  After closed children that fit and that no wildcard may follow,
every element offered can be put behind them; offered are the elements that may come next, with
their direct members. -/
theorem run_suggested (hg : c.build = .ok g) (hm : g.model t = .compiled m)
    (hnever : m.root.occurs.never = false) (hterms : m.replayable.nextTerms closed = .ok terms)
    (hdefinite : Definite terms) {s : Session} (hs : s.grammar? = some g) :
    (∀ e ∈ ((Asking.candidatesAfter g t closed).run s).1.elements,
      ∃ st, m.replayable.run (closed ++ [e.name]) = .ok st) ∧
      ∀ d, .element d ∈ terms → ∀ e ∈ g.declared (d :: g.members d),
        e ∈ ((Asking.candidatesAfter g t closed).run s).1.elements := by
  rw [(Asking.gets_candidatesAfter hm hterms s hs).1, hdefinite.any_isLenient, if_neg nofun]
  simp only [mem_distinct, List.mem_flatMap]
  refine ⟨?_, fun d hd e he => ⟨.element d, hd, he⟩⟩
  rintro e ⟨t', ht', he⟩
  -- the term is an element, and `e` is it or one of its members
  cases t' with
  | wildcard p => exact absurd ht' (hdefinite p)
  | element d =>
    obtain ⟨d', hd', he⟩ := List.mem_filterMap.1 he
    obtain ⟨c', -, rfl⟩ := Components.exists_finish_of_build hg
    obtain ⟨group, -, hcompile⟩ := Components.exists_compile_of_model_finish hm
    obtain ⟨decl, hdecl, hname⟩ := Declaration.exists_element_of_ofGrammar? he
    obtain ⟨st, hrun, rfl⟩ := Replayable.exists_run_of_nextTerms hterms
    have hd := (Automaton.mem_offered_iff hcompile hnever hrun).1 ht'
    have hstep := Automaton.isSome_step_of_mem_candidates (Automaton.namedBy_of_compile hcompile) hd
      (Components.mem_acceptedNames hd' hdecl)
    rw [← hname] at hstep
    obtain ⟨⟨st', t'⟩, hstep⟩ := Option.isSome_iff_exists.1 hstep
    refine ⟨st', ?_⟩
    rw [Automaton.run_append hrun, Replayable.runFrom,
      show m.replayable.step st e.name = some (st', t') from hstep]
    rfl

/-- One to three shapes; a circle may stand in for a shape. -/
def shapes : Components where
  version := .v10
  limits := {}
  elements := #[{ name := .unqualified "shape", scoping := .global },
    { name := .unqualified "circle", scoping := .global, heads := [.unqualified "shape"] }]
  types := #[.complex {
    name? := none
    content := .group ⟨.sequence, [.elementRef (.unqualified "shape") ⟨1, some 3⟩], .once⟩ }]
  globalElements := ⟨[(.unqualified "shape", ⟨0⟩), (.unqualified "circle", ⟨1⟩)]⟩

/-- The content model of `shapes`. -/
def shapesModel : Automaton :=
  ⟨.group .once .sequence
    [.element ⟨1, some 3⟩ 1 ⟨0⟩ [.unqualified "shape", .unqualified "circle"]], .standard⟩

/-- After a circle another circle is offered, and fits. -/
theorem run_suggested_shapes :
    ∃ g, shapes.build = .ok g ∧ g.model ⟨0⟩ = .compiled shapesModel ∧
      shapesModel.root.occurs.never = false ∧
      shapesModel.replayable.nextTerms [.unqualified "circle"] = .ok [.element ⟨0⟩] ∧
      Definite [.element ⟨0⟩] ∧
      ∃ e ∈ ((Asking.candidatesAfter g ⟨0⟩ [.unqualified "circle"]).run (.ofGrammar g)).1.elements,
        e.name = .unqualified "circle" ∧
          ∃ st, shapesModel.replayable.run [.unqualified "circle", .unqualified "circle"] =
            .ok st := by
  let g := (Components.resolve.run shapes).2.finish
  have hg : shapes.build = .ok g := by
    rw [Components.build, show shapes.limits.checkComponents _ = .ok () from rfl]
  have hm : g.model ⟨0⟩ = .compiled shapesModel := by cbv
  have hterms : shapesModel.replayable.nextTerms [.unqualified "circle"] =
      .ok [.element ⟨0⟩] := rfl
  have hdefinite : Definite [.element ⟨0⟩] := fun p h => by cases List.mem_singleton.1 h
  have hcircle : ((g.declared (⟨0⟩ :: g.members ⟨0⟩)).any
      (·.name == .unqualified "circle")) = true := by decide +kernel
  obtain ⟨hfit, hoffered⟩ := run_suggested (s := .ofGrammar g) hg hm rfl hterms hdefinite rfl
  obtain ⟨e, he, hname⟩ := List.any_eq_true.1 hcircle
  have hname : e.name = .unqualified "circle" := eq_of_beq hname
  have he := hoffered ⟨0⟩ (List.mem_singleton_self _) e he
  exact ⟨g, hg, hm, rfl, hterms, hdefinite, e, he, hname, hname ▸ hfit e he⟩

end Grammar
end SchemaAssist
