/-
# What a grammar answers

While a grammar is there, the answers to questions are functions of it: which declarations are in
use, and what has been read of them, makes no difference (`Asking.Gets`).  The elements that terms
stand for are the main case (`gets_addTerms`).
-/

import SchemaAssist.Completion.Candidates

namespace SchemaAssist

open ContentModel (Term)

namespace Grammar

/-- The declarations of some elements. -/
def declared (g : Grammar) (ds : List ElementId) : List Declaration :=
  ds.filterMap (Declaration.ofGrammar? g)

/-- The declarations that a term stands for: an element for itself and its direct members, a strict
wildcard for all global elements. -/
def standsFor (g : Grammar) : Term → List Declaration
  | .element d => g.declared (d :: g.members d)
  | .wildcard .strict => g.declared g.globals
  | .wildcard _ => []

theorem id_of_ofGrammar? {g : Grammar} {d : ElementId} {e : Declaration}
    (h : Declaration.ofGrammar? g d = some e) : e.id = d := by
  rw [Declaration.ofGrammar?] at h
  obtain ⟨decl, -, h⟩ := Option.bind_eq_some_iff.1 h
  obtain ⟨t, -, h⟩ := Option.bind_eq_some_iff.1 h
  obtain ⟨definition, -, h⟩ := Option.bind_eq_some_iff.1 h
  cases h
  rfl

end Grammar

/-- A wildcard that admits elements without a declaration. -/
def ContentModel.Term.isLenient : Term → Bool
  | .wildcard .strict => false
  | .wildcard _ => true
  | .element _ => false

namespace Asking

theorem run_bind {α β : Type} (x : Asking α) (f : α → Asking β) (s : Session) :
    (x >>= f).run s = (f (x.run s).1).run (x.run s).2 := rfl

/-- The answer to a question, whatever is in use, as long as the grammar is there; it stays. -/
def Gets {α : Type} (g : Grammar) (x : Asking α) (a : α) : Prop :=
  ∀ s : Session, s.grammar? = some g → (x.run s).1 = a ∧ (x.run s).2.grammar? = some g

namespace Gets

variable {α β : Type} {g : Grammar} {a : α} {b : β}

theorem pure (g : Grammar) (a : α) : Gets g (pure a) a := fun _ hs => ⟨rfl, hs⟩

theorem bind {x : Asking α} {f : α → Asking β} (hx : Gets g x a) (hf : Gets g (f a) b) :
    Gets g (x >>= f) b := by
  intro s hs
  obtain ⟨ha, hg⟩ := hx s hs
  rw [run_bind, ha]
  exact hf _ hg

theorem mapM {f : α → Asking β} {k : α → β} {as : List α} (h : ∀ a ∈ as, Gets g (f a) (k a)) :
    Gets g (as.mapM f) (as.map k) := by
  induction as with
  | nil => exact pure g []
  | cons a as ih =>
    rw [List.forall_mem_cons] at h
    rw [List.mapM_cons, List.map_cons]
    exact h.1.bind ((ih h.2).bind (pure g _))

end Gets

variable {g : Grammar}

theorem gets_grammar? (g : Grammar) : Gets g grammar? (some g) := fun _ hs => ⟨hs, hs⟩

theorem run_withGrammar {α : Type} {s : Session} (hs : s.grammar? = some g) (without : α)
    (answer : Grammar → Asking α) : (withGrammar without answer).run s = (answer g).run s := by
  have hgrammar : grammar?.run s = (some g, s) := congrArg (·, s) hs
  rw [withGrammar, run_bind, hgrammar]

theorem run_place? {s : Session} (hs : s.grammar? = some g) (d : ElementId) :
    (place? d).run s = s.use d := run_withGrammar hs none _

theorem run_declaration? {s : Session} (hs : s.grammar? = some g) (d : ElementId) :
    (declaration? d).run s =
      (((s.use d).1.bind (s.use d).2.wrapper?).map (·.declaration), (s.use d).2) := by
  rw [declaration?, run_bind, run_place? hs]
  cases (s.use d).1 <;> rfl

/-- The declaration of an element is found at its place in use. -/
theorem gets_declaration? (g : Grammar) (d : ElementId) :
    Gets g (declaration? d) (Declaration.ofGrammar? g d) := by
  intro s hs
  rw [run_declaration? hs]
  obtain ⟨rfl, halive⟩ := Session.grammar?_eq_some.1 hs
  exact ⟨s.declares.declaration_get d, hs⟩

theorem gets_declarations (g : Grammar) (ds : List ElementId) :
    Gets g (declarations ds) (g.declared ds) := by
  have hmap := Gets.mapM fun d (_ : d ∈ ds) => gets_declaration? g d
  have hdeclared : (ds.map (Declaration.ofGrammar? g)).filterMap id = g.declared ds := by
    rw [List.filterMap_map]
    rfl
  rw [← hdeclared]
  exact hmap.bind (.pure g _)

theorem gets_globals (g : Grammar) : Gets g globals (g.declared g.globals) :=
  (gets_grammar? g).bind (gets_declarations g _)

/-- **The elements that terms stand for**: any at all if a lenient wildcard is among the terms, and
else what the terms stand for, each once, in order. -/
theorem gets_addTerms (found : List Declaration) (terms : List Term) :
    Gets g (addTerms g found terms)
      (if terms.any Term.isLenient then .any
        else ⟨addAllNew found (terms.flatMap g.standsFor), false⟩) := by
  induction terms generalizing found with
  | nil => exact .pure g _
  | cons t terms ih =>
    have hnext := ih (addAllNew found (g.standsFor t))
    rw [← addAllNew_append, ← List.flatMap_cons] at hnext
    cases t with
    | element d => exact (gets_declarations g _).bind hnext
    | wildcard p =>
      cases p with
      | strict => exact (gets_globals g).bind hnext
      | lax => exact .pure g _
      | skip => exact .pure g _

/-- What is offered after closed children that fit is what the terms that come next stand for. -/
theorem gets_candidatesAfter {t : TypeId} {m : ContentModel.Automaton} {closed : List Name}
    {terms : List Term} (hm : g.model t = .compiled m)
    (hterms : m.replayable.nextTerms closed = .ok terms) :
    Gets g (candidatesAfter g t closed)
      (if terms.any Term.isLenient then .any
        else ⟨distinct (terms.flatMap g.standsFor), false⟩) := by
  have hguided : Gets g (guidedAfter g t closed) (.ok
      (if terms.any Term.isLenient then .any
        else ⟨distinct (terms.flatMap g.standsFor), false⟩)) := by
    rw [guidedAfter, hm]
    simp only [hterms]
    exact (gets_addTerms [] terms).bind (.pure g _)
  exact hguided.bind (.pure g _)

end Asking
end SchemaAssist
