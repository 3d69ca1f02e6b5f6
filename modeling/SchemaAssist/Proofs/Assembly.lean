/-
# How candidates are put together

What is offered after some children is put together from the terms that the content model allows
next, with declarations that are looked up one by one.  Nothing is lost on the way, since nothing
dangles in a grammar that is built, and nothing is repeated: the elements offered are those that the
terms stand for, each where it comes first (`Grammar.ids_candidatesAfter`).
-/

import SchemaAssist.Proofs.Numbering
import SchemaAssist.Proofs.Suggestions
import SchemaAssist.Proofs.Truncation

namespace SchemaAssist

open ContentModel (Automaton Term)

/-- Without repeats, other names come in the same order, if different things have different ones. -/
theorem map_distinct {α β : Type} [DecidableEq α] [DecidableEq β] {f : α → β} {xs : List α}
    (hf : ∀ x ∈ xs, ∀ y ∈ xs, f x = f y → x = y) : (distinct xs).map f = (xs.map f).eraseDups := by
  induction xs using List.reverseRecOn with
  | nil => rfl
  | append_singleton xs x ih =>
    have hstep : distinct (xs ++ [x]) = addNew (distinct xs) x := addAllNew_append [] xs [x]
    have hsame := ih fun y hy z hz => hf y (List.mem_append_left _ hy) z (List.mem_append_left _ hz)
    have hmem : f x ∈ xs.map f ↔ x ∈ xs := by
      refine ⟨fun h => ?_, List.mem_map_of_mem⟩
      obtain ⟨y, hy, heq⟩ := List.mem_map.1 h
      exact hf y (List.mem_append_left _ hy) x (by simp) heq ▸ hy
    rw [hstep, List.map_append, List.map_singleton, List.eraseDups_append, ← hsame, addNew,
      List.removeAll, List.filter_cons, List.filter_nil]
    by_cases hx : x ∈ xs
    · rw [if_pos (mem_distinct.2 hx), List.elem_eq_true_of_mem (hmem.2 hx)]
      exact (List.append_nil _).symm
    · have hnew : (xs.map f).elem (f x) = false :=
        Bool.eq_false_iff.2 fun h => hx (hmem.1 (List.mem_of_elem_eq_true h))
      rw [if_neg fun h => hx (mem_distinct.1 h), hnew, List.map_append]
      rfl

namespace Grammar

variable {version : Version} {limits : Limits} {g : Grammar} {docs : List Submission} {t : TypeId}
  {m : Automaton} {closed : List Name} {terms : List Term}

/-- The elements that a term stands for: an element for itself and its direct members, a strict
wildcard for all global elements. -/
def elementsOf (g : Grammar) : Term → List ElementId
  | .element d => d :: g.members d
  | .wildcard .strict => g.globals
  | .wildcard _ => []

theorem standsFor_eq (g : Grammar) (term : Term) :
    g.standsFor term = g.declared (g.elementsOf term) := by
  cases term with
  | element d => rfl
  | wildcard p => cases p <;> rfl

/-- A grammar mentions all elements that the terms of its content models stand for. -/
theorem mentions_of_mem_elementsOf (hm : g.model t = .compiled m)
    (hterms : m.replayable.nextTerms closed = .ok terms) {term : Term} (hterm : term ∈ terms)
    {d : ElementId} (hd : d ∈ g.elementsOf term) : g.Mentions d := by
  obtain ⟨st, -, rfl⟩ := Replayable.exists_run_of_nextTerms hterms
  obtain ⟨l, hl, hleaf⟩ := Automaton.exists_leaf_of_offered hterm
  cases term with
  | element head =>
    rcases List.mem_cons.1 hd with rfl | hd
    · exact .leaf hm hl hleaf
    · exact .member hd
  | wildcard p =>
    cases p with
    | strict =>
      obtain ⟨⟨n, d⟩, hentry, rfl⟩ := List.mem_map.1 hd
      exact .global hentry
    | lax => cases hd
    | skip => cases hd

/-- What terms stand for are the declarations of elements, one for each. -/
theorem ids_flatMap_standsFor (hclosed : g.Closed)
    (hmentions : ∀ term ∈ terms, ∀ d ∈ g.elementsOf term, g.Mentions d) :
    (terms.flatMap g.standsFor).map (·.id) = terms.flatMap g.elementsOf := by
  induction terms with
  | nil => rfl
  | cons term terms ih =>
    rw [List.forall_mem_cons] at hmentions
    rw [List.flatMap_cons, List.flatMap_cons, List.map_append, ih hmentions.2, standsFor_eq,
      (declared_spec hclosed hmentions.1).1]

/-- Two declarations of one element are the same. -/
theorem eq_of_mem_standsFor {e e' : Declaration} (he : e ∈ terms.flatMap g.standsFor)
    (he' : e' ∈ terms.flatMap g.standsFor) (hid : e.id = e'.id) : e = e' := by
  have hdeclared {e : Declaration} (he : e ∈ terms.flatMap g.standsFor) :
      Declaration.ofGrammar? g e.id = some e := by
    obtain ⟨term, -, he⟩ := List.mem_flatMap.1 he
    rw [standsFor_eq] at he
    obtain ⟨d, -, hd⟩ := List.mem_filterMap.1 he
    rwa [id_of_ofGrammar? hd]
  exact Option.some.inj ((hdeclared he).symm.trans (hid ▸ hdeclared he'))

/-- **Nothing is lost and nothing repeated when candidates are put together.**  After children that
fit the content model of a type, any element at all is offered, and none in particular, exactly if a
lenient wildcard is among the terms that come next.  Otherwise the elements offered are those that
the terms stand for, each where it comes first; and these are, for an element, itself and then all
that join its substitution group, and for a strict wildcard all global elements, both in the order
of their declarations. -/
theorem ids_candidatesAfter (hg : ((Components.empty version limits).after docs).build = .ok g)
    (hm : g.model t = .compiled m) (hterms : m.replayable.nextTerms closed = .ok terms)
    {s : Session} (hs : s.grammar? = some g) :
    let offered := ((Asking.candidatesAfter g t closed).run s).1
    (offered = .any ↔ ∃ p, p ≠ .strict ∧ .wildcard p ∈ terms) ∧
      ((∀ p, .wildcard p ∈ terms → p = .strict) → offered.anyElement = false ∧
        offered.elements.map (·.id) = (terms.flatMap g.elementsOf).eraseDups) ∧
      (∀ head, Ascending (g.members head) ∧ ∀ d, d ∈ g.members head ↔ g.Joins d head) ∧
      Ascending g.globals ∧ ∀ d, d ∈ g.globals ↔ ∃ n, g.globalElements.find? n = some d := by
  intro offered
  have hoffered : offered = if terms.any Term.isLenient then .any
      else ⟨distinct (terms.flatMap g.standsFor), false⟩ :=
    (Asking.gets_candidatesAfter hm hterms s hs).1
  have hlenient : terms.any Term.isLenient = true ↔ ∃ p, p ≠ .strict ∧ .wildcard p ∈ terms := by
    rw [List.any_eq_true]
    constructor
    · rintro ⟨term, hterm, h⟩
      cases term with
      | element d => cases h
      | wildcard p =>
        refine ⟨p, ?_, hterm⟩
        rintro rfl
        cases h
    · rintro ⟨p, hp, hterm⟩
      refine ⟨_, hterm, ?_⟩
      cases p with
      | strict => exact absurd rfl hp
      | _ => rfl
  refine ⟨?_, fun hstrict => ?_, members_spec hg, globals_spec hg⟩
  · rw [hoffered, ← hlenient]
    cases terms.any Term.isLenient with
    | true => exact iff_of_true rfl rfl
    | false =>
      refine iff_of_false (fun h => ?_) Bool.false_ne_true
      have hflag : false = true := congrArg Candidates.anyElement h
      cases hflag
  · have hnone : ¬ terms.any Term.isLenient = true := by
      rw [hlenient]
      rintro ⟨p, hp, hterm⟩
      exact hp (hstrict p hterm)
    rw [hoffered, if_neg hnone]
    refine ⟨rfl, ?_⟩
    rw [map_distinct fun _ he _ he' => eq_of_mem_standsFor he he',
      ids_flatMap_standsFor (closed_of_build hg) fun _ hterm _ hd =>
        mentions_of_mem_elementsOf hm hterms hterm hd]

/-- A shape, for which a circle may stand in, before any declared element of another namespace. -/
def shapeAndOther : Submission where
  text := "<s:schema xmlns:s='http://www.w3.org/2001/XMLSchema'>" ++
    "<s:element name='shape'/><s:element name='note'/>" ++
    "<s:element name='circle' substitutionGroup='shape'/>" ++
    "<s:complexType name='T'><s:sequence><s:element ref='shape' minOccurs='0'/>" ++
    "<s:any namespace='##other'/></s:sequence></s:complexType></s:schema>"
  location := .path "shapes.xsd"

/-- At the beginning the shape and the circle are offered for the first term, and only the note is
new for the second. -/
theorem ids_candidatesAfter_shapeAndOther :
    ∃ g m, ((Components.empty .v11 {}).after [shapeAndOther]).build = .ok g ∧
      g.model ⟨0⟩ = .compiled m ∧
      m.replayable.nextTerms [] = .ok [.element ⟨0⟩, .wildcard .strict] ∧
      (((Asking.candidatesAfter g ⟨0⟩ []).run (.ofGrammar g)).1.elements.map (·.id)) =
        [⟨0⟩, ⟨2⟩, ⟨1⟩] := by
  have hbuilt : ∃ g ∈ ((Components.empty .v11 {}).after [shapeAndOther]).build.toOption,
      ∃ m ∈ g.automaton? ⟨0⟩,
        (m.replayable.nextTerms []).toOption = some [.element ⟨0⟩, .wildcard .strict] ∧
        g.members ⟨0⟩ = [⟨2⟩] ∧ g.globals = [⟨0⟩, ⟨1⟩, ⟨2⟩] := by
    decide +kernel
  obtain ⟨g, hg, m, hm, hnext, hmembers, hglobals⟩ := hbuilt
  have hterms : m.replayable.nextTerms [] = .ok [.element ⟨0⟩, .wildcard .strict] := by
    cases h : m.replayable.nextTerms [] with
    | error r =>
      rw [h] at hnext
      cases hnext
    | ok terms =>
      rw [h] at hnext
      exact congrArg Except.ok (Option.some.inj hnext)
  have hs : (Session.ofGrammar g).grammar? = some g := rfl
  obtain ⟨-, hids, -⟩ :=
    ids_candidatesAfter (Components.build_of_mem hg) (model_of_automaton? hm) hterms hs
  refine ⟨g, m, Components.build_of_mem hg, model_of_automaton? hm, hterms, ?_⟩
  rw [(hids fun p hp => by simpa using hp).2]
  simp only [List.flatMap_cons, List.flatMap_nil, elementsOf, hmembers, hglobals]
  decide

end Grammar
end SchemaAssist
