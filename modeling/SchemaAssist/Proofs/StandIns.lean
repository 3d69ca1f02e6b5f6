/-
# Which elements stand in for another

An element may stand in for another if it names it among its heads, or names one that may stand in
for it.  The leaf of an element in a content model accepts the names of just these elements and its
own, and the members of its substitution group at any distance are just these elements
(`Grammar.allMembers_spec`).  Both come in the order of a depth-first walk, so that the one list of
names is that of the other without repeats.
-/

import SchemaAssist.Proofs.Answers
import SchemaAssist.Proofs.Integrity
import SchemaAssist.Proofs.Preorder

namespace SchemaAssist

open ContentModel (Automaton Node)
open Relation (ReflTransGen TransGen)

namespace Grammar

/-- An element joins the substitution group of another, global element: it names that one among its
heads. -/
def Joins (g : Grammar) (d head : ElementId) : Prop :=
  ∃ e ∈ g.element? d, ∃ n ∈ e.heads, g.globalElements.find? n = some head

instance (g : Grammar) (d head : ElementId) : Decidable (g.Joins d head) :=
  inferInstanceAs (Decidable (∃ e ∈ g.element? d, ∃ n ∈ e.heads, _))

/-- The elements that join the substitution group of another, in the order of their declarations. -/
def joining (g : Grammar) (head : ElementId) : List ElementId :=
  Components.membersAmong g.globalElements head g.elements.toList.zipIdx

end Grammar

namespace Components

variable {c : Components} {d head : ElementId}

theorem mem_members_iff_joins (hc : c.Intact) :
    d ∈ c.substitutions.members head ↔ c.finish.Joins d head := by
  rw [mem_members_substitutions]
  constructor
  · rintro ⟨-, e, he, hhead⟩
    obtain ⟨n, hn, hfind⟩ := List.mem_filterMap.1 hhead
    exact ⟨e, he, n, hn, hfind⟩
  · rintro ⟨e, he, n, hn, hfind⟩
    have hhead : head.index < c.elements.size := NameTable.sound_find? hc.globalElements hfind
    exact ⟨hhead, e, he, List.mem_filterMap.2 ⟨n, hn, hfind⟩⟩

/-- The members in the table are the elements that join the group. -/
theorem members_eq_joining (hc : c.Intact) (head : ElementId) :
    c.substitutions.members head = c.finish.joining head := by
  by_cases hhead : head.index < c.elements.size
  · exact members_substitutions hhead
  · have hnone : c.finish.joining head = [] := by
      refine List.map_eq_nil_iff.2 (List.filter_eq_nil_iff.2 fun p hp hnames => hhead ?_)
      obtain ⟨n, hn, hfind⟩ := List.mem_filterMap.1 (of_decide_eq_true hnames)
      exact NameTable.sound_find? hc.globalElements hfind
    rw [hnone, Substitutions.members_eq_nil (by rw [size_substitutions]; omega)]

/-- What a head leads to along its members are the elements from which a chain of heads leads to
it. -/
theorem mem_closure_iff (hc : c.Intact) :
    d ∈ c.substitutions.closure head ↔ ReflTransGen c.finish.Joins d head := by
  obtain ⟨out, hout, hwalk⟩ := c.substitutions.exists_gather [] [head]
  have hswap : (fun a b => b ∈ c.substitutions.members a) = Function.swap c.finish.Joins := by
    funext a b
    exact propext (mem_members_iff_joins hc)
  rw [Substitutions.closure, hout, List.nil_append, hwalk.mem_iff, hswap,
    Relation.reflTransGen_swap]

theorem nodup_closure (s : Substitutions) (d : ElementId) : (s.closure d).Nodup := by
  obtain ⟨out, hout, hwalk⟩ := s.exists_gather [] [d]
  rw [Substitutions.closure, hout, List.nil_append]
  exact hwalk.nodup.1

/-- The members at any distance are the elements from which a chain of heads leads to the element,
without the element itself. -/
theorem mem_expansion_iff (hc : c.Intact) :
    d ∈ c.substitutions.expansion head ↔ d ≠ head ∧ TransGen c.finish.Joins d head := by
  obtain ⟨hclosure, -⟩ := c.substitutions.closure_eq head
  have hnodup := nodup_closure c.substitutions head
  have hmem : d ∈ c.substitutions.closure head ↔ ReflTransGen c.finish.Joins d head :=
    mem_closure_iff hc
  rw [hclosure, List.nodup_cons] at hnodup
  rw [hclosure, List.mem_cons, Relation.reflTransGen_iff_eq_or_transGen] at hmem
  constructor
  · intro hd
    have hne : d ≠ head := fun heq => hnodup.1 (heq ▸ hd)
    exact ⟨hne, (hmem.1 (Or.inr hd)).resolve_left fun heq => hne heq.symm⟩
  · rintro ⟨hne, hreach⟩
    exact (hmem.2 (Or.inr hreach)).resolve_left hne

/-- The names accepted for an element are its own and those of all members. -/
theorem acceptedNames_eq {e : ElementDecl} (he : c.elements[head.index]? = some e) :
    c.acceptedNames c.substitutions head = distinct (e.name ::
      (c.substitutions.expansion head).filterMap fun d => c.elements[d.index]?.map (·.name)) := by
  rw [acceptedNames, (c.substitutions.closure_eq head).1, List.filterMap_cons, he, Option.map_some]

end Components

namespace Grammar

variable {version : Version} {limits : Limits} {g : Grammar} {ds : List ElementId}

/-- Every element that a closed grammar mentions is there when declarations are asked for. -/
theorem declared_spec (hclosed : g.Closed) (hds : ∀ d ∈ ds, g.Mentions d) :
    (g.declared ds).map (·.id) = ds ∧
      (g.declared ds).map (·.name) = ds.filterMap fun d => (g.element? d).map (·.name) := by
  induction ds with
  | nil => exact ⟨rfl, rfl⟩
  | cons d ds ih =>
    rw [List.forall_mem_cons] at hds
    obtain ⟨e, he⟩ := hclosed.declared d hds.1
    obtain ⟨hids, hnames⟩ := ih hds.2
    obtain ⟨decl, hdecl, hname⟩ := Declaration.exists_element_of_ofGrammar? he
    have hcons : g.declared (d :: ds) = e :: g.declared ds := List.filterMap_cons_some he
    have hfirst : (g.element? d).map (·.name) = some e.name := by
      rw [hname, element?, hdecl, Option.map_some]
    rw [hcons, List.map_cons, List.map_cons, hids, hnames, id_of_ofGrammar? he]
    exact ⟨rfl, by simp only [List.filterMap_cons, hfirst]⟩

/-- **Content models and lists of members agree on which elements stand in for another**, and on
their order.  A leaf accepts the names of the elements from which a chain of heads leads to its own,
that one included; the members at any distance are all others of these elements, each once and with
its declaration, in the order of a depth-first walk along the declarations; and the names that a
leaf accepts come in that order. -/
theorem allMembers_spec {docs : List Submission}
    (hg : ((Components.empty version limits).after docs).build = .ok g) {d : ElementId}
    {e : ElementDecl} (he : g.element? d = some e) {s : Session} (hs : s.grammar? = some g) :
    let found := ((Asking.declarations (g.allMembers d)).run s).1
    (∀ t m o k names, g.model t = .compiled m → Node.element o k d names ∈ m.root.subtrees →
      (∀ n, n ∈ names ↔
        ∃ d' e', ReflTransGen g.Joins d' d ∧ g.element? d' = some e' ∧ e'.name = n) ∧
      names = distinct (e.name :: found.map (·.name))) ∧
    found.map (·.id) = g.allMembers d ∧ (g.allMembers d).Nodup ∧
    (∀ d', d' ∈ g.allMembers d ↔ d' ≠ d ∧ TransGen g.Joins d' d) ∧
    DepthFirst g.joining [d] (g.joining d) (g.allMembers d) := by
  obtain ⟨hintact, -⟩ := Components.intact_after (Components.intact_empty version limits) docs
  obtain ⟨c, hsettled, htyped, rfl⟩ := Components.exists_settled_of_build hintact hg
  have hclosed := Components.closed_finish hsettled htyped
  have hall : c.finish.allMembers d = c.substitutions.expansion d := rfl
  obtain ⟨hclosure, hwalk⟩ := c.substitutions.closure_eq d
  have hmem (d' : ElementId) : d' ∈ c.finish.allMembers d ↔ d' ≠ d ∧ TransGen c.finish.Joins d' d :=
    Components.mem_expansion_iff hsettled.intact
  have hmentions (d' : ElementId) (hd' : d' ∈ c.finish.allMembers d) : c.finish.Mentions d' := by
    obtain ⟨head, hjoins, -⟩ := Relation.TransGen.head'_iff.1 ((hmem d').1 hd').2
    exact .member ((Components.mem_members_iff_joins hsettled.intact).2 hjoins)
  obtain ⟨hids, hnames⟩ := declared_spec hclosed hmentions
  have hfound := (Asking.gets_declarations c.finish (c.finish.allMembers d) s hs).1
  have haccepted := Components.acceptedNames_eq (c := c) he
  have hmembers : c.substitutions.members = c.finish.joining :=
    funext (Components.members_eq_joining hsettled.intact)
  have hnodup := Components.nodup_closure c.substitutions d
  rw [hclosure, List.nodup_cons] at hnodup
  rw [hmembers] at hwalk
  refine ⟨fun t m o k names hm hl => ?_, ?_, hnodup.2, hmem, hwalk⟩
  · obtain ⟨group, -, hcompile⟩ := Components.exists_compile_of_model_finish hm
    obtain ⟨p, -, horigin⟩ := Automaton.exists_origin hcompile hl
    cases horigin
    refine ⟨fun n => ?_, ?_⟩
    · rw [Components.acceptedNames, mem_distinct, List.mem_filterMap]
      simp only [Components.mem_closure_iff hsettled.intact, Option.map_eq_some_iff]
      constructor
      · rintro ⟨d', hreach, e', he', hname⟩
        exact ⟨d', e', hreach, he', hname⟩
      · rintro ⟨d', e', hreach, he', hname⟩
        exact ⟨d', hreach, e', he', hname⟩
    · rw [haccepted, hfound, hnames]
      rfl
  · rw [hfound, hids]

/-- A ring of three elements, the last of which joins two groups, and a type for the first. -/
def ring : Submission where
  text := "<s:schema xmlns:s='http://www.w3.org/2001/XMLSchema'>" ++
    "<s:element name='a' substitutionGroup='c'/><s:element name='b' substitutionGroup='a'/>" ++
    "<s:element name='c' substitutionGroup='b a'/>" ++
    "<s:complexType name='T'><s:sequence><s:element ref='a'/></s:sequence></s:complexType>" ++
    "</s:schema>"
  location := .path "ring.xsd"

/-- The others of a ring stand in for `a`, which does not stand in for itself. -/
theorem allMembers_spec_ring :
    ∃ g, ((Components.empty .v10 {}).after [ring]).build = .ok g ∧ (g.element? ⟨0⟩).isSome ∧
      ⟨1⟩ ∈ g.allMembers ⟨0⟩ ∧ ⟨2⟩ ∈ g.allMembers ⟨0⟩ ∧ ⟨0⟩ ∉ g.allMembers ⟨0⟩ ∧
      ((Asking.declarations (g.allMembers ⟨0⟩)).run (.ofGrammar g)).1.map (·.id) =
        g.allMembers ⟨0⟩ := by
  have hbuilt : ∃ g ∈ ((Components.empty .v10 {}).after [ring]).build.toOption,
      (g.element? ⟨0⟩).isSome ∧ g.Joins ⟨1⟩ ⟨0⟩ ∧ g.Joins ⟨2⟩ ⟨1⟩ := by
    decide +kernel
  obtain ⟨g, hbuild, hfirst, hsecond, hthird⟩ := hbuilt
  have hg := Components.build_of_mem hbuild
  obtain ⟨e, he⟩ := Option.isSome_iff_exists.1 hfirst
  have hs : (Session.ofGrammar g).grammar? = some g := rfl
  obtain ⟨-, hids, -, hmem, -⟩ := allMembers_spec hg he hs
  refine ⟨g, hg, hfirst, (hmem ⟨1⟩).2 ⟨by decide, .single hsecond⟩,
    (hmem ⟨2⟩).2 ⟨by decide, .head hthird (.single hsecond)⟩, fun h => ((hmem ⟨0⟩).1 h).1 rfl, hids⟩

end Grammar
end SchemaAssist
