/-
# Grammars that differ in identifiers

A grammar is the counterpart of another one (`Grammar.Counterpart`) if it holds the same under other
identifiers: the same declarations, types, documents and content models, each in its place, and the
same names, members of substitution groups and reports in some order.  Rearranged components in which
everything has been looked up give such grammars (`Components.Rearranged.counterpart`): the same
elements join a group, so the leaves of content models match the same names, each its own first, and
model groups are compiled alike.
-/

import SchemaAssist.Proofs.Recompiling
import SchemaAssist.Proofs.Reordering
import SchemaAssist.Proofs.StandIns

namespace SchemaAssist

open ContentModel (Automaton)
open Referring (rename Sound)
open Relation (ReflTransGen)

/-- Two content models are the same but for identifiers, or both types have none, or both model
groups are refused in the same words. -/
inductive ModelSlot.Like (f : ElementId → ElementId) : ModelSlot → ModelSlot → Prop
  | compiled {m : Automaton} {a : ElementId → List Name} :
    m.root.NamedAs a → Like f (.compiled m) (.compiled (m.relabel f a))
  | absent : Like f .absent .absent
  | refused {r r' : ContentModel.Refusal} : r'.message = r.message → Like f (.refused r) (.refused r')

/-- A grammar holds the same as another one, but for identifiers. -/
structure Grammar.Counterpart (ρ : Renaming) (g g' : Grammar) : Prop where
  version : g'.version = g.version
  element_inj : ρ.element.Injective
  elements : ∀ d, g'.element? (ρ.element d) = rename ρ (g.element? d)
  types : ∀ t, g'.type? (ρ.type t) = rename ρ (g.type? t)
  typeCount : g'.types.size = g.types.size
  locations : ∀ n, g'.locations[ρ.document n]? = g.locations[n]?
  globalElements : ∀ n, g'.globalElements.find? n = rename ρ (g.globalElements.find? n)
  elementEntries : g'.globalElements.entries.Perm (rename ρ g.globalElements.entries)
  typeEntries : g'.globalTypes.entries.Perm (rename ρ g.globalTypes.entries)
  members : ∀ d e, e ∈ g'.members (ρ.element d) ↔ e ∈ (g.members d).map ρ.element
  models : ∀ t, (g.model t).Like ρ.element (g'.model (ρ.type t))
  reports : (g'.problems.toList.map Problem.report).Perm (g.problems.toList.map Problem.report)

/-! ### Where a renaming comes from -/

theorem Renaming.Shuffles.element_bijective {ρ : Renaming} {e : Extent} (h : ρ.Shuffles e) :
    ρ.element.Bijective := by
  refine ⟨fun d d' heq => h.element_inj d d' heq, fun d => ?_⟩
  by_cases hd : d.index < e.elements
  · have hperm : ((List.range e.elements).map fun i => (ρ.element ⟨i⟩).index).Perm
        (List.range e.elements) :=
      Components.map_range_perm (fun i j heq => congrArg ElementId.index
        (h.element_inj ⟨i⟩ ⟨j⟩ (congrArg ElementId.mk heq))) fun i hi => h.element_lt hi
    obtain ⟨i, -, hi⟩ := List.mem_map.1 (hperm.mem_iff.2 (List.mem_range.2 hd))
    exact ⟨⟨i⟩, congrArg ElementId.mk hi⟩
  · exact ⟨d, h.element_fix d (Nat.le_of_not_lt hd)⟩

/-! ### Types under other identifiers -/

namespace TypeDef

variable {ρ : Renaming}

theorem group?_rename (d : TypeDef) : (rename ρ d).group? = rename ρ d.group? := by
  cases d with
  | simple st => rfl
  | complex ct =>
    obtain ⟨name?, content, mixed, attributes, groups, derivation?, isAbstract, documentation?⟩ := ct
    cases content <;> rfl

theorem name?_rename (d : TypeDef) : (rename ρ d).name? = d.name? := by cases d <;> rfl

theorem category_rename (d : TypeDef) : (rename ρ d).category = d.category := by cases d <;> rfl

theorem documentation?_rename (d : TypeDef) : (rename ρ d).documentation? = d.documentation? := by
  cases d <;> rfl

theorem contentKind_rename (d : TypeDef) : (rename ρ d).contentKind = d.contentKind := by
  cases d with
  | simple st => rfl
  | complex ct =>
    obtain ⟨name?, content, mixed, attributes, groups, derivation?, isAbstract, documentation?⟩ := ct
    cases content <;> cases mixed <;> rfl

theorem label_rename (d : TypeDef) : (rename ρ d).label = d.label := by
  rw [label, label, name?_rename]

end TypeDef

/-! ### What is wrong with content models -/

namespace Components

variable {c c' : Components} {ρ : Renaming} {d head : ElementId}

/-- The report on the content model of a type, if it was refused. -/
def modelReports (c : Components) (d : TypeDef) : List Report :=
  ((modelFault? d (c.compileModel c.substitutions d)).map fun f => f.problem.report).toList

/-- The reports of a grammar: what was wrong before, and then each content model that was refused. -/
theorem reports_finish (c : Components) : c.finish.problems.toList.map Problem.report =
    c.problems.toList.map Problem.report ++ c.types.toList.flatMap c.modelReports := by
  have hzip : c.types.toList.zip (c.types.map (c.compileModel c.substitutions)).toList =
      c.types.toList.map fun d => (d, c.compileModel c.substitutions d) := by
    rw [Array.toList_map, List.map_prod_left_eq_zip]
  have hfaults (ds : List TypeDef) :
      ((ds.filterMap fun d => modelFault? d (c.compileModel c.substitutions d)).map
        Fault.problem).map Problem.report = ds.flatMap c.modelReports := by
    rw [List.map_map, List.map_filterMap, List.filterMap_eq_flatMap_toList]
    rfl
  rw [finish]
  dsimp only
  rw [Array.toList_appendList, List.map_append, hzip, List.filterMap_map]
  exact congrArg _ (hfaults c.types.toList)

theorem message_modelRefused {label : String} {r r' : ContentModel.Refusal}
    (h : r'.message = r.message) :
    (Fault.modelRefused label r').message = (Fault.modelRefused label r).message := by
  unfold Fault.message
  dsimp only
  rw [h]

theorem modelFault?_of_like {f : ElementId → ElementId} (d : TypeDef) {slot slot' : ModelSlot}
    (h : slot.Like f slot') : (modelFault? (rename ρ d) slot').map (·.problem.report) =
      (modelFault? d slot).map (·.problem.report) := by
  cases h with
  | compiled => rfl
  | absent => rfl
  | @refused r r' hmessage =>
    rw [modelFault?, modelFault?, TypeDef.label_rename]
    exact congrArg (fun message => some (Report.mk message none none))
      (message_modelRefused hmessage)

/-! ### Which names are accepted -/

/-- The names accepted for an element are those of the elements from which a chain of heads leads
to it. -/
theorem mem_acceptedNames_iff (hc : c.Intact) {n : Name} :
    n ∈ c.acceptedNames c.substitutions head ↔
      ∃ d e, ReflTransGen c.finish.Joins d head ∧ c.elements[d.index]? = some e ∧ e.name = n := by
  rw [acceptedNames, mem_distinct, List.mem_filterMap]
  simp only [mem_closure_iff hc, Option.map_eq_some_iff]
  constructor
  · rintro ⟨d, hreach, e, he, hname⟩
    exact ⟨d, e, hreach, he, hname⟩
  · rintro ⟨d, e, hreach, he, hname⟩
    exact ⟨d, hreach, e, he, hname⟩

/-- The name of an element is the first one accepted for it. -/
theorem head?_acceptedNames {e : ElementDecl} (he : c.elements[d.index]? = some e) :
    (c.acceptedNames c.substitutions d).head? = some e.name := by
  rw [acceptedNames_eq he]
  obtain ⟨rest, hrest⟩ := prefix_addAllNew [e.name]
    ((c.substitutions.expansion d).filterMap fun d => c.elements[d.index]?.map (·.name))
  change (addAllNew [e.name] _).head? = some e.name
  rw [← hrest]
  rfl

namespace Rearranged

/-- The same elements join the same groups. -/
theorem joins_iff (h : Rearranged ρ c c') :
    c'.finish.Joins (ρ.element d) (ρ.element head) ↔ c.finish.Joins d head := by
  have hfind (n : Name) : c'.globalElements.find? n = some (ρ.element head) ↔
      c.globalElements.find? n = some head := by
    rw [h.globalElements]
    exact (Option.map_injective h.shuffles.element_bijective.1).eq_iff (b := some head)
  have helement : c'.finish.element? (ρ.element d) = rename ρ (c.finish.element? d) := h.elements d
  constructor
  · rintro ⟨e', he', n, hn, hhead⟩
    obtain ⟨e, he, rfl⟩ := Option.map_eq_some_iff.1 (helement.symm.trans he')
    exact ⟨e, he, n, hn, (hfind n).1 hhead⟩
  · rintro ⟨e, he, n, hn, hhead⟩
    have he' : c'.finish.element? (ρ.element d) = some (rename ρ e) :=
      helement.trans (congrArg (Option.map _) he)
    exact ⟨rename ρ e, he', n, hn, (hfind n).2 hhead⟩

theorem reflTransGen_joins_iff (h : Rearranged ρ c c') :
    ReflTransGen c'.finish.Joins (ρ.element d) (ρ.element head) ↔
      ReflTransGen c.finish.Joins d head := by
  obtain ⟨τ, hleft, hright⟩ :=
    Function.bijective_iff_has_inverse.1 h.shuffles.element_bijective
  constructor
  · intro hreach
    have hback (a b : ElementId) (hab : c'.finish.Joins a b) : c.finish.Joins (τ a) (τ b) := by
      rw [← h.joins_iff, hright, hright]
      exact hab
    have hreach' : ReflTransGen c.finish.Joins (τ (ρ.element d)) (τ (ρ.element head)) :=
      hreach.lift τ hback
    rwa [hleft, hleft] at hreach'
  · exact fun hreach => hreach.lift ρ.element fun _ _ => h.joins_iff.2

/-- The same names are accepted for an element, its own first. -/
theorem sameNames (h : Rearranged ρ c c') (hc : c.Intact) (hc' : c'.Intact)
    (hd : d.index < c.elements.size) : SameNames (c.acceptedNames c.substitutions d)
      (c'.acceptedNames c'.substitutions (ρ.element d)) where
  head?_eq := by
    have he := Array.getElem?_eq_getElem hd
    have he' : c'.elements[(ρ.element d).index]? = some (rename ρ c.elements[d.index]) :=
      (h.elements d).trans (congrArg (Option.map _) he)
    rw [head?_acceptedNames he, head?_acceptedNames he']
    rfl
  mem_iff n := by
    rw [mem_acceptedNames_iff hc, mem_acceptedNames_iff hc']
    constructor
    · rintro ⟨x, e, hreach, he, rfl⟩
      exact ⟨ρ.element x, rename ρ e, h.reflTransGen_joins_iff.2 hreach,
        (h.elements x).trans (congrArg (Option.map _) he), rfl⟩
    · rintro ⟨x', e', hreach, he', rfl⟩
      obtain ⟨x, rfl⟩ := h.shuffles.element_bijective.2 x'
      obtain ⟨e, he, rfl⟩ := Option.map_eq_some_iff.1 ((h.elements x).symm.trans he')
      exact ⟨x, e, h.reflTransGen_joins_iff.1 hreach, he, rfl⟩

/-- The same elements are members of a group. -/
theorem mem_members_iff (h : Rearranged ρ c c') (hc : c.Intact) (hc' : c'.Intact)
    (head e : ElementId) : e ∈ c'.substitutions.members (ρ.element head) ↔
      e ∈ (c.substitutions.members head).map ρ.element := by
  rw [mem_members_iff_joins hc', List.mem_map]
  constructor
  · intro hjoins
    obtain ⟨d, rfl⟩ := h.shuffles.element_bijective.2 e
    exact ⟨d, (mem_members_iff_joins hc).2 (h.joins_iff.1 hjoins), rfl⟩
  · rintro ⟨d, hd, rfl⟩
    exact h.joins_iff.2 ((mem_members_iff_joins hc).1 hd)

/-! ### Content models -/

/-- The content model of a type is the same but for identifiers. -/
theorem compileModel_like (h : Rearranged ρ c c') (hc : c.Intact) (hc' : c'.Intact) {d : TypeDef}
    (hd : d ∈ c.types) : (c.compileModel c.substitutions d).Like ρ.element
      (c'.compileModel c'.substitutions (rename ρ d)) := by
  rw [compileModel, compileModel, TypeDef.group?_rename, h.version, h.limits]
  cases hg : d.group? with
  | none => exact .absent
  | some g =>
    have hsound := sound_group (hc.types d hd) hg
    have hnames : ∀ d ∈ g.toParticle.elements, SameNames (c.acceptedNames c.substitutions d)
        (ContentModel.acceptsUnder ρ (c'.acceptedNames c'.substitutions) d) := by
      intro d hd
      obtain ⟨o, ho⟩ := (Particle.mem_elements_iff _).1 hd
      exact h.sameNames hc hc' (hsound _ ho).2
    have hsome : rename ρ (some g) = some (rename ρ g) := rfl
    rw [hsome]
    dsimp only
    cases hcompile : Automaton.compile g (c.acceptedNames c.substitutions) c.version c.limits with
    | ok m =>
      obtain ⟨hnamed, hcompile'⟩ := Automaton.compile_rename_of_ok hnames hcompile
      rw [hcompile']
      exact .compiled hnamed
    | error r =>
      obtain ⟨r', hcompile', hmessage⟩ := Automaton.compile_rename_of_error hnames hcompile
      rw [hcompile']
      exact .refused hmessage

theorem modelReports_eq (h : Rearranged ρ c c') (hc : c.Intact) (hc' : c'.Intact) {d : TypeDef}
    (hd : d ∈ c.types) : c'.modelReports (rename ρ d) = c.modelReports d :=
  congrArg Option.toList (modelFault?_of_like d (h.compileModel_like hc hc' hd))

/-- **Rearranged components give grammars that differ in identifiers.** -/
theorem counterpart (h : Rearranged ρ c c') (hc : c.Intact) (hc' : c'.Intact) :
    c.finish.Counterpart ρ c'.finish where
  version := h.version
  element_inj := h.shuffles.element_bijective.1
  elements := h.elements
  types := h.types
  typeCount := congrArg Extent.types h.extent
  locations := h.locations
  globalElements := h.globalElements
  elementEntries := h.elementEntries
  typeEntries := h.typeEntries
  members := h.mem_members_iff hc hc'
  models t := by
    have hmodel (c : Components) (t : TypeId) : c.finish.model t =
        ((c.types[t.index]?).map (c.compileModel c.substitutions)).getD .absent := by
      rw [Grammar.model, finish, Array.getElem?_map]
    rw [hmodel, hmodel, h.types]
    cases ht : c.types[t.index]? with
    | none => exact .absent
    | some d => exact h.compileModel_like hc hc' (Array.mem_of_getElem? ht)
  reports := by
    rw [reports_finish, reports_finish]
    exact (h.problems.map _).append (h.flatMap_types_perm fun d hd => h.modelReports_eq hc hc' hd)

end Rearranged
end Components
end SchemaAssist
