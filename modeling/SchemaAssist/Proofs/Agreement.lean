/-
# Answers that identifiers do not change

A grammar and its counterpart under other identifiers give the same answers.  Declarations say the
same (`Grammar.SaysAlike`): attributes in the same order, the same listed values, content models of
the same outcome that are replayed alike, and offers of the same names after any children
(`Grammar.Counterpart.offered`).  So two such grammars agree (`Grammar.Agrees`): on names, up to order,
on what is reported, up to order, and on what is said of each global element.
-/

import SchemaAssist.Proofs.Counterparts
import SchemaAssist.Proofs.Degraded

namespace SchemaAssist

open ContentModel (Automaton Progress Term)
open Referring (rename)

/-! ### What two grammars agree on -/

namespace ModelSlot

/-- What came of compiling a content model: nothing, as there is no model group, a refusal in its
words, or a content model. -/
def outcome : ModelSlot → Option (Except String Unit)
  | .compiled _ => some (.ok ())
  | .absent => none
  | .refused r => some (.error r.message)

/-- What comes of replaying a list of elements through a content model: how far it got, and whether
the list may end there. -/
def replay (names : List Name) : ModelSlot → Option (Except Replayable.Rejection (Progress × Bool))
  | .compiled m => some ((m.replayable.run names).map fun st => (st, m.accepting st))
  | _ => none

namespace Like

variable {f : ElementId → ElementId} {slot slot' : ModelSlot}

theorem outcome_eq (h : slot.Like f slot') : slot'.outcome = slot.outcome := by
  cases h with
  | compiled => rfl
  | absent => rfl
  | refused hmessage => exact congrArg (fun message => some (Except.error message)) hmessage

theorem replay_eq (h : slot.Like f slot') (names : List Name) :
    slot'.replay names = slot.replay names := by
  cases h with
  | @compiled m a hnamed =>
    have haccepting : (m.relabel f a).accepting = m.accepting := funext fun st => by
      change (m.root.relabel f a).mayEnd st.count ((m.root.relabel f a).complete st) = _
      rw [ContentModel.Node.mayEnd_relabel, ContentModel.Node.complete_relabel]
      rfl
    rw [replay, replay, Automaton.run_relabel hnamed, haccepting]
  | absent => rfl
  | refused => rfl

end Like
end ModelSlot

/-- Two offers are of the same names, or both of any element. -/
structure Candidates.Alike (a a' : Candidates) : Prop where
  anyElement : a'.anyElement = a.anyElement
  names : ∀ n, n ∈ a'.names ↔ n ∈ a.names

namespace Grammar

/-- A grammar says the same of a declaration as another one does of one of its own. -/
structure SaysAlike (g g' : Grammar) (e e' : Declaration) : Prop where
  name : e'.name = e.name
  category : e'.category = e.category
  kind : e'.kind = e.kind
  isAbstract : e'.isAbstract = e.isAbstract
  nillable : e'.nillable = e.nillable
  documentation : e'.documentationIn g' = e.documentationIn g
  enumeration : e'.enumerationIn g' = e.enumerationIn g
  attributes : e'.attributesIn g' = e.attributesIn g
  location : g'.locationOf? e'.id = g.locationOf? e.id
  outcome : (g'.model e'.type).outcome = (g.model e.type).outcome
  replay : ∀ names, (g'.model e'.type).replay names = (g.model e.type).replay names
  offered : ∀ names (s s' : Session), s.grammar? = some g → s'.grammar? = some g' →
    ((Asking.candidatesAfter g e.type names).run s).1.Alike
      ((Asking.candidatesAfter g' e'.type names).run s').1

/-- Two grammars agree on everything but identifiers and order. -/
structure Agrees (g g' : Grammar) : Prop where
  version : g'.version = g.version
  elementNames : g'.globalElements.names.Perm g.globalElements.names
  typeNames : g'.globalTypes.names.Perm g.globalTypes.names
  reports : (g'.problems.toList.map Problem.report).Perm (g.problems.toList.map Problem.report)
  elements : ∀ n ∈ g.globalElements.names, ∃ e e', Asking.Gets g (Asking.global? n) (some e) ∧
    Asking.Gets g' (Asking.global? n) (some e') ∧ g.SaysAlike g' e e'

end Grammar

/-- A declaration under other identifiers. -/
def Declaration.renamed (ρ : Renaming) (e : Declaration) : Declaration :=
  { e with id := ρ.element e.id, type := ρ.type e.type }

/-! ### Answers that are not guided by a content model -/

namespace Asking

variable {g : Grammar} {t : TypeId} {names : List Name}

/-- Nothing is offered after children that do not fit. -/
theorem gets_candidatesAfter_of_error {m : Automaton} {r : Replayable.Rejection}
    (hm : g.model t = .compiled m) (h : m.replayable.run names = .error r) :
    Gets g (candidatesAfter g t names) .none := by
  have hterms : m.replayable.nextTerms names = .error r := by
    rw [Replayable.nextTerms, h]
    rfl
  have hguided : guidedAfter g t names = pure (.error (.rejected r)) := by
    rw [guidedAfter, hm]
    simp only [hterms]
  rw [candidatesAfter, hguided]
  exact .pure g _

theorem candidatesAfter_of_absent (hm : g.model t = .absent) :
    candidatesAfter g t names = staticCandidates g t := by
  rw [candidatesAfter, guidedAfter, hm]
  rfl

theorem candidatesAfter_of_refused {r : ContentModel.Refusal} (hm : g.model t = .refused r) :
    candidatesAfter g t names = staticCandidates g t := by
  rw [candidatesAfter, guidedAfter, hm]
  rfl

theorem gets_global? {n : Name} {d : ElementId} {e : Declaration}
    (hd : g.globalElements.find? n = some d) (he : Declaration.ofGrammar? g d = some e) :
    Gets g (global? n) (some e) := by
  rw [global?]
  refine (gets_grammar? g).bind ?_
  rw [Option.bind_some, hd]
  exact he ▸ gets_declaration? g d

end Asking

/-! ### What is read off declarations -/

namespace Grammar.Counterpart

variable {ρ : Renaming} {g g' : Grammar} {t : TypeId}

theorem ofGrammar? (h : g.Counterpart ρ g') (d : ElementId) :
    Declaration.ofGrammar? g' (ρ.element d) =
      (Declaration.ofGrammar? g d).map (Declaration.renamed ρ) := by
  simp only [Declaration.ofGrammar?, Option.bind_eq_bind, h.elements]
  cases g.element? d with
  | none => rfl
  | some e =>
    change ((e.type?.map ρ.type).bind _) = _
    cases htype : e.type? with
    | none => simp [htype]
    | some t =>
      simp only [Option.map_some, Option.bind_some, htype, h.types]
      cases g.type? t with
      | none => rfl
      | some definition =>
        have hcategory := TypeDef.category_rename (ρ := ρ) definition
        have hkind := TypeDef.contentKind_rename (ρ := ρ) definition
        change some (Declaration.mk _ _ _ (rename ρ definition).category
          (rename ρ definition).contentKind _ _) = _
        rw [hcategory, hkind]
        rfl

/-- The values that a type lists are the same. -/
theorem enumerationWithin (h : g.Counterpart ρ g') (room : Nat) (t : TypeId) :
    g'.enumerationWithin room (ρ.type t) = g.enumerationWithin room t := by
  induction room generalizing t with
  | zero => rfl
  | succ room ih =>
    rw [Grammar.enumerationWithin, Grammar.enumerationWithin, h.types]
    cases g.type? t with
    | none => rfl
    | some d =>
      cases d with
      | simple st =>
        obtain ⟨name?, variety, ref, base?, item, members, enumeration, rest⟩ := st
        cases base? with
        | none => rfl
        | some base => exact congrArg (if !enumeration.isEmpty then enumeration else ·) (ih base)
      | complex ct =>
        obtain ⟨name?, content, rest⟩ := ct
        cases content with
        | simple ref =>
          cases ref with
          | definition base => exact ih base
          | _ => rfl
        | _ => rfl

theorem enumeration (h : g.Counterpart ρ g') (t : TypeId) :
    g'.enumeration (ρ.type t) = g.enumeration t := by
  rw [Grammar.enumeration, h.typeCount, h.enumerationWithin]
  rfl

theorem attributesOf (h : g.Counterpart ρ g') (t : TypeId) :
    g'.attributesOf (ρ.type t) = rename ρ (g.attributesOf t) := by
  rw [Grammar.attributesOf, Grammar.attributesOf, h.types]
  cases g.type? t with
  | none => rfl
  | some d => cases d <;> rfl

theorem groupOf? (h : g.Counterpart ρ g') (t : TypeId) :
    g'.groupOf? (ρ.type t) = rename ρ (g.groupOf? t) := by
  rw [Grammar.groupOf?, Grammar.groupOf?, h.types]
  cases g.type? t with
  | none => rfl
  | some d => exact d.group?_rename

/-- The attributes of an element are the same, in the same order. -/
theorem attributesIn (h : g.Counterpart ρ g') (e : Declaration) :
    (e.renamed ρ).attributesIn g' = e.attributesIn g := by
  rw [Declaration.attributesIn, Declaration.attributesIn]
  change List.map _ (g'.attributesOf (ρ.type e.type)) = _
  rw [h.attributesOf]
  change List.map _ (List.map (rename ρ) _) = _
  rw [List.map_map]
  refine List.map_congr_left fun a _ => ?_
  have htype : (rename ρ a).type? = a.type?.map ρ.type := rfl
  have hname : ((a.type?.map ρ.type).bind g'.type?).bind TypeDef.name? =
      (a.type?.bind g.type?).bind TypeDef.name? := by
    cases a.type? with
    | none => rfl
    | some t =>
      rw [Option.map_some, Option.bind_some, Option.bind_some, h.types]
      cases g.type? t with
      | none => rfl
      | some d => exact d.name?_rename
  have hvalues : ((a.type?.map ρ.type).map g'.enumeration).getD [] =
      (a.type?.map g.enumeration).getD [] := by
    rw [Option.map_map]
    exact congrArg (fun k => (a.type?.map k).getD []) (funext h.enumeration)
  rw [Function.comp_apply, htype, hname, hvalues]
  rfl

theorem enumerationIn (h : g.Counterpart ρ g') (e : Declaration) :
    (e.renamed ρ).enumerationIn g' = e.enumerationIn g :=
  congrArg (if e.category = .simple then · else []) (h.enumeration e.type)

theorem documentationIn (h : g.Counterpart ρ g') (e : Declaration) :
    (e.renamed ρ).documentationIn g' = e.documentationIn g := by
  have helement : (g'.element? (ρ.element e.id)).bind (·.documentation?) =
      (g.element? e.id).bind (·.documentation?) := by
    rw [h.elements]
    cases g.element? e.id <;> rfl
  have htype : (g'.type? (ρ.type e.type)).bind (·.documentation?) =
      (g.type? e.type).bind (·.documentation?) := by
    rw [h.types]
    cases g.type? e.type with
    | none => rfl
    | some d => exact d.documentation?_rename
  rw [Declaration.documentationIn, Declaration.documentationIn]
  exact congrArg₂ Option.or helement htype

theorem locationOf? (h : g.Counterpart ρ g') (d : ElementId) :
    g'.locationOf? (ρ.element d) = g.locationOf? d := by
  rw [Grammar.locationOf?, Grammar.locationOf?, h.elements]
  cases g.element? d with
  | none => rfl
  | some e => exact h.locations e.document

/-! ### What is offered -/

theorem mem_globals (h : g.Counterpart ρ g') (d : ElementId) :
    d ∈ g'.globals ↔ d ∈ g.globals.map ρ.element := by
  have hvalues : (g.globalElements.entries.map (rename ρ)).map (·.2) = g.globals.map ρ.element := by
    rw [Grammar.globals, NameTable.values, List.map_map, List.map_map]
    rfl
  rw [← hvalues]
  exact (h.elementEntries.map _).mem_iff

/-- The declarations of the same elements are the same. -/
theorem mem_declared (h : g.Counterpart ρ g') {ds ds' : List ElementId}
    (hds : ∀ d, d ∈ ds' ↔ d ∈ ds.map ρ.element) (e : Declaration) :
    e ∈ g'.declared ds' ↔ e ∈ (g.declared ds).map (Declaration.renamed ρ) := by
  simp only [Grammar.mem_declared, List.mem_map, hds]
  constructor
  · rintro ⟨d', ⟨d, hd, rfl⟩, he⟩
    rw [h.ofGrammar?] at he
    obtain ⟨e₀, he₀, rfl⟩ := Option.map_eq_some_iff.1 he
    exact ⟨e₀, ⟨d, hd, he₀⟩, rfl⟩
  · rintro ⟨e₀, ⟨d, hd, he₀⟩, rfl⟩
    exact ⟨ρ.element d, ⟨d, hd, rfl⟩, by rw [h.ofGrammar?, he₀, Option.map_some]⟩

theorem mem_self_and_members (h : g.Counterpart ρ g') (d e : ElementId) :
    e ∈ ρ.element d :: g'.members (ρ.element d) ↔ e ∈ (d :: g.members d).map ρ.element := by
  rw [List.map_cons, List.mem_cons, List.mem_cons, h.members]

/-- A term stands for the same elements. -/
theorem mem_standsFor (h : g.Counterpart ρ g') (t : Term) (e : Declaration) :
    e ∈ g'.standsFor (t.relabel ρ.element) ↔ e ∈ (g.standsFor t).map (Declaration.renamed ρ) := by
  cases t with
  | element d => exact h.mem_declared (h.mem_self_and_members d) e
  | wildcard p =>
    cases p with
    | strict => exact h.mem_declared h.mem_globals e
    | _ => exact iff_of_false List.not_mem_nil List.not_mem_nil

/-- The same elements may stand in a type somewhere. -/
theorem mem_staticChildren (h : g.Counterpart ρ g') (t : TypeId) (d : ElementId) :
    d ∈ g'.staticChildren (ρ.type t) ↔ d ∈ (g.staticChildren t).map ρ.element := by
  rw [Grammar.staticChildren, Grammar.staticChildren, h.groupOf?]
  cases g.groupOf? t with
  | none => exact Iff.rfl
  | some group =>
    have hdeclared (d : ElementId) :
        d ∈ distinct ((rename ρ group).elements.flatMap fun d => d :: g'.members d) ↔
          d ∈ (distinct (group.elements.flatMap fun d => d :: g.members d)).map ρ.element := by
      simp only [mem_distinct, List.mem_flatMap, List.mem_map]
      constructor
      · rintro ⟨x', hx', hd⟩
        obtain ⟨x, hx, rfl⟩ := ModelGroup.mem_elements_rename.1 hx'
        obtain ⟨y, hy, rfl⟩ := List.mem_map.1 ((h.mem_self_and_members x d).1 hd)
        exact ⟨y, ⟨x, hx, hy⟩, rfl⟩
      · rintro ⟨y, ⟨x, hx, hy⟩, rfl⟩
        exact ⟨ρ.element x, ModelGroup.mem_elements_rename.2 ⟨x, hx, rfl⟩,
          (h.mem_self_and_members x _).2 (List.mem_map_of_mem hy)⟩
    change d ∈ (if (rename ρ group).wildcards.isEmpty then _ else _) ↔ _
    rw [ModelGroup.wildcards_rename]
    dsimp only
    split
    · exact hdeclared d
    · rw [mem_addAllNew, hdeclared, h.mem_globals]
      simp only [List.mem_map, mem_addAllNew, or_and_right, exists_or]

/-- The declarations offered are the same but for identifiers, or any element is offered by both. -/
structure Offers (ρ : Renaming) (a a' : Candidates) : Prop where
  anyElement : a'.anyElement = a.anyElement
  mem_iff : ∀ e, e ∈ a'.elements ↔ e ∈ a.elements.map (Declaration.renamed ρ)

theorem Offers.any : Offers ρ .any .any := ⟨rfl, fun _ => Iff.rfl⟩

theorem Offers.none : Offers ρ .none .none := ⟨rfl, fun _ => Iff.rfl⟩

theorem Offers.certain {es es' : List Declaration}
    (h : ∀ e, e ∈ es' ↔ e ∈ es.map (Declaration.renamed ρ)) :
    Offers ρ ⟨distinct es, false⟩ ⟨distinct es', false⟩ where
  anyElement := rfl
  mem_iff e := by
    simp only [mem_distinct, List.mem_map, h]

theorem Offers.alike {a a' : Candidates} (h : Offers ρ a a') : a.Alike a' where
  anyElement := h.anyElement
  names n := by
    simp only [Candidates.names, List.mem_map, h.mem_iff]
    constructor
    · rintro ⟨e', ⟨e, he, rfl⟩, rfl⟩
      exact ⟨e, he, rfl⟩
    · rintro ⟨e, he, rfl⟩
      exact ⟨e.renamed ρ, ⟨e, he, rfl⟩, rfl⟩

/-- Two questions have answers that offer the same. -/
def OffersAlike (ρ : Renaming) (g g' : Grammar) (x x' : Asking Candidates) : Prop :=
  ∃ a a', Asking.Gets g x a ∧ Asking.Gets g' x' a' ∧ Offers ρ a a'

theorem isLenient_relabel (f : ElementId → ElementId) (t : Term) :
    (t.relabel f).isLenient = t.isLenient := by
  cases t <;> rfl

/-- The same elements are offered where there is no content model to follow. -/
theorem staticCandidates (h : g.Counterpart ρ g') (t : TypeId) :
    OffersAlike ρ g g' (Asking.staticCandidates g t) (Asking.staticCandidates g' (ρ.type t)) := by
  have hgroup' := h.groupOf? t
  cases hgroup : g.groupOf? t with
  | none =>
    rw [hgroup] at hgroup'
    have hempty {g : Grammar} {t : TypeId} (hgroup : g.groupOf? t = none) :
        Asking.Gets g (Asking.staticCandidates g t) .none := by
      rw [Asking.staticCandidates, hgroup, Grammar.staticChildren, hgroup]
      exact (Asking.gets_declarations g []).bind (.pure g _)
    exact ⟨.none, .none, hempty hgroup, hempty hgroup', .none⟩
  | some group =>
    rw [hgroup] at hgroup'
    have hlenient : (rename ρ group).isLenient = group.isLenient := by
      rw [ModelGroup.isLenient, ModelGroup.isLenient, ModelGroup.wildcards_rename]
    have hgets' := Asking.gets_staticCandidates (g := g') hgroup'
    rw [hlenient] at hgets'
    refine ⟨_, _, Asking.gets_staticCandidates hgroup, hgets', ?_⟩
    split
    · exact .any
    · exact .certain (h.mem_declared (h.mem_staticChildren t))

/-- The same elements are offered after children that a content model can be replayed with. -/
theorem termCandidates (h : g.Counterpart ρ g') (terms : List Term) :
    Offers ρ (if terms.any Term.isLenient then .any
        else ⟨distinct (terms.flatMap g.standsFor), false⟩)
      (if (terms.map (Term.relabel ρ.element)).any Term.isLenient then .any
        else ⟨distinct ((terms.map (Term.relabel ρ.element)).flatMap g'.standsFor), false⟩) := by
  have hlenient : (terms.map (Term.relabel ρ.element)).any Term.isLenient =
      terms.any Term.isLenient := by
    rw [List.any_map]
    exact congrArg terms.any (funext fun t => isLenient_relabel ρ.element t)
  rw [hlenient]
  split
  · exact .any
  · refine .certain fun e => ?_
    simp only [List.flatMap_map, List.map_flatMap, List.mem_flatMap, h.mem_standsFor]

/-- **The same elements are offered after any children.** -/
theorem candidatesAfter (h : g.Counterpart ρ g') (t : TypeId) (names : List Name) :
    OffersAlike ρ g g' (Asking.candidatesAfter g t names)
      (Asking.candidatesAfter g' (ρ.type t) names) := by
  have hlike := h.models t
  generalize hm' : g'.model (ρ.type t) = slot' at hlike
  cases hm : g.model t with
  | compiled m =>
    rw [hm] at hlike
    cases hlike with
    | @compiled _ a hnamed =>
      have hrun : (m.relabel ρ.element a).replayable.run names = m.replayable.run names :=
        Automaton.run_relabel hnamed names
      cases hst : m.replayable.run names with
      | error r =>
        exact ⟨.none, .none, Asking.gets_candidatesAfter_of_error hm hst,
          Asking.gets_candidatesAfter_of_error hm' (hrun.trans hst), .none⟩
      | ok st =>
        have hterms : m.replayable.nextTerms names = .ok (m.replayable.offered st) := by
          rw [Replayable.nextTerms, hst]
          rfl
        have hterms' : (m.relabel ρ.element a).replayable.nextTerms names =
            .ok ((m.replayable.offered st).map (Term.relabel ρ.element)) := by
          rw [Replayable.nextTerms, hrun, hst, ← Automaton.offered_relabel h.element_inj]
          rfl
        exact ⟨_, _, Asking.gets_candidatesAfter hm hterms, Asking.gets_candidatesAfter hm' hterms',
          h.termCandidates _⟩
  | absent =>
    rw [hm] at hlike
    cases hlike
    rw [Asking.candidatesAfter_of_absent hm, Asking.candidatesAfter_of_absent hm']
    exact h.staticCandidates t
  | refused r =>
    rw [hm] at hlike
    cases hlike
    rw [Asking.candidatesAfter_of_refused hm, Asking.candidatesAfter_of_refused hm']
    exact h.staticCandidates t

/-! ### Agreement -/

/-- The same is said of an element. -/
theorem saysAlike (h : g.Counterpart ρ g') (e : Declaration) : g.SaysAlike g' e (e.renamed ρ) where
  name := rfl
  category := rfl
  kind := rfl
  isAbstract := rfl
  nillable := rfl
  documentation := h.documentationIn e
  enumeration := h.enumerationIn e
  attributes := h.attributesIn e
  location := h.locationOf? e.id
  outcome := (h.models e.type).outcome_eq
  replay := (h.models e.type).replay_eq
  offered names s s' hs hs' := by
    obtain ⟨a, a', ha, ha', hoffers⟩ := h.candidatesAfter e.type names
    have hfirst := (ha s hs).1
    have hsecond := (ha' s' hs').1
    rw [hfirst]
    exact hsecond ▸ hoffers.alike

/-- **Closed grammars that differ in identifiers agree.** -/
theorem agrees (h : g.Counterpart ρ g') (hclosed : g.Closed) : g.Agrees g' where
  version := h.version
  elementNames := NameTable.names_perm h.elementEntries
  typeNames := NameTable.names_perm h.typeEntries
  reports := h.reports
  elements n hn := by
    obtain ⟨d, hd⟩ := NameTable.exists_find? hn
    obtain ⟨e, he⟩ := hclosed.declared d (.global (NameTable.mem_of_find? hd))
    have hd' : g'.globalElements.find? n = some (ρ.element d) := by
      rw [h.globalElements, hd]
      rfl
    have he' : Declaration.ofGrammar? g' (ρ.element d) = some (e.renamed ρ) := by
      rw [h.ofGrammar?, he, Option.map_some]
    exact ⟨e, e.renamed ρ, Asking.gets_global? hd he, Asking.gets_global? hd' he', h.saysAlike e⟩

end Grammar.Counterpart
end SchemaAssist
