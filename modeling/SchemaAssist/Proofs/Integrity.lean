/-
# Nothing dangles

A grammar that is built is closed (`Grammar.Closed`): whatever it mentions by number is in its
tables, every element has a type, every type a place among the content models, and the model groups
hold neither references by name nor bounds out of order.  That is so however documents are added,
circles and references to nothing included (`Grammar.closed_of_build`), as components stay intact
while documents are added (`Components.intact_after`) and while everything is looked up
(`Components.settled_resolve`).
-/

import SchemaAssist.Completion.Declaration
import SchemaAssist.Proofs.Memberships
import SchemaAssist.Proofs.Resolution
import SchemaAssist.Proofs.Suggestions

namespace SchemaAssist

open Referring (Sound)
open ContentModel (Automaton Node Refusal buildNode buildNodes)

/-! ### Models refused as malformed -/

namespace ContentModel

/-- A model group is refused for what stands in it, not for its depth or its ambiguity. -/
def Refusal.isMalformed : Refusal → Bool
  | elementRef _ => true
  | groupRef _ => true
  | _ => false

section Build

variable {accepts : ElementId → List Name} {limits : Limits} {r : Refusal}

mutual

/-- A particle is malformed only by a reference that is left in it. -/
theorem exists_reference_of_buildNode : ∀ (p : Particle) {depth k : Nat},
    buildNode accepts limits depth p k = .error r → r.isMalformed = true →
      ∃ q ∈ p.subtrees, q.isReference = true
  | .element d o, depth, k, h, hr => by
    rw [buildNode] at h
    cases h
  | .any w, depth, k, h, hr => by
    rw [buildNode] at h
    cases h
  | .group c ps o, depth, k, h, hr => by
    rw [buildNode] at h
    split at h
    · cases h
      cases hr
    · cases hcs : buildNodes accepts limits (depth + 1) ps k with
      | error r' =>
        rw [hcs] at h
        cases h
        obtain ⟨p, hp, q, hq, href⟩ := exists_reference_of_buildNodes ps hcs hr
        exact ⟨q, Particle.mem_subtrees_group.2 (Or.inr ⟨p, hp, hq⟩), href⟩
      | ok built =>
        rw [hcs] at h
        cases h
  | .elementRef n o, _, _, _, _ => ⟨_, Particle.self_mem_subtrees _, rfl⟩
  | .groupRef n o, _, _, _, _ => ⟨_, Particle.self_mem_subtrees _, rfl⟩

theorem exists_reference_of_buildNodes : ∀ (ps : List Particle) {depth k : Nat},
    buildNodes accepts limits depth ps k = .error r → r.isMalformed = true →
      ∃ p ∈ ps, ∃ q ∈ p.subtrees, q.isReference = true
  | [], depth, k, h, hr => by
    rw [buildNodes] at h
    cases h
  | p :: ps, depth, k, h, hr => by
    rw [buildNodes] at h
    split at h
    · obtain ⟨p', hp', hq⟩ := exists_reference_of_buildNodes ps h hr
      exact ⟨p', List.mem_cons_of_mem _ hp', hq⟩
    · cases hc : buildNode accepts limits depth p k with
      | error r' =>
        rw [hc] at h
        cases h
        exact ⟨p, List.mem_cons_self, exists_reference_of_buildNode p hc hr⟩
      | ok built =>
        obtain ⟨n, k₁⟩ := built
        rw [hc] at h
        cases hcs : buildNodes accepts limits depth ps k₁ with
        | error r' =>
          simp only [bind, Except.bind, hcs] at h
          cases h
          obtain ⟨p', hp', hq⟩ := exists_reference_of_buildNodes ps hcs hr
          exact ⟨p', List.mem_cons_of_mem _ hp', hq⟩
        | ok built' =>
          simp only [bind, Except.bind, hcs] at h
          cases h

end

end Build

/-- A model group without references by name is not malformed. -/
theorem Automaton.isMalformed_of_compile {g : ModelGroup} {accepts : ElementId → List Name}
    {version : Version} {limits : Limits} {r : Refusal}
    (h : compile g accepts version limits = .error r) (hplain : g.toParticle.Plain) :
    r.isMalformed = false := by
  by_contra hr
  rw [Bool.not_eq_false] at hr
  rw [compile] at h
  cases hroot : buildNode accepts limits 0 g.toParticle 0 with
  | error r' =>
    rw [hroot] at h
    cases h
    obtain ⟨q, hq, href⟩ := exists_reference_of_buildNode _ hroot hr
    rw [hplain q hq] at href
    cases href
  | ok built =>
    obtain ⟨root, k⟩ := built
    simp only [bind, Except.bind, hroot] at h
    split at h
    · cases h
      cases hr
    · cases h

end ContentModel

/-! ### Closed grammars -/

namespace Grammar

/-- An element that a grammar mentions: in its table of globals, as a head or a member of a
substitution group, in a model group, or in a content model. -/
inductive Mentions (g : Grammar) : ElementId → Prop
  | global {n : Name} {d : ElementId} : (n, d) ∈ g.globalElements.entries → Mentions g d
  | head {d : ElementId} : g.members d ≠ [] → Mentions g d
  | member {head d : ElementId} : d ∈ g.members head → Mentions g d
  | group {t : TypeId} {group : ModelGroup} {d : ElementId} :
    g.groupOf? t = some group → d ∈ group.elements → Mentions g d
  | leaf {t : TypeId} {m : Automaton} {l : Node} {d : ElementId} : g.model t = .compiled m →
    l ∈ m.root.subtrees → l.leafTerm? = some (.element d) → Mentions g d

/-- A type that a grammar mentions: in its table of globals, as the type of an element, of an
attribute or of simple content, or as a type that a simple type is made of. -/
inductive MentionsType (g : Grammar) : TypeId → Prop
  | global {n : Name} {t : TypeId} : (n, t) ∈ g.globalTypes.entries → MentionsType g t
  | element {d : ElementId} {e : ElementDecl} {t : TypeId} : g.element? d = some e →
    e.type? = some t ∨ e.typeRef = .definition t → MentionsType g t
  | use {u : TypeId} {a : AttributeUse} {t : TypeId} : a ∈ g.attributesOf u →
    a.type? = some t ∨ a.typeRef = .definition t → MentionsType g t
  | base {u : TypeId} {st : SimpleType} {t : TypeId} : g.type? u = some (.simple st) →
    st.base? = some t ∨ st.base = .definition t → MentionsType g t
  | part {u : TypeId} {st : SimpleType} {t : TypeId} : g.type? u = some (.simple st) →
    .definition t ∈ st.item :: st.members → MentionsType g t
  | content {u : TypeId} {ct : ComplexType} {t : TypeId} : g.type? u = some (.complex ct) →
    ct.content = .simple (.definition t) → MentionsType g t

/-- A grammar in which nothing dangles. -/
structure Closed (g : Grammar) : Prop where
  /-- Every element has a type. -/
  typed : ∀ d e, g.element? d = some e → e.type?.isSome = true
  elements : ∀ d, g.Mentions d → d.index < g.elements.size
  types : ∀ t, g.MentionsType t → t.index < g.types.size
  /-- Every type has one place among the content models. -/
  models : g.models.size = g.types.size
  /-- The document that declares an element is recorded. -/
  located : ∀ d e, g.element? d = some e → ∃ l, g.locationOf? d = some l
  /-- No reference by name is left in a model group. -/
  plain : ∀ t group, g.groupOf? t = some group → group.toParticle.Plain
  /-- The bounds in model groups are in order. -/
  bounded : ∀ t group, g.groupOf? t = some group → ∀ p ∈ group.toParticle.subtrees, p.occurs.Valid
  /-- The bounds in content models are in order. -/
  boundedNodes : ∀ t m, g.model t = .compiled m → ∀ n ∈ m.root.subtrees, n.occurs.Valid
  /-- No model group is refused as malformed. -/
  formed : ∀ t r, g.model t = .refused r → r.isMalformed = false
  /-- Every element that is mentioned has a declaration. -/
  declared : ∀ d, g.Mentions d → ∃ e, Declaration.ofGrammar? g d = some e

end Grammar

namespace Components

variable {c : Components} {t : TypeId}

theorem sound_group {d : TypeDef} {e : Extent} {group : ModelGroup} (hd : Sound e d)
    (hgroup : d.group? = some group) : group.toParticle.SoundIn e := by
  obtain ⟨ct, rfl, hct⟩ := TypeDef.exists_of_group? hgroup
  obtain ⟨hcontent, -⟩ := hd
  rwa [hct] at hcontent

theorem sound_attributesOf (hc : c.Intact) {a : AttributeUse}
    (ha : a ∈ c.finish.attributesOf t) : Sound c.extent a := by
  have hattributes : c.finish.attributesOf t =
      (((c.types[t.index]?).bind TypeDef.complex?).map (·.attributes)).getD [] := rfl
  rw [hattributes] at ha
  cases htype : c.types[t.index]? with
  | none => simp [htype] at ha
  | some d =>
    cases d with
    | simple st => simp [htype, TypeDef.complex?] at ha
    | complex ct =>
      have hct : Sound c.extent ct := hc.types _ (Array.mem_of_getElem? htype)
      exact hct.2 a (by simpa [htype, TypeDef.complex?] using ha)

theorem settled_groupOf? (hc : c.Settled) {group : ModelGroup}
    (hgroup : c.finish.groupOf? t = some group) :
    group.toParticle.SoundIn c.extent ∧ group.toParticle.Plain := by
  obtain ⟨d, htype, hd⟩ := Option.bind_eq_some_iff.1 hgroup
  have hmem : d ∈ c.types := Array.mem_of_getElem? htype
  exact ⟨sound_group (hc.intact.types d hmem) hd, hc.plain d hmem group hd⟩

/-- What settled components mention is there. -/
theorem lt_of_mentions (hc : c.Settled) {d : ElementId} (hd : c.finish.Mentions d) :
    d.index < c.elements.size := by
  have hmembers (head : ElementId) :
      c.finish.members head = c.substitutions.members head := rfl
  have hgroup {t : TypeId} {group : ModelGroup} (hgroup : c.finish.groupOf? t = some group)
      {d : ElementId} (hd : d ∈ group.elements) : d.index < c.elements.size := by
    obtain ⟨o, ho⟩ := (Particle.mem_elements_iff _).1 (mem_distinct.1 hd)
    exact ((settled_groupOf? hc hgroup).1 _ ho).2
  cases hd with
  | global h => exact (hc.intact.globalElements _ h).2
  | head h =>
    obtain ⟨m, hm⟩ := List.exists_mem_of_ne_nil _ h
    exact (mem_members_substitutions.1 (hmembers d ▸ hm)).1
  | member h =>
    obtain ⟨-, e, he, -⟩ := mem_members_substitutions.1 (hmembers _ ▸ h)
    exact (Array.getElem?_eq_some_iff.1 he).1
  | group h hd => exact hgroup h hd
  | leaf hm hl ht =>
    obtain ⟨group, h, hcompile⟩ := exists_compile_of_model_finish hm
    exact hgroup h (Automaton.of_leafTerm? hcompile hl ht)

theorem lt_of_mentionsType (hc : c.Settled) {t : TypeId} (ht : c.finish.MentionsType t) :
    t.index < c.types.size := by
  have href {ref : TypeRef} {t? : Option TypeId} (hsound : Sound c.extent t?)
      (hrefSound : Sound c.extent ref) (h : t? = some t ∨ ref = .definition t) :
      t.index < c.types.size := by
    rcases h with rfl | rfl
    · exact hsound t rfl
    · exact hrefSound
  have htype {u : TypeId} {d : TypeDef} (hd : c.finish.type? u = some d) : Sound c.extent d :=
    hc.intact.types d (Array.mem_of_getElem? hd)
  cases ht with
  | global h => exact (hc.intact.globalTypes _ h).2
  | element he h =>
    obtain ⟨hsoundRef, hsound, -⟩ := hc.intact.elements _ (Array.mem_of_getElem? he)
    exact href hsound hsoundRef h
  | use ha h =>
    obtain ⟨hsoundRef, hsound⟩ := sound_attributesOf hc.intact ha
    exact href hsound hsoundRef h
  | base hu h =>
    obtain ⟨hsoundRef, hsound, -⟩ := htype hu
    exact href hsound hsoundRef h
  | part hu h =>
    obtain ⟨-, -, hitem, hmembers⟩ := htype hu
    have hparts : ∀ ref ∈ _ :: _, Sound c.extent ref := List.forall_mem_cons.2 ⟨hitem, hmembers⟩
    exact hparts _ h
  | content hu h =>
    obtain ⟨hcontent, -⟩ := htype hu
    rw [h] at hcontent
    exact hcontent

/-- The grammar of settled components whose elements have types is closed. -/
theorem closed_finish (hc : c.Settled)
    (htyped : ∀ d : ElementId, d.index < c.elements.size → c.Typed d) : c.finish.Closed where
  typed d e he := by
    obtain ⟨e', t, he', ht⟩ := htyped d (Array.getElem?_eq_some_iff.1 he).1
    obtain rfl : e' = e := Option.some.inj (he'.symm.trans he)
    rw [ht, Option.isSome_some]
  elements d hd := lt_of_mentions hc hd
  types t ht := lt_of_mentionsType hc ht
  models := Array.size_map
  located d e he := by
    obtain ⟨-, -, hdocument⟩ := hc.intact.elements e (Array.mem_of_getElem? he)
    have hlocation : c.finish.locationOf? d = c.locations[e.document]? := by
      rw [Grammar.locationOf?, he]
      rfl
    exact ⟨_, hlocation.trans (Array.getElem?_eq_getElem hdocument)⟩
  plain t group hgroup := (settled_groupOf? hc hgroup).2
  bounded t group hgroup p hp := ((settled_groupOf? hc hgroup).1 p hp).1
  boundedNodes t m hm n hn := by
    obtain ⟨group, hgroup, hcompile⟩ := exists_compile_of_model_finish hm
    obtain ⟨p, hp, horigin⟩ := Automaton.exists_origin hcompile hn
    rw [horigin.occurs_eq]
    exact ((settled_groupOf? hc hgroup).1 p hp).1
  formed t r hr := by
    rw [model_finish] at hr
    split at hr
    · cases hr
    · next group hgroup =>
      split at hr
      · cases hr
      · next r' hcompile =>
        cases hr
        exact Automaton.isMalformed_of_compile hcompile (settled_groupOf? hc hgroup).2
  declared d hd := by
    obtain ⟨e, t, he, ht⟩ := htyped d (lt_of_mentions hc hd)
    have htype : t.index < c.types.size := lt_of_mentionsType hc (.element he (Or.inl ht))
    have hdefinition : c.finish.type? t = some c.types[t.index] := Array.getElem?_eq_getElem htype
    have helement : c.finish.element? d = some e := he
    simp only [Declaration.ofGrammar?, helement, Option.bind_eq_bind, Option.bind_some, ht,
      hdefinition]
    exact ⟨_, rfl⟩

theorem build_of_mem {g : Grammar} (h : g ∈ c.build.toOption) : c.build = .ok g := by
  cases hbuild : c.build with
  | error e =>
    rw [hbuild] at h
    cases h
  | ok g' =>
    rw [hbuild] at h
    exact congrArg Except.ok (Option.some.inj h)

/-- A grammar that is built from intact components is that of settled ones whose elements have
types. -/
theorem exists_settled_of_build {g : Grammar} (hc : c.Intact) (hg : c.build = .ok g) :
    ∃ c' : Components, c'.Settled ∧ (∀ d : ElementId, d.index < c'.elements.size → c'.Typed d) ∧
      g = c'.finish := by
  obtain ⟨hsettled, hadvances, htyped⟩ := settled_resolve hc
  rw [build] at hg
  split at hg
  · cases hg
  · exact ⟨_, hsettled, fun d hd => htyped d (hadvances.elements ▸ hd), (Except.ok.inj hg).symm⟩

end Components

namespace Grammar

variable {version : Version} {limits : Limits} {g : Grammar}

/-- **Nothing dangles in a grammar that is built**, whatever the documents that were added. -/
theorem closed_of_build {ds : List Submission}
    (hg : ((Components.empty version limits).after ds).build = .ok g) : g.Closed := by
  obtain ⟨hintact, -⟩ := Components.intact_after (Components.intact_empty version limits) ds
  obtain ⟨c, hsettled, htyped, rfl⟩ := Components.exists_settled_of_build hintact hg
  exact Components.closed_finish hsettled htyped

/-- Two elements that stand in for each other, in a group that also refers to one that is not
declared. -/
def circle : Submission where
  text := "<s:schema xmlns:s='http://www.w3.org/2001/XMLSchema'>" ++
    "<s:element name='a' substitutionGroup='b'/><s:element name='b' substitutionGroup='a'/>" ++
    "<s:complexType name='T'><s:complexContent><s:extension base='T'><s:sequence>" ++
    "<s:element ref='a' maxOccurs='2'/><s:element ref='gone'/>" ++
    "</s:sequence></s:extension></s:complexContent></s:complexType></s:schema>"
  location := .path "circle.xsd"

/-- Nothing dangles in the grammar of `circle`. -/
theorem closed_of_build_circle :
    ∃ g, ((Components.empty .v10 {}).after [circle]).build = .ok g ∧ g.elements.size = 2 ∧
      g.Closed := by
  have hbuilt : ∃ g ∈ ((Components.empty .v10 {}).after [circle]).build.toOption,
      g.elements.size = 2 := by
    decide +kernel
  obtain ⟨g, hg, hsize⟩ := hbuilt
  have hbuild := Components.build_of_mem hg
  exact ⟨g, hbuild, hsize, closed_of_build hbuild⟩

end Grammar
end SchemaAssist
