/-
# Types without content

A type is said to have no content if its model group holds neither elements nor wildcards.  That is
not the same as that none can occur in it: in a group whose elements and wildcards may never occur,
or stand in groups that may never occur, so that it is not `Particle.Occupied`, there are no
elements (`Content.language_of_not_occupied`), and yet the type is said to have some.  Where
something can occur, or nothing is held at all, what is said is right
(`Grammar.contentKind_eq_empty_iff`), whatever references, cuts and derivations made of the group.
-/

import SchemaAssist.Proofs.Extensions
import SchemaAssist.Proofs.Integrity

namespace SchemaAssist

/-! ### Leaves that can occur -/

namespace Particle

/-- An element or a wildcard can occur in a particle: neither it nor any particle around it is one
that may never occur. -/
inductive Occupied : Particle → Prop
  | element {d : ElementId} {o : Occurs} (ho : o.never = false) : Occupied (element d o)
  | any {w : Wildcard} (hw : w.occurs.never = false) : Occupied (any w)
  | group {c : Compositor} {ps : List Particle} {o : Occurs} {p : Particle} (ho : o.never = false)
    (hp : p ∈ ps) (h : Occupied p) : Occupied (group c ps o)

/-- An element or a wildcard stands in a particle. -/
def HoldsLeaf (p : Particle) : Prop := p.elements ≠ [] ∨ p.wildcards ≠ []

variable {accepts : ElementId → List Name}

/-- What can occur in a particle stands in it. -/
theorem Occupied.holdsLeaf {p : Particle} (h : p.Occupied) : p.HoldsLeaf := by
  induction h with
  | element ho => exact Or.inl (List.cons_ne_nil _ _)
  | any hw => exact Or.inr (List.cons_ne_nil _ _)
  | @group c ps o p _ hp _ ih =>
    rw [HoldsLeaf, elements, elementsOf_eq, wildcards, wildcardsOf_eq, Ne, Ne,
      List.flatMap_eq_nil_iff, List.flatMap_eq_nil_iff]
    exact ih.imp (fun hsome hnone => hsome (hnone p hp)) fun hsome hnone => hsome (hnone p hp)

/-- Where no element and no wildcard can occur, there are no elements. -/
theorem words_of_not_occupied {p : Particle} (hvalid : ∀ q ∈ p.subtrees, q.occurs.Valid)
    (hplain : p.Plain) (h : ¬ p.Occupied) : p.occurs.words (p.contents accepts) = 1 := by
  have hbounds := hvalid p p.self_mem_subtrees
  induction p using induct with
  | element d o =>
    have ho : o.never = true := by_contra fun ho => h (.element (Bool.eq_false_iff.2 ho))
    exact Occurs.words_of_never hbounds ho _
  | any w =>
    have hw : w.occurs.never = true := by_contra fun hw => h (.any (Bool.eq_false_iff.2 hw))
    exact Occurs.words_of_never hbounds hw _
  | elementRef n o => cases hplain _ (self_mem_subtrees _)
  | groupRef n o => cases hplain _ (self_mem_subtrees _)
  | group c ps o ih =>
    cases ho : o.never with
    | true => exact Occurs.words_of_never hbounds ho _
    | false =>
      have hones : ∀ l ∈ contentsOf accepts ps, l = 1 := fun l hl => by
        obtain ⟨p, hp, rfl⟩ := exists_of_mem_contentsOf hl
        have hinside := forall_subtrees_of_mem hvalid hp
        exact ih p hp hinside (plain_group.1 hplain p hp) (fun hp' => h (.group ho hp hp'))
          (hinside p p.self_mem_subtrees)
      rw [contents, c.combine_of_one hones]
      exact Occurs.words_one hbounds

end Particle

namespace Content

/-- An element or a wildcard can occur. -/
def Occupied (content : Content) : Prop := ∃ g, content = .group g ∧ g.toParticle.Occupied

/-- An element or a wildcard is mentioned, whether or not it can occur. -/
def HoldsLeaf (content : Content) : Prop := ∃ g, content = .group g ∧ g.toParticle.HoldsLeaf

theorem Occupied.holdsLeaf {content : Content} : content.Occupied → content.HoldsLeaf
  | ⟨g, hg, h⟩ => ⟨g, hg, h.holdsLeaf⟩

/-- A content in which nothing can occur admits no elements. -/
theorem language_of_not_occupied {content : Content} {extent : Extent}
    {accepts : ElementId → List Name} (hsound : Referring.Sound extent content)
    (hplain : content.Plain) (h : ¬ content.Occupied) : content.language accepts = 1 := by
  cases content with
  | empty => rfl
  | simple r => rfl
  | group g =>
    have hvalid : ∀ q ∈ g.toParticle.subtrees, q.occurs.Valid := fun q hq => (hsound q hq).1
    exact Particle.words_of_not_occupied hvalid (hplain g rfl) fun hsome => h ⟨g, rfl, hsome⟩

end Content

/-! ### Idle groups -/

namespace Components

/-- A group is idle if no element and no wildcard stands in it. -/
theorem isIdle_iff (g : ModelGroup) :
    (g.elements.isEmpty && g.wildcards.isEmpty) = true ↔ ¬ g.toParticle.HoldsLeaf := by
  have helements : g.elements = [] ↔ g.toParticle.elements = [] := by
    simp only [List.eq_nil_iff_forall_not_mem, ModelGroup.elements, mem_distinct]
  rw [Bool.and_eq_true, List.isEmpty_iff, List.isEmpty_iff, helements, Particle.HoldsLeaf, not_or,
    not_not, not_not]
  rfl

/-- Nothing but the content of a type changes when an idle group is dropped, and only if nothing
stands in it. -/
theorem exists_of_withoutIdleGroup {d : TypeDef} {ct : ComplexType}
    (h : withoutIdleGroup d = .complex ct) : ∃ content, d = .complex { ct with content } ∧
      (ct.content = .empty ∧ ¬ content.HoldsLeaf ∨ ct.content = content ∧
        ((∃ r, content = .simple r) ∨ content.HoldsLeaf)) := by
  obtain ⟨before, rfl⟩ := exists_complex_of_withoutIdleGroup h
  rw [withoutIdleGroup] at h
  refine ⟨before.content, ?_⟩
  split at h
  · next g hg =>
    split at h
    · next hidle =>
      cases h
      refine ⟨rfl, Or.inl ⟨rfl, ?_⟩⟩
      rintro ⟨g', hg', hleaf⟩
      cases hg.symm.trans hg'
      exact (isIdle_iff g).1 hidle hleaf
    · next hidle =>
      cases h
      exact ⟨rfl, Or.inr ⟨rfl, Or.inr ⟨g, hg, not_not.1 (mt (isIdle_iff g).2 hidle)⟩⟩⟩
  · next hgroup =>
    cases h
    refine ⟨rfl, ?_⟩
    cases hcontent : ct.content with
    | empty =>
      refine Or.inl ⟨rfl, ?_⟩
      rintro ⟨g, hg, -⟩
      cases hg
    | simple r => exact Or.inr ⟨rfl, Or.inl ⟨r, rfl⟩⟩
    | group g => exact absurd hcontent (hgroup g)

end Components

/-! ### Kinds of content in a grammar -/

namespace ComplexType

/-- The kind of content of a type that is neither mixed nor of simple content. -/
theorem contentKind_eq_empty {ct : ComplexType} (hmixed : ct.mixed = false)
    (hsimple : ∀ r, ct.content ≠ .simple r) : ct.contentKind = .empty ↔ ct.content = .empty := by
  rw [contentKind, hmixed]
  cases hcontent : ct.content with
  | empty => exact iff_of_true rfl rfl
  | simple r => exact absurd hcontent (hsimple r)
  | group g => exact iff_of_false nofun nofun

end ComplexType

/-- An element is said to have no content if its type is. -/
theorem Declaration.isEmpty_iff {g : Grammar} {d : ElementId} {e : Declaration} {t : TypeId}
    {ct : ComplexType} (ht : g.type? t = some (.complex ct)) (he : ofGrammar? g d = some e)
    (htype : e.type = t) : e.isEmpty = true ↔ ct.contentKind = .empty := by
  obtain ⟨decl, -, he⟩ := Option.bind_eq_some_iff.1 he
  obtain ⟨t', -, he⟩ := Option.bind_eq_some_iff.1 he
  obtain ⟨definition, hdefinition, he⟩ := Option.bind_eq_some_iff.1 he
  cases he
  subst htype
  cases ht.symm.trans hdefinition
  exact decide_eq_true_iff.trans (and_iff_right rfl)

namespace Grammar

variable {c : Components} {g : Grammar} {t : TypeId} {ct : ComplexType} {group : ModelGroup}

/-- Only complex types of a grammar have model groups. -/
theorem exists_type?_of_groupOf? (h : g.groupOf? t = some group) :
    ∃ ct, g.type? t = some (.complex ct) ∧ ct.content = .group group := by
  obtain ⟨d, hd, hgroup⟩ := Option.bind_eq_some_iff.1 h
  obtain ⟨ct, rfl, hcontent⟩ := TypeDef.exists_of_group? hgroup
  exact ⟨ct, hd, hcontent⟩

/-- A complex type of a grammar is one that is left once all references have been looked up, but for
a content in which nothing stands. -/
theorem exists_lookedUp_of_type? (hg : c.build = .ok g) (ht : g.type? t = some (.complex ct)) :
    ∃ content, c.lookedUp.types[t.index]? = some (.complex { ct with content }) ∧
      (ct.content = .empty ∧ ¬ content.HoldsLeaf ∨ ct.content = content ∧
        ((∃ r, content = .simple r) ∨ content.HoldsLeaf)) := by
  have htypes : c.lookedUp.concluded.types = c.lookedUp.types.map Components.withoutIdleGroup := rfl
  rw [← Components.finish_of_build hg, Components.type?_finish htypes,
    Option.map_eq_some_iff] at ht
  obtain ⟨d, hd, hidle⟩ := ht
  obtain ⟨content, rfl, hcontent⟩ := Components.exists_of_withoutIdleGroup hidle
  exact ⟨content, hd, hcontent⟩

/-- The model groups of a grammar are left from when all references had been looked up. -/
theorem exists_lookedUp_of_groupOf? (hg : c.build = .ok g) (h : g.groupOf? t = some group) :
    ∃ ct, c.lookedUp.types[t.index]? = some (.complex ct) ∧ ct.content = .group group := by
  obtain ⟨ct, hct, hcontent⟩ := exists_type?_of_groupOf? h
  obtain ⟨content, hlooked, hsame⟩ := exists_lookedUp_of_type? hg hct
  refine ⟨_, hlooked, ?_⟩
  rcases hsame with ⟨hnone, -⟩ | ⟨hsame, -⟩
  · cases hcontent.symm.trans hnone
  · exact hsame.symm.trans hcontent

/-- **Which types are said to have no content.**  A complex type of a grammar that is neither mixed
nor of simple content comes from one of which all references have been looked up.  It is said to be
empty, as are the elements of the type, exactly if no element and no wildcard stands in that one's
model group, and then none can occur there.  That none can occur is the same exactly if one can or
none stands there. -/
theorem contentKind_eq_empty_iff (hg : c.build = .ok g) (ht : g.type? t = some (.complex ct))
    (hmixed : ct.mixed = false) (hsimple : ∀ r, ct.content ≠ .simple r) :
    ∃ content, c.lookedUp.types[t.index]? = some (.complex { ct with content }) ∧
      (ct.contentKind = .empty ↔ ¬ content.HoldsLeaf) ∧
      (ct.contentKind = .empty → ¬ content.Occupied) ∧
      ((ct.contentKind = .empty ↔ ¬ content.Occupied) ↔ content.Occupied ∨ ¬ content.HoldsLeaf) ∧
      ∀ d e, Declaration.ofGrammar? g d = some e → e.type = t →
        (e.isEmpty = true ↔ ct.contentKind = .empty) := by
  obtain ⟨content, hlooked, hcontent⟩ := exists_lookedUp_of_type? hg ht
  have hempty := ComplexType.contentKind_eq_empty hmixed hsimple
  have hkind : ct.contentKind = .empty ↔ ¬ content.HoldsLeaf := by
    rw [hempty]
    rcases hcontent with ⟨hnone, hleafless⟩ | ⟨hsame, ⟨r, hr⟩ | ⟨group, hgroup, hleaf⟩⟩
    · exact iff_of_true hnone hleafless
    · exact absurd (hsame.trans hr) (hsimple r)
    · refine iff_of_false (fun hnone => ?_) (not_not.2 ⟨group, hgroup, hleaf⟩)
      cases hnone.symm.trans (hsame.trans hgroup)
  have hoccupied : content.Occupied → content.HoldsLeaf := Content.Occupied.holdsLeaf
  refine ⟨content, hlooked, hkind, fun hnone => mt hoccupied (hkind.1 hnone), ?_,
    fun d e he htype => Declaration.isEmpty_iff ht he htype⟩
  rw [hkind]
  constructor
  · intro hagree
    by_cases hleaf : content.HoldsLeaf
    · exact Or.inl (not_not.1 (mt hagree.2 (not_not.2 hleaf)))
    · exact Or.inr hleaf
  · rintro (hsome | hnone)
    · exact iff_of_false (not_not.2 (hoccupied hsome)) (not_not.2 hsome)
    · exact iff_of_true hnone (mt hoccupied hnone)

/-- An element whose only child may never occur. -/
def prohibitedChild : Submission where
  text := "<schema xmlns='http://www.w3.org/2001/XMLSchema'><element name='t'><complexType>" ++
    "<sequence><element name='a' minOccurs='0' maxOccurs='0'/></sequence>" ++
    "</complexType></element></schema>"
  location := .path "schema.xsd"

/-- In the grammar of `prohibitedChild`, the type of the element holds a child that may never occur,
and is said to have elements. -/
theorem exists_type_prohibitedChild :
    let c := (Components.empty .v10 {}).after [prohibitedChild]
    ∃ g ct group e, c.build = .ok g ∧ g.type? ⟨0⟩ = some (.complex ct) ∧ ct.mixed = false ∧
      ct.content = .group group ∧ group.particles = [.element ⟨0⟩ ⟨0, some 0⟩] ∧
      Declaration.ofGrammar? g ⟨1⟩ = some e ∧ e.type = ⟨0⟩ ∧ e.isEmpty = false := by
  intro c
  have hbuilt : ∃ g ∈ c.build.toOption,
      (g.type? ⟨0⟩).map (·.contentKind) = some .elementOnly ∧
      (g.groupOf? ⟨0⟩).bind (Particle.elements? ·.particles) = some [(⟨0⟩, ⟨0, some 0⟩)] ∧
      (Declaration.ofGrammar? g ⟨1⟩).map (fun e => (e.type, e.isEmpty)) = some (⟨0⟩, false) := by
    decide +kernel
  obtain ⟨g, hg, hkind, hgroup, hdeclared⟩ := hbuilt
  obtain ⟨group, hgroup, hparticles⟩ := Option.bind_eq_some_iff.1 hgroup
  obtain ⟨ct, hct, hcontent⟩ := exists_type?_of_groupOf? hgroup
  obtain ⟨e, he, htold⟩ := Option.map_eq_some_iff.1 hdeclared
  obtain ⟨htype, hempty⟩ := Prod.mk.inj htold
  have hmixed : ct.mixed = false := by
    rw [hct] at hkind
    have hkind : ct.contentKind = .elementOnly := Option.some.inj hkind
    rw [ComplexType.contentKind, hcontent] at hkind
    cases hmixed : ct.mixed with
    | false => rfl
    | true =>
      rw [hmixed] at hkind
      cases hkind
  exact ⟨g, ct, group, e, Components.build_of_mem hg, hct, hmixed, hcontent,
    Particle.eq_of_elements? hparticles, he, htype, hempty⟩

/-- The type holds something, and so its element is not said to be empty. -/
theorem contentKind_eq_empty_iff_prohibitedChild :
    let c := (Components.empty .v10 {}).after [prohibitedChild]
    ∃ g ct e content, c.build = .ok g ∧ g.type? ⟨0⟩ = some (.complex ct) ∧ ct.mixed = false ∧
      (∀ r, ct.content ≠ .simple r) ∧ Declaration.ofGrammar? g ⟨1⟩ = some e ∧ e.type = ⟨0⟩ ∧
      c.lookedUp.types[0]? = some (.complex { ct with content }) ∧ content.HoldsLeaf ∧
      e.isEmpty = false := by
  obtain ⟨g, ct, group, e, hg, ht, hmixed, hgroup, -, he, htype, hempty⟩ :=
    exists_type_prohibitedChild
  have hsimple : ∀ r, ct.content ≠ .simple r := fun r hr => by cases hgroup.symm.trans hr
  obtain ⟨content, hcontent, hkind, -, -, htold⟩ := contentKind_eq_empty_iff hg ht hmixed hsimple
  have hleaf : ¬ ¬ content.HoldsLeaf := fun hnone => by
    cases ((htold ⟨1⟩ e he htype).2 (hkind.2 hnone)).symm.trans hempty
  exact ⟨g, ct, e, content, hg, ht, hmixed, hsimple, he, htype, hcontent, not_not.1 hleaf, hempty⟩

/-- Neither an element nor a wildcard can occur in the type, but it is said to have elements. -/
theorem not_occupied_prohibitedChild :
    let c := (Components.empty .v10 {}).after [prohibitedChild]
    ∃ g ct e, c.build = .ok g ∧ g.type? ⟨0⟩ = some (.complex ct) ∧ ct.mixed = false ∧
      (∀ r, ct.content ≠ .simple r) ∧ Declaration.ofGrammar? g ⟨1⟩ = some e ∧ e.type = ⟨0⟩ ∧
      ¬ ct.content.Occupied ∧ ct.contentKind = .elementOnly ∧ e.isEmpty = false := by
  obtain ⟨g, ct, group, e, hg, ht, hmixed, hgroup, hparticles, he, htype, hempty⟩ :=
    exists_type_prohibitedChild
  refine ⟨g, ct, e, hg, ht, hmixed, fun r hr => ?_, he, htype, ?_, ?_, hempty⟩
  · cases hgroup.symm.trans hr
  · rintro ⟨group', hgroup', hoccupied⟩
    cases hgroup.symm.trans hgroup'
    rw [ModelGroup.toParticle, hparticles] at hoccupied
    cases hoccupied with
    | group _ hp hinside =>
      rw [List.mem_singleton.1 hp] at hinside
      cases hinside with
      | element ho => cases ho
  · rw [ComplexType.contentKind, hgroup, hmixed]

end Grammar
end SchemaAssist
