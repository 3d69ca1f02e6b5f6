/-
# Model groups that are cut short

Expansion cuts a model group where groups nest deeper than the limit allows, and leaves a group
there that is one level too deep, so that compiling refuses what is left.  Extension only adds
levels: where the group of a type, its own or one taken over from a base, can occur and is cut
short, what is left of it stays too deep in everything that is made of it.

There is one gap.  A sequence of nothing but one group, once, is dropped after expansion, and takes
one level with it (`ModelGroup.IsLone`).  A group that is cut short and stands alone in a
sequence is therefore never refused for its depth, and may compile without what was left out
(`Grammar.keptWhole_of_compiled`).
-/

import SchemaAssist.Proofs.Depth
import SchemaAssist.Proofs.Heredity
import SchemaAssist.Proofs.Suggestions
import SchemaAssist.Proofs.Vacancy

namespace SchemaAssist

open ContentModel (Automaton)
open Particle (depthOf)

/-! ### Depths of extensions -/

/-- A group that can occur is as deep as another at most. -/
def ModelGroup.NoDeeper (g h : ModelGroup) : Prop := g.occurs.never = true ∨ g.depth ≤ h.depth

namespace Content

variable {version : Version} {g h k : ModelGroup}

/-- An extension of a group by a group is a group. -/
theorem exists_extend_eq (version : Version) (g h : ModelGroup) :
    ∃ k, (Content.group g).extend version (.group h) = .group k := by
  rw [extend]
  split
  · exact ⟨_, rfl⟩
  · exact ⟨_, rfl⟩

/-- The groups of an extension are no deeper than what is made of them. -/
theorem noDeeper_of_extend
    (he : (Content.group g).extend version (.group h) = .group k) :
    g.NoDeeper k ∧ h.NoDeeper k := by
  rw [extend] at he
  split at he
  · obtain rfl := Content.group.inj he
    have hdepth : ModelGroup.depth { g with particles := g.particles ++ h.particles } =
        max (depthOf g.particles) (depthOf h.particles) + 1 := by
      rw [ModelGroup.depth_eq, Particle.depthOf_append]
    rw [ModelGroup.NoDeeper, ModelGroup.NoDeeper, hdepth, g.depth_eq, h.depth_eq]
    omega
  · obtain rfl := Content.group.inj he
    have hdepth : ModelGroup.depth ⟨.sequence, [g.toParticle, h.toParticle], .once⟩ =
        depthOf [g.toParticle, h.toParticle] + 1 := ModelGroup.depth_eq _
    have hpart (x : ModelGroup) (hx : x.toParticle ∈ [g.toParticle, h.toParticle]) :
        x.NoDeeper ⟨.sequence, [g.toParticle, h.toParticle], .once⟩ := by
      cases ho : x.occurs.never with
      | true => exact Or.inl ho
      | false =>
        have hle : x.depth ≤ depthOf [g.toParticle, h.toParticle] :=
          Particle.depth_le_depthOf hx ho
        exact Or.inr (by omega)
    exact ⟨hpart g (by simp), hpart h (by simp)⟩

end Content

namespace Components

/-! ### What contents are made of -/

/-- A content is made by extensions from the contents that types declare, each of which has been
expanded and has a property, and from the type of any content.  What may never occur may be
anything. -/
inductive MadeOf (c : Components) (Q : ModelGroup → Prop) : Content → Prop
  | declared {t : TypeId} {ct : ComplexType} {own : ModelGroup}
    (hct : c.types[t.index]? = some (.complex ct)) (hown : ct.content = .group own) (hQ : Q own) :
    MadeOf c Q (.group (c.expandGroup own).1.unwrap)
  | anyType : MadeOf c Q Builtin.anyType.content
  | simple (r : TypeRef) : MadeOf c Q (.simple r)
  | empty : MadeOf c Q .empty
  | never {g : ModelGroup} (hg : g.occurs.never = true) : MadeOf c Q (.group g)
  | extension {x y : Content} (hx : MadeOf c Q x) (hy : MadeOf c Q y) :
    MadeOf c Q (x.extend c.version y)

/-- A group is not cut short by expansion, or what is left of it stands alone in a sequence. -/
def KeptWhole (c : Components) (own : ModelGroup) : Prop :=
  c.CutShort own → (c.expandGroup own).1.IsLone

variable {c : Components}

/-- What is left of a group can occur if the group can, unless it stands alone in a sequence. -/
theorem occurs_unwrap {own : ModelGroup} (hlone : ¬ (c.expandGroup own).1.IsLone) :
    (c.expandGroup own).1.unwrap.occurs = own.occurs := by
  rw [ModelGroup.unwrap_of_not_isLone hlone]
  rfl

/-- **A group that is not too deep is made of nothing that was cut short**, but for groups that
stand alone in a sequence. -/
theorem MadeOf.keptWhole {x : Content} (h : c.MadeOf (fun _ => True) x)
    (hdepth : ∀ g, x = .group g → g.depth ≤ c.limits.modelDepth) : c.MadeOf c.KeptWhole x := by
  induction h with
  | @declared t ct own hct hown _ =>
    refine .declared hct hown fun hcut => by_contra fun hlone => ?_
    have hle := hdepth _ rfl
    rw [hcut.depth_unwrap_of_not_isLone hlone] at hle
    omega
  | anyType => exact .anyType
  | simple r => exact .simple r
  | empty => exact .empty
  | never hg => exact .never hg
  | @extension x y _ _ ihx ihy =>
    have hpart {k z : ModelGroup} (hk : x.extend c.version y = .group k) (hz : z.NoDeeper k)
        (ih : (∀ g, Content.group z = .group g → g.depth ≤ c.limits.modelDepth) →
          c.MadeOf c.KeptWhole (.group z)) : c.MadeOf c.KeptWhole (.group z) := by
      rcases hz with hnever | hle
      · exact .never hnever
      · refine ih ?_
        rintro _ ⟨⟩
        exact Nat.le_trans hle (hdepth k hk)
    cases x with
    | simple r =>
      have hbase : (Content.simple r).extend c.version y = .simple r := by cases y <;> rfl
      rw [hbase]
      exact .simple r
    | empty =>
      have hown : Content.empty.extend c.version y = y := by cases y <;> rfl
      rw [hown] at hdepth ⊢
      exact ihy hdepth
    | group g =>
      cases y with
      | simple r => exact .simple r
      | empty => exact ihx hdepth
      | group h =>
        obtain ⟨k, hk⟩ := Content.exists_extend_eq c.version g h
        obtain ⟨hg, hh⟩ := Content.noDeeper_of_extend hk
        exact .extension (hpart hk hg ihx) (hpart hk hh ihy)

/-! ### What types keep of their own groups -/

/-- A content as it is once its group has been expanded. -/
def expandContent (c : Components) : Content → Content
  | .group own => .group (c.expandGroup own).1.unwrap
  | content => content

theorem expandType_complex (c : Components) (ct : ComplexType) :
    (c.expandType (.complex ct)).1 =
      .complex { ct with content := c.expandContent ct.content } := by
  obtain ⟨_, content, _, _, _, _, _, _⟩ := ct
  cases content with
  | group own => rfl
  | simple r => rfl
  | empty => rfl

/-- A complex type before it is derived: its group has been expanded, or it is the type of any
content, which no document declares. -/
inductive Underived (c : Components) (t : TypeId) (ct : ComplexType) : Prop
  | declared {before : ComplexType} (hbefore : c.types[t.index]? = some (.complex before))
    (hderivation : ct.derivation? = before.derivation?)
    (hcontent : ct.content = c.expandContent before.content)
  | anyType (ht : c.types.size ≤ t.index) (hcontent : ct.content = Builtin.anyType.content)

/-- A complex type after it has been derived: its content is made of contents that types declare,
and if it declares a group itself, it has that one or extends a base by it. -/
structure Stems (c : Components) (t : TypeId) (ct : ComplexType) : Prop where
  madeOf : c.MadeOf (fun _ => True) ct.content
  own : ∀ before own, c.types[t.index]? = some (.complex before) → before.content = .group own →
    ct.content = .group (c.expandGroup own).1.unwrap ∨
      before.derivation?.isSome = true ∧ ∃ base : Content,
        ct.content = base.extend c.version (.group (c.expandGroup own).1.unwrap)

namespace Underived

variable {t b : TypeId} {ct before : ComplexType} {own : ModelGroup}

/-- What a type that a document declares is before it is derived. -/
theorem of_declared (h : c.Underived t ct) (hbefore : c.types[t.index]? = some (.complex before)) :
    ct.derivation? = before.derivation? ∧ ct.content = c.expandContent before.content := by
  cases h with
  | declared hbefore' hderivation hcontent =>
    cases hbefore'.symm.trans hbefore
    exact ⟨hderivation, hcontent⟩
  | anyType ht _ => exact absurd (Array.getElem?_eq_some_iff.1 hbefore).1 (Nat.not_lt.2 ht)

theorem content_of_declared (h : c.Underived t ct)
    (hbefore : c.types[t.index]? = some (.complex before)) (hown : before.content = .group own) :
    ct.content = .group (c.expandGroup own).1.unwrap := by
  rw [(h.of_declared hbefore).2, hown, expandContent]

theorem madeOf (h : c.Underived t ct) : c.MadeOf (fun _ => True) ct.content := by
  cases h with
  | @declared before hbefore _ hcontent =>
    rw [hcontent]
    cases hown : before.content with
    | group own => exact .declared hbefore hown trivial
    | simple r => exact .simple r
    | empty => exact .empty
  | anyType ht hcontent => exact hcontent ▸ .anyType

/-- A type whose own content is as it was has its own group. -/
theorem stems {ct' : ComplexType} (h : c.Underived t ct) (hsame : ct'.content = ct.content) :
    c.Stems t ct' where
  madeOf := hsame ▸ h.madeOf
  own _ _ hbefore hown := Or.inl (hsame.trans (h.content_of_declared hbefore hown))

/-- A type whose own value is not typed has no group that it could lose. -/
theorem stems_of_isUntyped {ct' : ComplexType} (h : c.Underived t ct)
    (huntyped : ct.content.isUntyped = true) (hmade : c.MadeOf (fun _ => True) ct'.content) :
    c.Stems t ct' where
  madeOf := hmade
  own before own hbefore hown := by
    rw [h.content_of_declared hbefore hown] at huntyped
    cases huntyped

/-- Deriving a type keeps its own group. -/
theorem derive (h : c.Underived t ct) {method : Derivation} {n : Name} {base : TypeDef}
    (hmethod : ct.derivation? = some (method, n))
    (hbase : ∀ ct', base = .complex ct' → c.Stems b ct') :
    c.Stems t (ct.derive c.version method b base) := by
  cases base with
  | simple st =>
    rw [ComplexType.derive]
    split
    · next huntyped => exact h.stems_of_isUntyped huntyped (.simple (.definition b))
    · exact h.stems rfl
  | complex ct' =>
    have hmade := (hbase ct' rfl).madeOf
    cases method with
    | extension =>
      refine ⟨.extension hmade h.madeOf, fun before own hbefore hown =>
        Or.inr ⟨?_, ct'.content, ?_⟩⟩
      · rw [← (h.of_declared hbefore).1, hmethod]
        rfl
      · exact congrArg (ct'.content.extend c.version) (h.content_of_declared hbefore hown)
    | restriction =>
      cases huntyped : ct.content.isUntyped with
      | true => exact h.stems_of_isUntyped huntyped (by rwa [ComplexType.derive, if_pos huntyped])
      | false =>
        refine h.stems ?_
        rw [ComplexType.derive, huntyped]
        rfl

end Underived

/-- What types are made of is passed on. -/
theorem hereditary (c : Components) : Hereditary c c.Underived c.Stems where
  anyType _ ht := .anyType ht rfl
  fresh_uses t ct attributes attributeGroups h := by
    cases h with
    | declared hbefore hderivation hcontent => exact .declared hbefore hderivation hcontent
    | anyType ht hcontent => exact .anyType ht hcontent
  final_uses _ _ _ h := ⟨h.madeOf, h.own⟩
  final _ _ h := h.stems rfl
  derived _ _ _ _ _ _ hmethod h hbase := h.derive hmethod hbase

theorem underived_expandTypes {t : TypeId} {ct : ComplexType}
    (hct : (expandTypes.run c).2.types[t.index]? = some (.complex ct)) : c.Underived t ct := by
  rw [types_expandTypes, Array.getElem?_map] at hct
  obtain ⟨d, hd, hexpand⟩ := Option.map_eq_some_iff.1 hct
  cases d with
  | simple st => cases hexpand
  | complex before =>
    rw [expandType_complex] at hexpand
    cases hexpand
    exact .declared hd rfl rfl

/-- **What types come to.** -/
theorem stems_lookedUp {t : TypeId} {ct : ComplexType}
    (hct : c.lookedUp.types[t.index]? = some (.complex ct)) : c.Stems t ct :=
  (c.hereditary.lookedUp fun _ _ => underived_expandTypes).2 t ct hct

theorem limits_lookedUp (c : Components) : c.lookedUp.limits = c.limits :=
  (c.hereditary.lookedUp fun _ _ => underived_expandTypes).1

/-- What is left of a group that a type declares is no deeper than the group that the type has in
the end. -/
theorem Stems.noDeeper {t : TypeId} {ct before : ComplexType} {own group : ModelGroup}
    (h : c.Stems t ct) (hbefore : c.types[t.index]? = some (.complex before))
    (hown : before.content = .group own) (hgroup : ct.content = .group group) :
    (c.expandGroup own).1.unwrap.NoDeeper group := by
  rcases h.own before own hbefore hown with hsame | ⟨-, base, hextended⟩
  · cases hgroup.symm.trans hsame
    exact Or.inr (Nat.le_refl _)
  · rw [hgroup] at hextended
    cases base with
    | simple r => cases hextended
    | empty =>
      cases hextended
      exact Or.inr (Nat.le_refl _)
    | group g => exact (Content.noDeeper_of_extend hextended.symm).2

end Components

namespace Grammar

variable {c : Components} {g : Grammar} {t : TypeId}

/-- A content model is compiled from the group that a type has when all references have been looked
up, and within the limits of the components. -/
theorem exists_lookedUp_of_compiled {m : Automaton} (hg : c.build = .ok g)
    (hm : g.model t = .compiled m) : ∃ ct group,
      c.lookedUp.types[t.index]? = some (.complex ct) ∧ ct.content = .group group ∧
      g.groupOf? t = some group ∧ group.depth ≤ c.limits.modelDepth := by
  have hm' := hm
  rw [← Components.finish_of_build hg] at hm'
  obtain ⟨group, hgroup, hcompile⟩ := Components.exists_compile_of_model_finish hm'
  rw [Components.finish_of_build hg] at hgroup
  obtain ⟨ct, hct, hcontent⟩ := exists_lookedUp_of_groupOf? hg hgroup
  have hlimits : c.lookedUp.concluded.limits = c.limits :=
    (Components.frame_concluded _).limits.trans c.limits_lookedUp
  rw [hlimits] at hcompile
  exact ⟨ct, group, hct, hcontent, hgroup, Automaton.depth_le_of_compile hcompile⟩

/-- A content model is refused for its depth only if its group is deeper than the limit. -/
theorem exists_lookedUp_of_tooDeep {found : Nat} (hg : c.build = .ok g)
    (hm : g.model t = .refused (.tooDeep found)) : ∃ ct group,
      c.lookedUp.types[t.index]? = some (.complex ct) ∧ ct.content = .group group ∧
      c.limits.modelDepth < group.depth := by
  rw [← Components.finish_of_build hg, Components.model_finish] at hm
  split at hm
  · cases hm
  · next group hgroup =>
    rw [Components.finish_of_build hg] at hgroup
    obtain ⟨ct, hct, hcontent⟩ := exists_lookedUp_of_groupOf? hg hgroup
    split at hm
    · cases hm
    · next refusal hcompile =>
      cases hm
      have hlimits : c.lookedUp.concluded.limits = c.limits :=
        (Components.frame_concluded _).limits.trans c.limits_lookedUp
      rw [hlimits] at hcompile
      exact ⟨ct, group, hct, hcontent, Automaton.lt_depth_of_compile hcompile⟩

/-- **Which content models may be compiled from groups that were cut short.**  If the content model
of a type is compiled, the group that the type declares is not cut short, unless what is left of it
stands alone in a sequence; and so it is for all groups that the group of the type was made of.  A
group that is cut short, stands alone in a sequence and extends no base is never refused for its
depth. -/
theorem keptWhole_of_compiled (hg : c.build = .ok g) (t : TypeId) :
    (∀ m, g.model t = .compiled m →
      (∀ ct own, c.types[t.index]? = some (.complex ct) → ct.content = .group own →
        c.KeptWhole own) ∧
      ∃ group, g.groupOf? t = some group ∧ c.MadeOf c.KeptWhole (.group group)) ∧
    ∀ ct own, c.types[t.index]? = some (.complex ct) → ct.content = .group own →
      ct.derivation? = none → c.CutShort own → (c.expandGroup own).1.IsLone →
        ∀ found, g.model t ≠ .refused (.tooDeep found) := by
  refine ⟨fun m hm => ?_, fun before own hbefore hown hunderived hcut hlone found hm => ?_⟩
  · obtain ⟨ct, group, hct, hcontent, hgroup, hdepth⟩ := exists_lookedUp_of_compiled hg hm
    have hstems := Components.stems_lookedUp hct
    constructor
    · intro before own hbefore hown hcut
      by_contra hlone
      have hleft := hcut.depth_unwrap_of_not_isLone hlone
      rcases hstems.noDeeper hbefore hown hcontent with hnever | hle
      · rw [Components.occurs_unwrap hlone, hcut.1] at hnever
        cases hnever
      · omega
    · have hmade : c.MadeOf (fun _ => True) (.group group) := hcontent ▸ hstems.madeOf
      refine ⟨group, hgroup, hmade.keptWhole ?_⟩
      rintro _ ⟨⟩
      exact hdepth
  · obtain ⟨ct, group, hct, hcontent, hdepth⟩ := exists_lookedUp_of_tooDeep hg hm
    rcases (Components.stems_lookedUp hct).own before own hbefore hown with hsame | ⟨hsome, -⟩
    · cases hcontent.symm.trans hsame
      have hleft := hcut.depth_unwrap_of_isLone hlone
      omega
    · rw [hunderived] at hsome
      cases hsome

theorem model_of_automaton? {m : Automaton} (h : g.automaton? t = some m) :
    g.model t = .compiled m := by
  rw [automaton?] at h
  split at h
  · next hm => exact hm.trans (congrArg ModelSlot.compiled (Option.some.inj h))
  · cases h

/-- An element with three groups in one another, of which the outermost one holds nothing else. -/
def sequenceAlone : Submission where
  text := "<schema xmlns='http://www.w3.org/2001/XMLSchema'><element name='t'><complexType>" ++
    "<sequence><sequence><element name='a'/><sequence><element name='b'/></sequence></sequence>" ++
    "</sequence></complexType></element></schema>"
  location := .path "schema.xsd"

/-- With two groups allowed, the group of the element's type is cut short, and yet it compiles. -/
theorem exists_compiled_sequenceAlone :
    let c := (Components.empty .v10 { modelDepth := 2 }).after [sequenceAlone]
    ∃ g ct own m, c.build = .ok g ∧ c.types[0]? = some (.complex ct) ∧ ct.content = .group own ∧
      c.CutShort own ∧ g.model ⟨0⟩ = .compiled m := by
  intro c
  have hbuilt : ∃ g ∈ c.build.toOption, (g.automaton? ⟨0⟩).isSome = true ∧
      ∃ d ∈ c.types[0]?, ∃ own ∈ d.group?,
        own.occurs.never = false ∧ (c.expandGroup own).1.depth = c.limits.modelDepth + 1 := by
    decide +kernel
  obtain ⟨g, hg, hm, d, hd, own, hown, hcut⟩ := hbuilt
  obtain ⟨ct, rfl, hcontent⟩ := TypeDef.exists_of_group? hown
  have hshort : c.CutShort own := Components.cutShort_iff.2 hcut
  obtain ⟨m, hm⟩ := Option.isSome_iff_exists.1 hm
  exact ⟨g, ct, own, m, Components.build_of_mem hg, hd, hcontent, hshort, model_of_automaton? hm⟩

/-- The group that is left of it stands alone in a sequence. -/
theorem keptWhole_of_compiled_sequenceAlone :
    let c := (Components.empty .v10 { modelDepth := 2 }).after [sequenceAlone]
    ∃ g ct own m, c.build = .ok g ∧ c.types[0]? = some (.complex ct) ∧ ct.content = .group own ∧
      g.model ⟨0⟩ = .compiled m ∧ c.CutShort own ∧ (c.expandGroup own).1.IsLone := by
  obtain ⟨g, ct, own, m, hg, hct, hown, hcut, hm⟩ := exists_compiled_sequenceAlone
  obtain ⟨hcompiled, -⟩ := keptWhole_of_compiled hg ⟨0⟩
  exact ⟨g, ct, own, m, hg, hct, hown, hm, hcut, (hcompiled m hm).1 ct own hct hown hcut⟩

/-- A content model may be compiled from a group that was cut short. -/
theorem not_forall_cutShort_not_compiled :
    ¬ ∀ (c : Components) (g : Grammar) (t : TypeId) (ct : ComplexType) (own : ModelGroup),
      c.build = .ok g → c.types[t.index]? = some (.complex ct) → ct.content = .group own →
      c.CutShort own → ∀ m, g.model t ≠ .compiled m := by
  intro hnever
  obtain ⟨g, ct, own, m, hg, hct, hown, hcut, hm⟩ := exists_compiled_sequenceAlone
  exact hnever _ g ⟨0⟩ ct own hg hct hown hcut m hm

end Grammar
end SchemaAssist
