/-
# Looking everything up

Once the model groups of all types have been expanded, no reference by name stands in them any more,
and everything that components refer to is still there (`Components.settled_expandTypes`).  The steps
that follow put new types in place, number built-in types and give types to elements; none of them
takes anything away or lets a reference in (`Components.settled_resolve`), and in the end every
element has a type.
-/

import SchemaAssist.Proofs.Contributions

namespace SchemaAssist

open Referring (rename Sound sound_mono sound_none sound_some sound_nil sound_append)

/-! ### Groups without references -/

namespace Particle

/-- A reference by name. -/
def isReference : Particle → Bool
  | elementRef .. => true
  | groupRef .. => true
  | _ => false

/-- No reference by name stands in a particle. -/
def Plain (p : Particle) : Prop := ∀ q ∈ p.subtrees, q.isReference = false

theorem plain_group {c : Compositor} {ps : List Particle} {o : Occurs} :
    (group c ps o).Plain ↔ ∀ p ∈ ps, p.Plain := by
  constructor
  · intro h p hp q hq
    exact h q (mem_subtrees_group.2 (Or.inr ⟨p, hp, hq⟩))
  · intro h q hq
    rcases mem_subtrees_group.1 hq with rfl | ⟨p, hp, hq⟩
    · rfl
    · exact h p hp q hq

theorem plain_of_leaf {p : Particle} (hsubtrees : p.subtrees = [p]) (h : p.isReference = false) :
    p.Plain := by
  intro q hq
  rw [hsubtrees, List.mem_singleton] at hq
  rw [hq, h]

end Particle

theorem ComplexType.group?_eq_some_iff {ct : ComplexType} {g : ModelGroup} :
    ct.group? = some g ↔ ct.content = .group g := by
  rw [ComplexType.group?]
  cases ct.content <;> simp

/-- Only complex types have model groups. -/
theorem TypeDef.exists_of_group? {d : TypeDef} {g : ModelGroup} (h : d.group? = some g) :
    ∃ ct, d = .complex ct ∧ ct.content = .group g := by
  cases d with
  | simple st => cases h
  | complex ct => exact ⟨ct, rfl, ComplexType.group?_eq_some_iff.1 h⟩

/-- No reference by name stands in the model group of a type. -/
def TypeDef.Plain (d : TypeDef) : Prop := ∀ g, d.group? = some g → g.toParticle.Plain

theorem TypeDef.plain_simple (st : SimpleType) : (TypeDef.simple st).Plain := nofun

/-- No reference by name stands in the content. -/
def Content.Plain (content : Content) : Prop := ∀ g, content = .group g → g.toParticle.Plain

theorem TypeDef.plain_complex {ct : ComplexType} :
    (TypeDef.complex ct).Plain ↔ ct.content.Plain := by
  have hgroup (g : ModelGroup) : (TypeDef.complex ct).group? = some g ↔ ct.content = .group g :=
    ComplexType.group?_eq_some_iff
  simp only [TypeDef.Plain, Content.Plain, hgroup]

namespace Components

variable {c : Components} {e : Extent}

/-- What is put in the place of references is there, and no reference is left. -/
theorem expandParticles_spec (hc : c.Intact) {room : Nat} {around : List Name} {ps : List Particle}
    (hps : ∀ p ∈ ps, Sound c.extent p) :
    ∀ p ∈ (c.expandParticles room around ps).1, Sound c.extent p ∧ p.Plain := by
  induction room generalizing around ps with
  | zero => nofun
  | succ room ih =>
    intro p hp
    rw [expandParticles] at hp
    obtain ⟨r, hr, hp⟩ := List.mem_filterMap.1 hp
    obtain ⟨q, hq, rfl⟩ := List.mem_map.1 hr
    have hsound := hps q hq
    cases q with
    | element d o =>
      cases hp
      exact ⟨hsound, Particle.plain_of_leaf rfl rfl⟩
    | any w =>
      cases hp
      exact ⟨hsound, Particle.plain_of_leaf rfl rfl⟩
    | group k qs o =>
      cases hp
      obtain ⟨ho, hqs⟩ := Particle.soundIn_group.1 hsound
      exact ⟨Particle.soundIn_group.2 ⟨ho, fun p hp => (ih hqs p hp).1⟩,
        Particle.plain_group.2 fun p hp => (ih hqs p hp).2⟩
    | elementRef n o =>
      have ho := Particle.soundIn_elementRef.1 hsound
      dsimp only at hp
      split at hp
      · next d hd =>
        cases hp
        have hdeclared : Sound c.extent d :=
          NameTable.sound_find? hc.globalElements hd
        exact ⟨Particle.soundIn_element.2 ⟨ho, hdeclared⟩, Particle.plain_of_leaf rfl rfl⟩
      · cases hp
    | groupRef n o =>
      have ho := Particle.soundIn_groupRef.1 hsound
      dsimp only at hp
      split at hp
      · cases hp
      · split at hp
        · next g hg =>
          cases hp
          have hqs : ∀ p ∈ g.particles, Sound c.extent p :=
            (Particle.soundIn_group.1 (NameTable.sound_find? hc.groups hg)).2
          exact ⟨Particle.soundIn_group.2 ⟨ho, fun p hp => (ih hqs p hp).1⟩,
            Particle.plain_group.2 fun p hp => (ih hqs p hp).2⟩
        · cases hp

/-- Components without references by name in the model groups of types. -/
structure Settled (c : Components) : Prop where
  intact : c.Intact
  plain : ∀ d ∈ c.types, d.Plain

theorem unwrap_spec {g : ModelGroup} (hsound : Sound e g) (hplain : g.toParticle.Plain) :
    Sound e g.unwrap ∧ g.unwrap.toParticle.Plain := by
  rw [ModelGroup.unwrap.eq_def]
  split
  · next c ps o =>
    have hinner : (Particle.group c ps o).SoundIn e :=
      (Particle.soundIn_group.1 hsound).2 _ (List.mem_singleton_self _)
    exact ⟨hinner, Particle.plain_group.1 hplain _ (List.mem_singleton_self _)⟩
  · exact ⟨hsound, hplain⟩

theorem expandType_spec (hc : c.Intact) {d : TypeDef} (hd : Sound c.extent d) :
    Sound c.extent (c.expandType d).1 ∧ (c.expandType d).1.Plain := by
  cases d with
  | simple st => exact ⟨hd, TypeDef.plain_simple st⟩
  | complex ct =>
    obtain ⟨hcontent, hattributes⟩ := hd
    rw [expandType]
    cases hct : ct.content with
    | empty =>
      refine ⟨⟨hcontent, hattributes⟩, TypeDef.plain_complex.2 fun g hg => ?_⟩
      rw [hct] at hg
      cases hg
    | simple t =>
      refine ⟨⟨hcontent, hattributes⟩, TypeDef.plain_complex.2 fun g hg => ?_⟩
      rw [hct] at hg
      cases hg
    | group g =>
      rw [hct] at hcontent
      obtain ⟨ho, hps⟩ := Particle.soundIn_group.1 hcontent
      have hparticles : ∀ p ∈ (c.expandParticles c.limits.modelDepth [] g.particles).1,
          Sound c.extent p ∧ p.Plain := expandParticles_spec hc hps
      have hexpanded : Sound c.extent (c.expandGroup g).1 :=
        Particle.soundIn_group.2 ⟨ho, fun p hp => (hparticles p hp).1⟩
      have hplain : (c.expandGroup g).1.toParticle.Plain :=
        Particle.plain_group.2 fun p hp => (hparticles p hp).2
      obtain ⟨hsound, hunwrapped⟩ := unwrap_spec hexpanded hplain
      refine ⟨⟨hsound, hattributes⟩, TypeDef.plain_complex.2 fun g' hg' => ?_⟩
      cases hg'
      exact hunwrapped

/-- **No reference by name is left once the model groups of all types have been expanded.** -/
theorem settled_expandTypes (hc : c.Intact) : (expandTypes.run c).2.Settled := by
  have hrun : (expandTypes.run c).2.types = (c.types.map c.expandType).map (·.1) := rfl
  have hextent : (expandTypes.run c).2.extent = c.extent := by
    rw [extent, extent, hrun, Array.size_map, Array.size_map]
    rfl
  have htype (d : TypeDef) (hd : d ∈ (expandTypes.run c).2.types) :
      Sound c.extent d ∧ d.Plain := by
    rw [hrun, Array.map_map] at hd
    obtain ⟨d', hd', rfl⟩ := Array.mem_map.1 hd
    exact expandType_spec hc (hc.types d' hd')
  refine ⟨?_, fun d hd => (htype d hd).2⟩
  rw [Intact, hextent]
  exact { hc with types := fun d hd => (htype d hd).1 }

/-! ### Steps after that -/

/-- An element has a type. -/
def Typed (c : Components) (d : ElementId) : Prop :=
  ∃ decl t, c.elements[d.index]? = some decl ∧ decl.type? = some t

/-- What the steps after expansion leave as it is, and what they only add to. -/
structure Advances (c c' : Components) : Prop where
  elements : c'.elements.size = c.elements.size
  types : c.types.size ≤ c'.types.size
  locations : c'.locations = c.locations
  typed : ∀ d, c.Typed d → c'.Typed d

namespace Advances

variable {c' c'' : Components}

theorem refl (c : Components) : Advances c c := ⟨rfl, Nat.le_refl _, rfl, fun _ h => h⟩

theorem trans (h : Advances c c') (h' : Advances c' c'') : Advances c c'' where
  elements := h'.elements.trans h.elements
  types := Nat.le_trans h.types h'.types
  locations := h'.locations.trans h.locations
  typed d hd := h'.typed d (h.typed d hd)

theorem extent_le (h : Advances c c') : c.extent ≤ c'.extent := by
  refine ⟨Nat.le_of_eq h.elements.symm, h.types, Nat.le_of_eq ?_⟩
  rw [extent, extent, h.locations]

end Advances
end Components

open Components (Settled Advances)

namespace Building

variable {α β : Type} [Referring α] [Referring β] {e e' : Extent} {P : α → Prop} {Q : β → Prop}

/-- A step after expansion whose value has a property, as long as there is at least what an extent
says. -/
def Ensures (e : Extent) (x : Building α) (P : α → Prop) : Prop :=
  ∀ c : Components, c.Settled → e ≤ c.extent → (x.run c).2.Settled ∧
    Advances c (x.run c).2 ∧ Sound (x.run c).2.extent (x.run c).1 ∧ P (x.run c).1

/-- A step after expansion. -/
abbrev Secure (e : Extent) (x : Building α) : Prop := Ensures e x fun _ => True

namespace Ensures

theorem pure {a : α} (ha : Sound e a) (h : P a) : Ensures e (pure a) P :=
  fun c hc he => ⟨hc, .refl c, sound_mono he ha, h⟩

theorem mono {x : Building α} (h : Ensures e x P) (he : e ≤ e') : Ensures e' x P :=
  fun c hc he' => h c hc (Extent.le_trans he he')

theorem bind {x : Building α} {f : α → Building β} (hx : Ensures e x P)
    (hf : ∀ e', e ≤ e' → ∀ a, Sound e' a → P a → Ensures e' (f a) Q) : Ensures e (x >>= f) Q := by
  intro c hc he
  obtain ⟨hsettled, hadvances, hsound, hvalue⟩ := hx c hc he
  obtain ⟨hsettled', hadvances', hvalue'⟩ := hf _ (Extent.le_trans he hadvances.extent_le) _ hsound
    hvalue _ hsettled (Extent.le_refl _)
  exact ⟨hsettled', hadvances.trans hadvances', hvalue'⟩

/-- A step that depends on the components. -/
theorem get_bind {f : Components → Building β}
    (hf : ∀ c : Components, c.Settled → e ≤ c.extent → Ensures c.extent (f c) Q) :
    Ensures e (get >>= f) Q :=
  fun c hc he => hf c hc he c hc (Extent.le_refl _)

theorem forM {γ : Type} {as : List γ} {f : γ → Building PUnit} (h : ∀ a ∈ as, Secure e (f a)) :
    Secure e (as.forM f) := by
  induction as generalizing e with
  | nil => exact pure (α := PUnit) trivial trivial
  | cons a as ih =>
    rw [List.forall_mem_cons] at h
    exact h.1.bind fun e' he _ _ _ => ih fun a ha => (h.2 a ha).mono he

theorem mapM {γ : Type} {as : List γ} {f : γ → Building α} (h : ∀ a ∈ as, Secure e (f a)) :
    Secure e (as.mapM f) := by
  induction as generalizing e with
  | nil => exact pure (α := List α) sound_nil trivial
  | cons a as ih =>
    rw [List.forall_mem_cons] at h
    rw [List.mapM_cons]
    refine h.1.bind fun e₁ h₁ b hb _ => (ih fun a ha => (h.2 a ha).mono h₁).bind
      fun e₂ h₂ bs hbs _ => ?_
    exact pure (α := List α) (List.forall_mem_cons.2 ⟨sound_mono h₂ hb, hbs⟩) trivial

theorem findSomeM? {γ : Type} {as : List γ} {f : γ → Building (Option α)}
    (h : ∀ a ∈ as, Secure e (f a)) : Secure e (as.findSomeM? f) := by
  induction as generalizing e with
  | nil => exact pure (α := Option α) sound_none trivial
  | cons a as ih =>
    rw [List.forall_mem_cons] at h
    refine h.1.bind fun e₁ h₁ b? hb _ => ?_
    cases b? with
    | none => exact ih fun a ha => (h.2 a ha).mono h₁
    | some b => exact pure hb trivial

/-- A step that changes the components by themselves. -/
theorem modify {f : Components → Components}
    (hf : ∀ c : Components, c.Settled → e ≤ c.extent → (f c).Settled ∧ Advances c (f c)) :
    Secure e (modify f) := by
  intro c hc he
  obtain ⟨hsettled, hadvances⟩ := hf c hc he
  exact ⟨hsettled, hadvances, trivial, trivial⟩

end Ensures
end Building

namespace Components

open Building (Ensures Secure)

variable {e : Extent} {c : Components}

/-! ### Types that are referred to -/

theorem secure_report (f : Fault) : Secure e (report f) :=
  Ensures.modify fun _ hc _ =>
    ⟨⟨{ hc.intact with }, hc.plain⟩, ⟨rfl, Nat.le_refl _, rfl, fun _ h => h⟩⟩

theorem secure_addType {d : TypeDef} (hd : Sound e d) (hplain : d.Plain) :
    Secure e (addType d) := by
  intro c hc he
  let c' : Components := { c with types := c.types.push d }
  have hadvances : Advances c c' :=
    ⟨rfl, by simp [c'], rfl, fun _ h => h⟩
  have hmem (d' : TypeDef) (hd' : d' ∈ c'.types) : d' ∈ c.types ∨ d' = d := Array.mem_push.1 hd'
  refine ⟨⟨{ SoundIn.mono hadvances.extent_le hc.intact with types := ?_ }, ?_⟩, hadvances, ?_,
    trivial⟩
  · intro d' hd'
    rcases hmem d' hd' with hd' | rfl
    · exact sound_mono hadvances.extent_le (hc.intact.types d' hd')
    · exact sound_mono (Extent.le_trans he hadvances.extent_le) hd
  · intro d' hd'
    rcases hmem d' hd' with hd' | rfl
    · exact hc.plain d' hd'
    · exact hplain
  · change c.types.size < (c.types.push d).size
    simp

/-- The built-in types refer to nothing. -/
theorem definition_spec (e : Extent) (localName : String) :
    Sound e (Builtin.definition localName) ∧ (Builtin.definition localName).Plain := by
  rw [Builtin.definition]
  split
  · have hany : (Particle.any ⟨.any, .lax, .anyNumber⟩).SoundIn e :=
      Particle.soundIn_any.2 Occurs.valid_anyNumber
    refine ⟨⟨Particle.soundIn_group.2 ⟨Occurs.valid_once, ?_⟩, sound_nil⟩,
      TypeDef.plain_complex.2 fun g hg => ?_⟩
    · exact List.forall_mem_singleton.2 hany
    · cases hg
      exact Particle.plain_group.2
        (List.forall_mem_singleton.2 (Particle.plain_of_leaf rfl rfl))
  · exact ⟨⟨trivial, sound_none, trivial, sound_nil⟩, TypeDef.plain_simple _⟩

theorem secure_builtinType (localName : String) : Secure e (builtinType localName) := by
  refine Ensures.get_bind fun c hc he => ?_
  split
  · next t ht =>
    obtain ⟨before, after, hentries, -⟩ := List.lookup_eq_some_iff.1 ht
    have hmem : (localName, t) ∈ c.builtins := by
      rw [hentries]
      exact List.mem_append_right _ List.mem_cons_self
    exact .pure (hc.intact.builtins _ hmem).2 trivial
  · obtain ⟨hsound, hplain⟩ := definition_spec c.extent localName
    refine (secure_addType hsound hplain).bind fun e' he' t ht _ => ?_
    refine (Ensures.modify fun c' hc' he'' => ?_).bind fun e'' he'' _ _ _ =>
      .pure (sound_mono he'' ht) trivial
    refine ⟨⟨{ hc'.intact with builtins := ?_ }, hc'.plain⟩, ⟨rfl, Nat.le_refl _, rfl, fun _ h => h⟩⟩
    exact List.forall_mem_cons.2 ⟨⟨trivial, sound_mono he'' ht⟩, hc'.intact.builtins⟩

theorem secure_typeNamed? (n : Name) : Secure e (typeNamed? n) := by
  refine Ensures.get_bind fun c hc he => ?_
  split
  · next t ht =>
    exact .pure (sound_some (NameTable.sound_find? hc.intact.globalTypes ht)) trivial
  · split
    · exact (secure_builtinType _).bind fun _ _ _ ht _ => .pure (sound_some ht) trivial
    · exact .pure (α := Option TypeId) sound_none trivial

theorem secure_typeOf? {ref : TypeRef} (href : Sound e ref) (referrer : Referrer) :
    Secure e (typeOf? ref referrer) := by
  cases ref with
  | unspecified => exact .pure (α := Option TypeId) sound_none trivial
  | definition t => exact .pure (α := Option TypeId) (sound_some href) trivial
  | named n =>
    refine (secure_typeNamed? n).bind fun e₁ _ t? ht _ => ?_
    split
    · exact (secure_report _).bind fun _ h₂ _ _ _ => .pure (sound_mono h₂ ht) trivial
    · exact .pure ht trivial

theorem ensures_type? (t : TypeId) : Ensures e (type? t) fun d? => ∀ d ∈ d?, d.Plain := by
  refine Ensures.get_bind fun c hc he => ?_
  exact .pure (α := Option TypeDef) (fun d hd => hc.intact.types d (Array.mem_of_getElem? hd))
    fun d hd => hc.plain d (Array.mem_of_getElem? hd)

theorem secure_setType (t : TypeId) {d : TypeDef} (hd : Sound e d) (hplain : d.Plain) :
    Secure e (setType t d) := by
  refine Ensures.modify fun c hc he => ?_
  have hmem (d' : TypeDef) (hd' : d' ∈ c.types.setIfInBounds t.index d) : d' ∈ c.types ∨ d' = d :=
    Array.mem_or_eq_of_mem_setIfInBounds hd'
  have hadvances : Advances c { c with types := c.types.setIfInBounds t.index d } :=
    ⟨rfl, by simp, rfl, fun _ h => h⟩
  refine ⟨⟨{ SoundIn.mono hadvances.extent_le hc.intact with types := ?_ }, ?_⟩, hadvances⟩
  · intro d' hd'
    rcases hmem d' hd' with hd' | rfl
    · exact sound_mono hadvances.extent_le (hc.intact.types d' hd')
    · exact sound_mono (Extent.le_trans he hadvances.extent_le) hd
  · intro d' hd'
    rcases hmem d' hd' with hd' | rfl
    · exact hc.plain d' hd'
    · exact hplain

theorem secure_resolveBase (t : TypeId) : Secure e (resolveBase t) := by
  refine (ensures_type? t).bind fun e₁ _ d? hd _ => ?_
  split
  · next st _ =>
    obtain ⟨hbase, hbase?, hrest⟩ := hd _ rfl
    split
    · refine (secure_typeOf? hbase _).bind fun e₂ h₂ b? hb _ => ?_
      have hset : Sound e₂ (TypeDef.simple { st with base? := b? }) :=
        ⟨sound_mono h₂ hbase, hb, sound_mono h₂ hrest.1, sound_mono h₂ hrest.2⟩
      exact secure_setType t hset (TypeDef.plain_simple _)
    · exact .pure (α := PUnit) trivial trivial
  · exact .pure (α := PUnit) trivial trivial

theorem secure_resolveBases : Secure e resolveBases :=
  Ensures.get_bind fun _ _ _ => Ensures.forM fun _ _ => secure_resolveBase _

/-! ### Attributes -/

section Attributes

variable {uses own : List AttributeUse}

theorem sound_without (h : Sound e uses) (n : Name) : Sound e (AttributeUse.without uses n) :=
  fun a ha => h a (List.mem_filter.1 ha).1

theorem sound_replace (h : Sound e uses) {a : AttributeUse} (ha : Sound e a) :
    Sound e (AttributeUse.without uses a.name ++ [a]) :=
  sound_append (sound_without h a.name) (List.forall_mem_singleton.2 ha)

theorem sound_mergeAttributes (h : Sound e uses) (hown : Sound e own) :
    Sound e (mergeAttributes uses own) := by
  refine List.foldlRecOn own _ h fun uses huses a ha => ?_
  rw [AttributeUse.override]
  split
  · exact sound_without huses a.name
  · exact sound_replace huses (hown a ha)

theorem sound_ownUses (h : Sound e uses) (hown : Sound e own) : Sound e (ownUses uses own) :=
  List.foldlRecOn own _ h fun _ huses a ha => sound_replace huses (hown a ha)

theorem sound_groupUses {groups : NameTable AttributeGroup} (hgroups : Sound e groups)
    (room : Nat) (around refs : List Name) : Sound e (groupUses groups room around refs).1 := by
  induction room generalizing around refs with
  | zero => exact sound_nil
  | succ room ih =>
    rw [groupUses]
    refine List.foldlRecOn (motive := fun r : List AttributeUse × List Fault => Sound e r.1) refs _
      sound_nil ?_
    intro found hfound n _
    dsimp only
    split
    · exact hfound
    · split
      · exact hfound
      · next g hg =>
        have hown : Sound e g := NameTable.sound_find? hgroups hg
        exact sound_mergeAttributes (sound_mergeAttributes hfound (ih _ _)) hown

theorem secure_dereference {a : AttributeUse} (ha : Sound e a) : Secure e (dereference a) := by
  rw [dereference]
  split
  · exact .pure ha trivial
  · refine Ensures.get_bind fun c hc he => ?_
    split
    · next declaration hd =>
      obtain ⟨htype, -⟩ := NameTable.sound_find? hc.intact.globalAttributes hd
      exact .pure (α := AttributeUse) ⟨htype, (sound_mono he ha).2⟩ trivial
    · exact (secure_report _).bind fun e₁ h₁ _ _ _ =>
        .pure (sound_mono (α := AttributeUse) (Extent.le_trans he h₁) ha) trivial

theorem secure_resolveUse {a : AttributeUse} (ha : Sound e a) : Secure e (resolveUse a) :=
  (secure_dereference ha).bind fun _ _ _ ha _ => (secure_typeOf? ha.1 _).bind fun _ h₂ _ ht _ =>
    .pure (α := AttributeUse) ⟨sound_mono h₂ ha.1, ht⟩ trivial

theorem secure_resolveUses (hown : Sound e own) (groups : List Name) :
    Secure e (resolveUses own groups) := by
  refine Ensures.get_bind fun c hc he => ?_
  have huses : Sound c.extent (ownUses (c.usesOfGroups groups).1 own) :=
    sound_ownUses (sound_groupUses hc.intact.attributeGroups _ _ _) (sound_mono he hown)
  exact (Ensures.forM fun f _ => secure_report f).bind fun e₁ h₁ _ _ _ =>
    Ensures.mapM fun a ha => secure_resolveUse (sound_mono h₁ (huses a ha))

end Attributes

/-! ### Derivation -/

/-- The content of an extension refers to what the contents that it is made of refer to. -/
theorem extend_spec (version : Version) {base own : Content} (hbase : Sound e base)
    (hown : Sound e own) (hplain : base.Plain) (hplain' : own.Plain) :
    Sound e (base.extend version own) ∧ (base.extend version own).Plain := by
  rw [Content.extend.eq_def]
  split
  · exact ⟨hbase, hplain⟩
  · exact ⟨hown, hplain'⟩
  · exact ⟨hbase, hplain⟩
  · exact ⟨hown, hplain'⟩
  · next g h =>
    obtain ⟨ho, hps⟩ := Particle.soundIn_group.1 hbase
    obtain ⟨-, hps'⟩ := Particle.soundIn_group.1 hown
    have hp := Particle.plain_group.1 (hplain g rfl)
    have hp' := Particle.plain_group.1 (hplain' h rfl)
    split
    · refine ⟨Particle.soundIn_group.2 ⟨ho, List.forall_mem_append.2 ⟨hps, hps'⟩⟩, ?_⟩
      rintro g' ⟨⟩
      exact Particle.plain_group.2 (List.forall_mem_append.2 ⟨hp, hp'⟩)
    · refine ⟨Particle.soundIn_group.2 ⟨Occurs.valid_once, ?_⟩, ?_⟩
      · exact List.forall_mem_cons.2 ⟨hbase, List.forall_mem_singleton.2 hown⟩
      · rintro g' ⟨⟩
        exact Particle.plain_group.2
          (List.forall_mem_cons.2 ⟨hplain g rfl, List.forall_mem_singleton.2 (hplain' h rfl)⟩)

theorem derive_spec (version : Version) {ct : ComplexType} {method : Derivation} {b : TypeId}
    {base : TypeDef} (hct : Sound e ct) (hplain : ct.content.Plain) (hb : Sound e b)
    (hbase : Sound e base) (hbasePlain : base.Plain) :
    Sound e (ct.derive version method b base) ∧ (ct.derive version method b base).content.Plain := by
  cases base with
  | simple st =>
    rw [ComplexType.derive]
    split
    · exact ⟨⟨hb, hct.2⟩, nofun⟩
    · exact ⟨hct, hplain⟩
  | complex base =>
    have hattributes : Sound e (mergeAttributes base.attributes ct.attributes) :=
      sound_mergeAttributes hbase.2 hct.2
    have hcontent := TypeDef.plain_complex.1 hbasePlain
    cases method with
    | extension =>
      obtain ⟨hsound, hextended⟩ := extend_spec version hbase.1 hct.1 hcontent hplain
      exact ⟨⟨hsound, hattributes⟩, hextended⟩
    | restriction =>
      rw [ComplexType.derive]
      dsimp only
      split
      · exact ⟨⟨hbase.1, hattributes⟩, hcontent⟩
      · exact ⟨⟨hct.1, hattributes⟩, hplain⟩

namespace Deriving

variable {α β : Type} [Referring α] [Referring β] {e' : Extent} {P : α → Prop} {Q : β → Prop}

/-- A step of derivation whose value has a property. -/
def Ensures (e : Extent) (x : Deriving α) (P : α → Prop) : Prop :=
  ∀ (e' : Extent) (done : List TypeId), e ≤ e' → Sound e' done →
    Building.Ensures e' (x.run done) fun r => P r.1

namespace Ensures

theorem pure {a : α} (ha : Sound e a) (h : P a) : Deriving.Ensures e (pure a) P :=
  fun _ _ he hdone => .pure (α := α × List TypeId) ⟨sound_mono he ha, hdone⟩ h

theorem mono {x : Deriving α} (h : Deriving.Ensures e x P) (he : e ≤ e') :
    Deriving.Ensures e' x P :=
  fun _ done he' hdone => h _ done (Extent.le_trans he he') hdone

theorem bind {x : Deriving α} {f : α → Deriving β} (hx : Deriving.Ensures e x P)
    (hf : ∀ e', e ≤ e' → ∀ a, Sound e' a → P a → Deriving.Ensures e' (f a) Q) :
    Deriving.Ensures e (x >>= f) Q :=
  fun e' done he hdone => (hx e' done he hdone).bind fun e'' he' r hr hP =>
    hf e'' (Extent.le_trans he he') r.1 hr.1 hP e'' r.2 (Extent.le_refl _) hr.2

theorem forM {γ : Type} {as : List γ} {f : γ → Deriving PUnit}
    (h : ∀ a ∈ as, Deriving.Ensures e (f a) fun _ => True) :
    Deriving.Ensures e (as.forM f) fun _ => True := by
  induction as generalizing e with
  | nil => exact pure (α := PUnit) trivial trivial
  | cons a as ih =>
    rw [List.forall_mem_cons] at h
    exact h.1.bind fun e' he _ _ _ => ih fun a ha => (h.2 a ha).mono he

/-- A step that depends on the components. -/
theorem get_bind {f : Components → Deriving β} (hf : ∀ c, Deriving.Ensures e (f c) Q) :
    Deriving.Ensures e (getThe Components >>= f) Q :=
  fun e' done he hdone c hc he' => hf c e' done he hdone c hc he'

theorem lift {x : Building α} (h : Building.Ensures e x P) : Deriving.Ensures e (liftM x) P := by
  intro e' done he hdone
  change Building.Ensures e' (x >>= fun a => Pure.pure (a, done)) fun r => P r.1
  exact (h.mono he).bind fun e'' he' a ha hP =>
    .pure (α := α × List TypeId) ⟨ha, sound_mono he' hdone⟩ hP

end Ensures
end Deriving

/-- Which types are done is known. -/
theorem ensures_done : Deriving.Ensures e (getThe (List TypeId)) fun _ => True :=
  fun _ _ _ hdone => .pure (α := List TypeId × List TypeId) ⟨hdone, hdone⟩ trivial

/-- A type is done from now on. -/
theorem ensures_mark {t : TypeId} (ht : Sound e t) :
    Deriving.Ensures e (modifyThe (List TypeId) (t :: ·)) fun _ => True :=
  fun _ _ he hdone => .pure (α := PUnit × List TypeId)
    ⟨trivial, List.forall_mem_cons.2 ⟨sound_mono he ht, hdone⟩⟩ trivial

/-- A type is replaced by what it comes to. -/
theorem ensures_store {t : TypeId} (ht : Sound e t) {ct : ComplexType} (hct : Sound e ct)
    (hplain : ct.content.Plain) :
    Deriving.Ensures e (liftM (setType t (.complex
      { ct with attributes := ct.attributes.filter (!·.prohibited) })) >>= fun _ =>
        modifyThe (List TypeId) (t :: ·)) fun _ => True := by
  have hset : Sound e (TypeDef.complex
      { ct with attributes := ct.attributes.filter (!·.prohibited) }) :=
    ⟨hct.1, fun a ha => hct.2 a (List.mem_filter.1 ha).1⟩
  exact (Deriving.Ensures.lift (secure_setType t hset (TypeDef.plain_complex.2 hplain))).bind
    fun _ he' _ _ _ => ensures_mark (sound_mono he' ht)

theorem secure_derive (room : Nat) {path : List TypeId} {t : TypeId} (ht : Sound e t) :
    Deriving.Ensures e (derive room path t) fun _ => True := by
  induction room generalizing e path t with
  | zero => exact .pure (α := PUnit) trivial trivial
  | succ room ih =>
    rw [derive]
    refine ensures_done.bind fun e₁ h₁ done _ _ => ?_
    split
    · exact .pure (α := PUnit) trivial trivial
    · refine (Deriving.Ensures.lift (ensures_type? t)).bind fun e₂ h₂ d? hd hplain => ?_
      split
      · next ct =>
        split
        · exact .lift (secure_report _)
        · obtain ⟨hcontent, hattributes⟩ := hd _ rfl
          have hcontentPlain := TypeDef.plain_complex.1 (hplain _ rfl)
          refine (Deriving.Ensures.lift (secure_resolveUses hattributes _)).bind
            fun e₃ h₃ attributes huses _ => ?_
          extract_lets ct' store
          have hle : e ≤ e₃ := Extent.le_trans h₁ (Extent.le_trans h₂ h₃)
          have hown : Sound e₃ ct' := ⟨sound_mono h₃ hcontent, huses⟩
          have hpure {e' : Extent} (he : e ≤ e') {ct : ComplexType} (hct : Sound e' ct)
              (hplain : ct.content.Plain) : Deriving.Ensures e' (pure ct >>= store) fun _ => True :=
            (Deriving.Ensures.pure hct hplain).bind fun _ he' _ hct hplain =>
              ensures_store (sound_mono (Extent.le_trans he he') ht) hct hplain
          split
          · exact hpure hle hown hcontentPlain
          · refine (Deriving.Ensures.lift (secure_typeNamed? _)).bind fun e₄ h₄ b? hb _ => ?_
            have hle₄ := Extent.le_trans hle h₄
            split
            · exact (Deriving.Ensures.lift (secure_report _)).bind fun _ h₅ _ _ _ =>
                hpure (Extent.le_trans hle₄ h₅) (sound_mono (Extent.le_trans h₄ h₅) hown)
                  hcontentPlain
            · next b =>
              split
              · exact (Deriving.Ensures.lift (secure_report _)).bind fun _ h₅ _ _ _ =>
                  hpure (Extent.le_trans hle₄ h₅) (sound_mono (Extent.le_trans h₄ h₅) hown)
                    hcontentPlain
              · have hwaiting : Sound e₄ b := hb _ rfl
                refine (ih hwaiting).bind fun e₅ h₅ _ _ _ =>
                  (Deriving.Ensures.lift (ensures_type? b)).bind fun e₆ h₆ d? hd? hbase => ?_
                have h₄₆ := Extent.le_trans h₅ h₆
                have hle₆ := Extent.le_trans hle₄ h₄₆
                have hown₆ := sound_mono (Extent.le_trans h₄ h₄₆) hown
                split
                · next d _ _ =>
                  refine .get_bind fun c => ?_
                  obtain ⟨hsound, hplain'⟩ := derive_spec c.version hown₆
                    hcontentPlain (sound_mono h₄₆ hwaiting) (hd? _ rfl) (hbase _ rfl)
                  exact hpure hle₆ hsound hplain'
                · exact hpure hle₆ hown₆ hcontentPlain
      · exact ensures_mark (sound_mono (Extent.le_trans h₁ h₂) ht)

theorem secure_deriveTypes : Secure e deriveTypes := by
  refine Ensures.get_bind fun c hc he => ?_
  have hall : Deriving.Ensures c.extent
      ((List.range c.types.size).forM fun i => derive (c.types.size + 2) [] ⟨i⟩) fun _ => True :=
    .forM fun i hi => secure_derive _ (List.mem_range.1 hi)
  exact (hall c.extent [] (Extent.le_refl _) sound_nil).bind fun _ _ _ _ _ =>
    .pure (α := PUnit) trivial trivial

/-! ### Types of elements -/

theorem run_bind {α β : Type} (x : Building α) (f : α → Building β) (c : Components) :
    (x >>= f).run c = (f (x.run c).1).run (x.run c).2 := rfl

theorem secure_element? (d : ElementId) : Secure e (element? d) :=
  Ensures.get_bind fun _ hc _ => .pure (α := Option ElementDecl)
    (fun decl hdecl => hc.intact.elements decl (Array.mem_of_getElem? hdecl)) trivial

theorem secure_setElementType (d : ElementId) {t : TypeId} (ht : Sound e t) :
    Secure e (setElementType d t) := by
  refine Ensures.modify fun c hc he => ?_
  let c' : Components :=
    { c with elements := c.elements.modify d.index ({ · with type? := some t }) }
  have hextent : c'.extent = c.extent := by simp [c', extent]
  have hadvances : Advances c c' := by
    refine ⟨by simp [c'], Nat.le_refl _, rfl, ?_⟩
    rintro d' ⟨decl, t', hdecl, ht'⟩
    by_cases hd : d.index = d'.index
    · exact ⟨{ decl with type? := some t }, t, by simp [c', Array.getElem?_modify, hd, hdecl], rfl⟩
    · exact ⟨decl, t', by simp [c', Array.getElem?_modify, hd, hdecl], ht'⟩
  refine ⟨⟨?_, hc.plain⟩, hadvances⟩
  change c'.SoundIn c'.extent
  rw [hextent]
  refine { hc.intact with elements := fun decl hdecl => ?_ }
  obtain ⟨i, hi, rfl⟩ := Array.mem_iff_getElem.1 hdecl
  rw [Array.size_modify] at hi
  have hold := hc.intact.elements c.elements[i] (Array.getElem_mem hi)
  rw [Array.getElem_modify]
  split
  · exact ⟨hold.1, sound_some (sound_mono he ht), hold.2.2⟩
  · exact hold

theorem typed_setElementType {d : ElementId} (hd : d.index < c.elements.size) (t : TypeId) :
    ((setElementType d t).run c).2.Typed d := by
  refine ⟨{ c.elements[d.index] with type? := some t }, t, ?_, rfl⟩
  change (c.elements.modify d.index ({ · with type? := some t }))[d.index]? = _
  rw [Array.getElem?_modify, if_pos rfl, Array.getElem?_eq_getElem hd, Option.map_some]

theorem secure_elementType? (room : Nat) (path : List ElementId) (d : ElementId) :
    Secure e (elementType? room path d) := by
  induction room generalizing e path d with
  | zero => exact .pure (α := Option TypeId) sound_none trivial
  | succ room ih =>
    rw [elementType?]
    refine (secure_element? d).bind fun e₁ _ decl? hdecl _ => ?_
    split
    · exact .pure (α := Option TypeId) sound_none trivial
    · next decl _ =>
      obtain ⟨href, htype, -⟩ := hdecl _ rfl
      split
      · exact .pure htype trivial
      · split
        · exact .pure (α := Option TypeId) sound_none trivial
        · extract_lets settle choose
          have hchoose {e' : Extent} (found? : Option TypeId) (hfound : Sound e' found?) :
              Secure e' (choose found?) := by
            have hsettle {e' : Extent} (t : TypeId) (ht : Sound e' t) : Secure e' (settle t) :=
              (secure_setElementType d ht).bind fun _ h _ _ _ =>
                .pure (sound_some (sound_mono h ht)) trivial
            cases found? with
            | none => exact (secure_builtinType _).bind fun _ _ t ht _ => hsettle t ht
            | some t => exact hsettle t (hfound t rfl)
          split
          · exact .get_bind fun _ _ _ => (Ensures.findSomeM? fun _ _ => ih _ _).bind
              fun _ _ found? hfound _ => hchoose found? hfound
          · exact (secure_typeOf? href _).bind fun _ _ found? hfound _ => hchoose found? hfound

/-- An element that nothing waits for has a type once it has been asked for it. -/
theorem typed_elementType? (hc : c.Settled) (room : Nat) {d : ElementId}
    (hd : d.index < c.elements.size) : ((elementType? (room + 1) [] d).run c).2.Typed d := by
  have hdecl : (element? d).run c = (some c.elements[d.index], c) :=
    congrArg (·, c) (Array.getElem?_eq_getElem hd)
  obtain ⟨href, htype, -⟩ := hc.intact.elements c.elements[d.index] (Array.getElem_mem hd)
  rw [elementType?, run_bind, hdecl]
  dsimp -zeta only
  split
  · next h =>
    obtain ⟨t, ht⟩ := Option.isSome_iff_exists.1 h
    exact ⟨_, t, Array.getElem?_eq_getElem hd, ht⟩
  · rw [if_neg List.not_mem_nil]
    extract_lets settle choose
    have hchoose (found? : Option TypeId) {c' : Components} (hadvances : Advances c c')
        (hc' : c'.Settled) : ((choose found?).run c').2.Typed d := by
      cases found? with
      | none =>
        obtain ⟨-, hadvances', -⟩ := secure_builtinType (e := c'.extent) Builtin.anyTypeName c' hc'
          (Extent.le_refl _)
        have hsize := hadvances'.elements.trans hadvances.elements
        exact typed_setElementType (hsize ▸ hd) _
      | some t => exact typed_setElementType (hadvances.elements ▸ hd) t
    split
    · obtain ⟨hsettled, hadvances, -⟩ :=
        Ensures.findSomeM? (fun d' _ => secure_elementType? (e := c.extent) room [d] d') c hc
          (Extent.le_refl _)
      exact hchoose _ hadvances hsettled
    · obtain ⟨hsettled, hadvances, -⟩ := secure_typeOf? href (.element c.elements[d.index].name) c hc
        (Extent.le_refl _)
      exact hchoose _ hadvances hsettled

theorem typed_forM_elementType? (room : Nat) (ds : List Nat) (hc : c.Settled)
    (hds : ∀ i ∈ ds, i < c.elements.size) :
    let c' := ((ds.forM fun i => do let _ ← elementType? (room + 1) [] ⟨i⟩).run c).2
    c'.Settled ∧ Advances c c' ∧ ∀ i ∈ ds, c'.Typed ⟨i⟩ := by
  induction ds generalizing c with
  | nil => exact ⟨hc, .refl c, nofun⟩
  | cons i ds ih =>
    rw [List.forall_mem_cons] at hds
    obtain ⟨hsettled, hadvances, -⟩ := secure_elementType? (e := c.extent) (room + 1) [] ⟨i⟩ c hc
      (Extent.le_refl _)
    obtain ⟨hsettled', hadvances', htyped⟩ := ih hsettled fun j hj => hadvances.elements ▸ hds.2 j hj
    exact ⟨hsettled', hadvances.trans hadvances', List.forall_mem_cons.2
      ⟨hadvances'.typed _ (typed_elementType? hc room hds.1), htyped⟩⟩

/-! ### Everything -/

theorem withoutIdleGroup_spec {d : TypeDef} (hd : Sound e d) (hplain : d.Plain) :
    Sound e (withoutIdleGroup d) ∧ (withoutIdleGroup d).Plain := by
  cases d with
  | simple st => exact ⟨hd, hplain⟩
  | complex ct =>
    rw [withoutIdleGroup]
    split
    · split
      · exact ⟨⟨trivial, hd.2⟩, TypeDef.plain_complex.2 nofun⟩
      · exact ⟨hd, hplain⟩
    · exact ⟨hd, hplain⟩

theorem secure_withoutIdleGroup :
    Secure e (modify fun c => { c with types := c.types.map withoutIdleGroup }) := by
  refine Ensures.modify fun c hc _ => ?_
  let c' : Components := { c with types := c.types.map withoutIdleGroup }
  have hextent : c'.extent = c.extent := by simp [c', extent]
  have hspec (d : TypeDef) (hd : d ∈ c'.types) : Sound c.extent d ∧ d.Plain := by
    obtain ⟨d', hd', rfl⟩ := Array.mem_map.1 hd
    exact withoutIdleGroup_spec (hc.intact.types d' hd') (hc.plain d' hd')
  refine ⟨⟨?_, fun d hd => (hspec d hd).2⟩, ⟨rfl, by simp, rfl, fun _ h => h⟩⟩
  change c'.SoundIn c'.extent
  rw [hextent]
  exact { hc.intact with types := fun d hd => (hspec d hd).1 }

theorem spec_typeElements (hc : c.Settled) :
    (typeElements.run c).2.Settled ∧ Advances c (typeElements.run c).2 ∧
      ∀ d : ElementId, d.index < c.elements.size → (typeElements.run c).2.Typed d := by
  obtain ⟨hsettled, hadvances, htyped⟩ := typed_forM_elementType? c.elements.size
    (List.range c.elements.size) hc fun i hi => List.mem_range.1 hi
  exact ⟨hsettled, hadvances, fun d hd => htyped d.index (List.mem_range.2 hd)⟩

theorem resolve_eq : resolve = expandTypes >>= fun _ => (resolveBases >>= fun _ => deriveTypes) >>=
    fun _ => typeElements >>= fun _ =>
      (modify fun c => { c with types := c.types.map withoutIdleGroup }) >>= fun _ =>
        (get : Building Components) >>= fun c => c.headFaults.forM report := rfl

/-- **Looking everything up leaves components without dangling references.**  Nothing is taken away,
no reference by name is left in a model group, and every element has a type. -/
theorem settled_resolve (hc : c.Intact) :
    (resolve.run c).2.Settled ∧ Advances c (resolve.run c).2 ∧
      ∀ d : ElementId, d.index < c.elements.size → (resolve.run c).2.Typed d := by
  have hexpand := settled_expandTypes hc
  have hexpanded : Advances c (expandTypes.run c).2 := by
    refine ⟨rfl, Nat.le_of_eq ?_, rfl, fun _ h => h⟩
    change _ = ((c.types.map c.expandType).map (·.1)).size
    rw [Array.size_map, Array.size_map]
  have hderive : Secure c.extent (resolveBases >>= fun _ => deriveTypes) :=
    secure_resolveBases.bind fun _ _ _ _ _ => secure_deriveTypes
  obtain ⟨hderived, hadvances, -⟩ := hderive _ hexpand hexpanded.extent_le
  have hbefore := hexpanded.trans hadvances
  obtain ⟨htyped, hadvances', hall⟩ := spec_typeElements hderived
  have hrest : Secure c.extent ((modify fun c => { c with types := c.types.map withoutIdleGroup }) >>=
      fun _ => (get : Building Components) >>= fun c => c.headFaults.forM report) :=
    secure_withoutIdleGroup.bind fun _ _ _ _ _ => .get_bind fun _ _ _ =>
      .forM fun f _ => secure_report f
  have hafter := hbefore.trans hadvances'
  obtain ⟨hsettled, hlast, -⟩ := hrest _ htyped hafter.extent_le
  rw [resolve_eq, run_bind expandTypes, run_bind (resolveBases >>= _), run_bind typeElements]
  refine ⟨hsettled, hafter.trans hlast, fun d hd => hlast.typed d ?_⟩
  exact hall d (hbefore.elements ▸ hd)

end Components
end SchemaAssist
