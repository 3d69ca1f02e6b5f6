/-
# Resolving rearranged components

Rearranged components stay rearranged when everything in them is looked up
(`Components.exists_rearranged_resolve`), as long as neither types nor elements lead back to
themselves.  Expansion does the same to both.  The built-in types may be called for in another
order, so that they stand at other places behind those of the documents (`Renaming.withBuiltins`);
but for that, every type comes to the same, and every element gets the same type.
-/

import SchemaAssist.Proofs.Transport

namespace SchemaAssist

open Referring (rename rename_append rename_congr rename_toList)
open Relation (TransGen)

/-! ### Expansion -/

section Expansion

variable {ρ : Renaming}

theorem ModelGroup.unwrap_eq_self {g : ModelGroup}
    (h : ∀ c ps o, g ≠ ⟨.sequence, [.group c ps o], .once⟩) : g.unwrap = g := by
  rw [unwrap.eq_def]
  split
  · exact absurd rfl (h _ _ _)
  · rfl

theorem ModelGroup.rename_unwrap (g : ModelGroup) : (rename ρ g).unwrap = rename ρ g.unwrap := by
  by_cases h : ∃ c ps o, g = ⟨.sequence, [.group c ps o], .once⟩
  · obtain ⟨c, ps, o, rfl⟩ := h
    change unwrap ⟨.sequence, [(Particle.group c ps o).renamed ρ], .once⟩ = _
    rw [Particle.renamed_group]
    rfl
  · have hne (c : Compositor) (ps : List Particle) (o : Occurs) :
        rename ρ g ≠ ⟨.sequence, [.group c ps o], .once⟩ := by
      intro heq
      obtain ⟨c', ps', o'⟩ := g
      obtain ⟨rfl, hps, rfl⟩ := ModelGroup.mk.inj heq
      obtain ⟨p, rfl, hp⟩ := List.map_eq_singleton_iff.1 hps
      cases p with
      | group c' ps' o' => exact h ⟨c', ps', o', rfl⟩
      | _ => cases hp
    rw [unwrap_eq_self hne, unwrap_eq_self fun c ps o heq => h ⟨c, ps, o, heq⟩]

/-- Particles that are replaced one by one, with what is wrong with them. -/
theorem rename_collected {f f' : Particle → Option Particle × List Fault} {ps : List Particle}
    (h : ∀ p, f' (rename ρ p) = Prod.map (rename ρ) id (f p)) :
    (((rename ρ ps).map f').filterMap (·.1), ((rename ρ ps).map f').flatMap (·.2)) =
      Prod.map (rename ρ) id ((ps.map f).filterMap (·.1), (ps.map f).flatMap (·.2)) := by
  have hparticle (p : Particle) : (f' (rename ρ p)).1 = (f p).1.map (rename ρ) := by
    rw [h]
    rfl
  have hfaults (p : Particle) : (f' (rename ρ p)).2 = (f p).2 := by
    rw [h]
    rfl
  refine Prod.ext ?_ ?_
  · change ((ps.map (rename ρ)).map f').filterMap _ = ((ps.map f).filterMap _).map (rename ρ)
    rw [List.map_filterMap, List.filterMap_map, List.filterMap_map, List.filterMap_map]
    exact List.filterMap_congr fun p _ => hparticle p
  · change ((ps.map (rename ρ)).map f').flatMap _ = (ps.map f).flatMap _
    rw [List.flatMap_map, List.flatMap_map, List.flatMap_map]
    exact List.flatMap_congr fun p _ => hfaults p

/-- A group of particles that have been replaced, with what is wrong with them. -/
theorem rename_grouped {k : Compositor} {o : Occurs} {x x' : List Particle × List Fault}
    (h : x' = Prod.map (rename ρ) id x) : ((some (.group k x'.1 o), x'.2) : Option Particle × _) =
      Prod.map (rename ρ) id (some (.group k x.1 o), x.2) := by
  rw [h]
  exact congrArg (fun p => (some p, x.2)) (Particle.renamed_group ρ k x.1 o).symm

end Expansion

/-! ### What stands in a group -/

section Groups

variable {ρ : Renaming}

theorem Particle.elements_renamed (p : Particle) :
    (p.renamed ρ).elements = p.elements.map ρ.element := by
  induction p using Particle.induct with
  | group c ps o ih =>
    rw [renamed_group, elements, elements, elementsOf_eq, elementsOf_eq, List.flatMap_map,
      List.map_flatMap]
    exact List.flatMap_congr ih
  | _ => rfl

theorem Particle.wildcards_renamed (p : Particle) : (p.renamed ρ).wildcards = p.wildcards := by
  induction p using Particle.induct with
  | group c ps o ih =>
    rw [renamed_group, wildcards, wildcards, wildcardsOf_eq, wildcardsOf_eq, List.flatMap_map]
    exact List.flatMap_congr ih
  | _ => rfl

theorem ModelGroup.toParticle_rename (g : ModelGroup) :
    (rename ρ g).toParticle = g.toParticle.renamed ρ :=
  (Particle.renamed_group ρ g.compositor g.particles g.occurs).symm

theorem ModelGroup.mem_elements_rename {g : ModelGroup} {d : ElementId} :
    d ∈ (rename ρ g).elements ↔ ∃ d' ∈ g.elements, ρ.element d' = d := by
  simp only [elements, mem_distinct, toParticle_rename, Particle.elements_renamed, List.mem_map]

theorem ModelGroup.isEmpty_elements_rename (g : ModelGroup) :
    (rename ρ g).elements.isEmpty = g.elements.isEmpty := by
  rw [Bool.eq_iff_iff, List.isEmpty_iff, List.isEmpty_iff, List.eq_nil_iff_forall_not_mem,
    List.eq_nil_iff_forall_not_mem]
  simp [mem_elements_rename]

theorem ModelGroup.wildcards_rename (g : ModelGroup) : (rename ρ g).wildcards = g.wildcards := by
  rw [wildcards, toParticle_rename, Particle.wildcards_renamed]
  rfl

end Groups

namespace Components

variable {c c' : Components} {ρ σ : Renaming} {keys keys' : List String}

namespace Rearranged

theorem expandParticles (h : Rearranged ρ c c') (room : Nat) (around : List Name)
    (ps : List Particle) : c'.expandParticles room around (rename ρ ps) =
      Prod.map (rename ρ) id (c.expandParticles room around ps) := by
  induction room generalizing around ps with
  | zero =>
    rw [Components.expandParticles, Components.expandParticles, h.limits]
    rfl
  | succ room ih =>
    rw [Components.expandParticles, Components.expandParticles]
    refine rename_collected fun p => ?_
    cases p with
    | element d o => rfl
    | any w => rfl
    | group k qs o =>
      have hqs : c'.expandParticles room around (Particle.renamedAll ρ qs) = _ :=
        (congrArg _ (Particle.renamedAll_eq ρ qs)).trans (ih around qs)
      exact rename_grouped hqs
    | elementRef n o =>
      dsimp only [rename, Particle.renamed]
      rw [h.globalElements]
      cases c.globalElements.find? n <;> rfl
    | groupRef n o =>
      dsimp only [rename, Particle.renamed]
      split
      · rfl
      · rw [h.groups]
        cases c.groups.find? n with
        | none => rfl
        | some g =>
          exact rename_grouped (ih (n :: around) g.particles)

theorem expandType (h : Rearranged ρ c c') (d : TypeDef) :
    c'.expandType (rename ρ d) = Prod.map (rename ρ) id (c.expandType d) := by
  cases d with
  | simple st => rfl
  | complex ct =>
    obtain ⟨name?, content, mixed, attributes, groups, derivation?, isAbstract, documentation?⟩ := ct
    cases content with
    | empty => rfl
    | simple t => rfl
    | group g =>
      have hps : c'.expandParticles c'.limits.modelDepth [] (rename ρ g.particles) = _ :=
        h.expandParticles _ _ _
      have hgroup : (c'.expandGroup (rename ρ g)).1 = rename ρ (c.expandGroup g).1 := by
        rw [expandGroup, expandGroup]
        change (⟨g.compositor, (c'.expandParticles _ _ (rename ρ g.particles)).1, g.occurs⟩ :
          ModelGroup) = _
        rw [hps, h.limits]
        rfl
      have hfaults : (c'.expandGroup (rename ρ g)).2 = (c.expandGroup g).2 := by
        change (c'.expandParticles _ _ (rename ρ g.particles)).2 = _
        rw [hps, h.limits]
        rfl
      change ((.complex ⟨name?, .group (c'.expandGroup (rename ρ g)).1.unwrap, mixed,
        rename ρ attributes, groups, derivation?, isAbstract, documentation?⟩,
        (c'.expandGroup (rename ρ g)).2) : TypeDef × List Fault) = _
      rw [hgroup, hfaults, ModelGroup.rename_unwrap]
      rfl

/-- Rearranged components stay so when their model groups are expanded. -/
theorem expandTypes (h : Rearranged ρ c c') :
    Rearranged ρ (expandTypes.run c).2 (expandTypes.run c').2 := by
  have hextent (c : Components) : (Components.expandTypes.run c).2.extent = c.extent := by
    rw [Components.extent, Components.extent, types_expandTypes, Array.size_map]
    rfl
  have hproblems (c : Components) : (Components.expandTypes.run c).2.problems.toList =
      c.problems.toList ++ (c.types.toList.flatMap fun d => (c.expandType d).2).map
        Fault.problem := by
    change (c.problems ++ (((c.types.map c.expandType).toList.flatMap (·.2)).map
      Fault.problem)).toList = _
    rw [Array.toList_map, List.flatMap_map]
    simp
  exact {
    h with
    shuffles := (hextent c).symm ▸ h.shuffles
    extent := by rw [hextent, hextent, h.extent]
    types := fun t => by
      rw [types_expandTypes, types_expandTypes, Array.getElem?_map, Array.getElem?_map, h.types]
      cases c.types[t.index]? with
      | none => rfl
      | some d => exact congrArg (fun r => some (Prod.fst r)) (h.expandType d)
    problems := by
      rw [hproblems, hproblems]
      exact h.problems.append ((h.flatMap_types_perm fun d _ =>
        congrArg Prod.snd (h.expandType d)).map _) }

end Rearranged

end Components

/-! ### The places of built-in types -/

/-- Built-in types that stand behind `start` types in one order are to stand there in another. -/
def Renaming.withBuiltins (ρ : Renaming) (start : Nat) (keys keys' : List String) : Renaming :=
  { ρ with
    type := fun t =>
      if t.index < start then ρ.type t
      else match keys[t.index - start]? with
        | some k => ⟨start + keys'.idxOf k⟩
        | none => t }

namespace Renaming

variable {ρ : Renaming} {e : Extent} {start : Nat} {keys keys' : List String}

theorem withBuiltins_agreesOn (he : e.types ≤ start) :
    AgreesOn e (ρ.withBuiltins start keys keys') ρ where
  element _ _ := rfl
  type _ ht := if_pos (Nat.lt_of_lt_of_le ht he)
  document _ _ := rfl

theorem withBuiltins_builtin {k : String} (hk : k ∈ keys) :
    (ρ.withBuiltins start keys keys').type ⟨start + keys.idxOf k⟩ =
      ⟨start + keys'.idxOf k⟩ := by
  have hlt := List.idxOf_lt_length_of_mem hk
  have hge : ¬ start + keys.idxOf k < start := by omega
  change (if start + keys.idxOf k < start then _ else
    match keys[start + keys.idxOf k - start]? with | some k => _ | none => _) = _
  rw [if_neg hge, Nat.add_sub_cancel_left, List.getElem?_eq_getElem hlt, List.getElem_idxOf hlt]

/-- A type behind `start` ones is built in, if it is not behind the built-in ones as well. -/
theorem exists_builtin_or_ge (keys : List String) (hnodup : keys.Nodup) {t : TypeId}
    (ht : start ≤ t.index) :
    (∃ k ∈ keys, t = ⟨start + keys.idxOf k⟩) ∨ start + keys.length ≤ t.index := by
  by_cases hlt : t.index - start < keys.length
  · refine Or.inl ⟨keys[t.index - start], List.getElem_mem hlt, ?_⟩
    rw [hnodup.idxOf_getElem, Nat.add_sub_cancel' ht]
  · exact Or.inr (by omega)

theorem withBuiltins_fix {t : TypeId} (ht : start + keys.length ≤ t.index) :
    (ρ.withBuiltins start keys keys').type t = t := by
  have hge : ¬ t.index < start := by omega
  have hnone : keys[t.index - start]? = none := List.getElem?_eq_none (by omega)
  change (if t.index < start then _ else
    match keys[t.index - start]? with | some k => _ | none => _) = _
  rw [if_neg hge, hnone]

theorem withBuiltins_shuffles (hρ : ρ.Shuffles e) (hnodup : keys.Nodup)
    (hperm : keys'.Perm keys) : (ρ.withBuiltins e.types keys keys').Shuffles
      ⟨e.elements, e.types + keys.length, e.documents⟩ := by
  have hlength := hperm.length_eq
  have hplace {k : String} (hk : k ∈ keys) : keys'.idxOf k < keys.length :=
    hlength ▸ List.idxOf_lt_length_of_mem (hperm.mem_iff.2 hk)
  let σ := ρ.withBuiltins e.types keys keys'
  -- each of the three kinds of types keeps to its range
  have hcases (t : TypeId) :
      (σ.type t = ρ.type t ∧ (σ.type t).index < e.types) ∨
      (∃ k ∈ keys, t = ⟨e.types + keys.idxOf k⟩ ∧
        (σ.type t).index = e.types + keys'.idxOf k) ∨
      (σ.type t = t ∧ e.types + keys.length ≤ (σ.type t).index) := by
    by_cases ht : t.index < e.types
    · have hσ : σ.type t = ρ.type t := if_pos ht
      exact Or.inl ⟨hσ, hσ ▸ hρ.type_lt ht⟩
    · rcases exists_builtin_or_ge keys hnodup (Nat.le_of_not_lt ht) with ⟨k, hk, rfl⟩ | hge
      · exact Or.inr (Or.inl ⟨k, hk, rfl, congrArg TypeId.index (withBuiltins_builtin hk)⟩)
      · have hσ : σ.type t = t := withBuiltins_fix hge
        exact Or.inr (Or.inr ⟨hσ, hσ.symm ▸ hge⟩)
  refine ⟨hρ.element_inj, fun t t' heq => ?_, hρ.document_inj, hρ.element_fix,
    fun t ht => withBuiltins_fix ht, hρ.document_fix⟩
  change σ.type t = σ.type t' at heq
  have hindex := congrArg TypeId.index heq
  rcases hcases t with ⟨hσ, hlt⟩ | ⟨k, hk, rfl, hσ⟩ | ⟨hσ, hge⟩
  · rcases hcases t' with ⟨hσ', hlt'⟩ | ⟨k', hk', rfl, hσ'⟩ | ⟨hσ', hge'⟩
    · exact hρ.type_inj _ _ (hσ.symm.trans (heq.trans hσ'))
    · omega
    · omega
  · have hlt := hplace hk
    rcases hcases t' with ⟨hσ', hlt'⟩ | ⟨k', hk', rfl, hσ'⟩ | ⟨hσ', hge'⟩
    · omega
    · have hsame : keys'.idxOf k = keys'.idxOf k' := by omega
      rw [(List.idxOf_inj (hperm.mem_iff.2 hk)).1 hsame]
    · omega
  · rcases hcases t' with ⟨hσ', hlt'⟩ | ⟨k', hk', rfl, hσ'⟩ | ⟨hσ', hge'⟩
    · omega
    · have hlt' := hplace hk'
      omega
    · exact hσ.symm.trans (heq.trans hσ')

end Renaming

/-! ### The same derivations -/

section Derivation

variable {ρ : Renaming}

theorem rename_definition (k : String) :
    rename ρ (Builtin.definition k) = Builtin.definition k := by
  rw [Builtin.definition]
  split <;> rfl

theorem Content.rename_extend (version : Version) (base own : Content) :
    (rename ρ base).extend version (rename ρ own) = rename ρ (base.extend version own) := by
  cases base with
  | empty => cases own <;> rfl
  | simple t => rfl
  | group g =>
    cases own with
    | empty => rfl
    | simple t => rfl
    | group g' =>
      change (if version = .v11 ∧ g.compositor = .all ∧ g'.compositor = .all then
        Content.group ⟨g.compositor, rename ρ g.particles ++ rename ρ g'.particles, g.occurs⟩
        else .group ⟨.sequence, [.group g.compositor (rename ρ g.particles) g.occurs,
          .group g'.compositor (rename ρ g'.particles) g'.occurs], .once⟩) = _
      rw [extend]
      split
      · rw [← rename_append]
        rfl
      · change _ = Content.group ⟨.sequence, [g.toParticle.renamed ρ, g'.toParticle.renamed ρ], .once⟩
        rw [ModelGroup.toParticle, ModelGroup.toParticle, Particle.renamed_group,
          Particle.renamed_group]
        rfl

theorem Content.isUntyped_rename (content : Content) :
    (rename ρ content).isUntyped = content.isUntyped := by
  cases content with
  | simple t => cases t <;> rfl
  | _ => rfl

theorem ComplexType.rename_derive (version : Version) (ct : ComplexType) (method : Derivation)
    (t : TypeId) (d : TypeDef) : (rename ρ ct).derive version method (rename ρ t) (rename ρ d) =
      rename ρ (ct.derive version method t d) := by
  have huntyped : (rename ρ ct).content.isUntyped = ct.content.isUntyped :=
    ct.content.isUntyped_rename
  cases d with
  | simple st =>
    change (if (rename ρ ct).content.isUntyped then _ else _) = rename ρ (if _ then _ else _)
    rw [huntyped]
    split <;> rfl
  | complex base =>
    cases method with
    | extension =>
      change ({ rename ρ ct with
        attributes := mergeAttributes (rename ρ base.attributes) (rename ρ ct.attributes)
        content := (rename ρ base.content).extend version (rename ρ ct.content)
        mixed := ct.mixed || base.mixed } : ComplexType) = _
      rw [rename_mergeAttributes, Content.rename_extend]
      rfl
    | restriction =>
      change ({ rename ρ ct with
        attributes := mergeAttributes (rename ρ base.attributes) (rename ρ ct.attributes)
        content := if (rename ρ ct).content.isUntyped then rename ρ base.content
          else rename ρ ct.content } : ComplexType) = _
      rw [rename_mergeAttributes, huntyped, ← apply_ite (rename ρ)]
      rfl

theorem ComplexType.rename_pruned (ct : ComplexType) :
    (rename ρ ct).pruned = rename ρ ct.pruned := by
  have huses : (rename ρ ct.attributes).filter (!·.prohibited) =
      rename ρ (ct.attributes.filter (!·.prohibited)) := List.filter_map
  exact congrArg (fun uses => ({ rename ρ ct with attributes := uses } : ComplexType)) huses

end Derivation

namespace Components

variable {c c' : Components} {ρ σ : Renaming} {keys keys' : List String}

/-- What components hold is found in others under other identifiers, that of a built-in type included
as far as it has been called for. -/
structure Matched (σ : Renaming) (keys keys' : List String) (c c' : Components) : Prop where
  alike : Alike σ c c'
  types : ∀ (t : TypeId) d, c.types[t.index]? = some d →
    c'.types[(σ.type t).index]? = some (rename σ d)
  elements : ∀ (d : ElementId) e, c.elements[d.index]? = some e →
    c'.elements[(σ.element d).index]? = some (rename σ e)
  subset : keys ⊆ keys'
  builtin : ∀ k ∈ keys, σ.type (c.builtinId keys k) = c'.builtinId keys' k

namespace Matched

variable {n : Name} {t : TypeId} {t? : Option TypeId} {ref : TypeRef} {a b : AttributeUse}
  {d d' : TypeDef}

theorem named (h : Matched σ keys keys' c c') (hn : Named c keys n t?) :
    Named c' keys' n (rename σ t?) := by
  have hfind := h.alike.globalTypes n
  cases hn with
  | global hn =>
    rw [hn] at hfind
    exact .global hfind
  | builtin hn hbuiltin hk =>
    rw [hn] at hfind
    have hid : rename σ (some (c.builtinId keys n.localName)) =
        some (c'.builtinId keys' n.localName) := congrArg some (h.builtin _ hk)
    rw [hid]
    exact .builtin hfind hbuiltin (h.subset hk)
  | unknown hn hbuiltin =>
    rw [hn] at hfind
    exact .unknown hfind hbuiltin

theorem referred (h : Matched σ keys keys' c c') (href : Referred c keys ref t?) :
    Referred c' keys' (rename σ ref) (rename σ t?) := by
  cases href with
  | unspecified => exact .unspecified
  | definition t => exact .definition _
  | named hn => exact .named (h.named hn)

theorem used (h : Matched σ keys keys' c c') (hused : Used c keys a b) :
    Used c' keys' (rename σ a) (rename σ b) := by
  obtain ⟨t?, ht, rfl⟩ := hused
  refine ⟨rename σ t?, ?_, ?_⟩
  · rw [h.alike.dereferenced]
    exact h.referred ht
  · rw [h.alike.dereferenced]
    rfl

theorem attributed (h : Matched σ keys keys' c c') {ct : ComplexType} {uses : List AttributeUse}
    (huses : Attributed c keys ct uses) : Attributed c' keys' (rename σ ct) (rename σ uses) := by
  have hlookUp : c'.usesToLookUp (rename σ ct).attributes (rename σ ct).attributeGroups =
      (c.usesToLookUp ct.attributes ct.attributeGroups).map (rename σ) :=
    h.alike.usesToLookUp _ _
  rw [Attributed, hlookUp]
  exact List.forall₂_map_left_iff.2 (List.forall₂_map_right_iff.2 (huses.imp fun _ _ => h.used))

theorem based (h : Matched σ keys keys' c c') (hbased : Based c keys d d') :
    Based c' keys' (rename σ d) (rename σ d') := by
  cases d with
  | complex ct => exact congrArg (rename σ) hbased
  | simple st =>
    rw [Based] at hbased
    change if st.builtin then _ else _
    split
    · next hb =>
      rw [if_pos hb] at hbased
      exact congrArg (rename σ) hbased
    · next hb =>
      rw [if_neg hb] at hbased
      obtain ⟨b?, hbase, rfl⟩ := hbased
      exact ⟨rename σ b?, h.referred hbase, rfl⟩

/-- **A type comes to the same under other identifiers.** -/
theorem derived (h : Matched σ keys keys' c c') (hderived : Derived c keys t d) :
    Derived c' keys' (σ.type t) (rename σ d) := by
  induction hderived with
  | simple ht hd => exact .simple (h.types _ _ ht) (h.based hd)
  | @alone t ct uses ht huses hbase =>
    have hct : rename σ (TypeDef.complex (ct.withUses uses).pruned) =
        .complex ((rename σ ct).withUses (rename σ uses)).pruned :=
      congrArg TypeDef.complex (ComplexType.rename_pruned (ct.withUses uses)).symm
    rw [hct]
    exact .alone (h.types _ _ ht) (h.attributed huses) fun method base hderivation =>
      h.named (hbase method base hderivation)
  | @derived t u ct uses method base d ht huses hderivation hbase _ ih =>
    have hct : rename σ (TypeDef.complex ((ct.withUses uses).derive c.version method u d).pruned) =
        .complex (((rename σ ct).withUses (rename σ uses)).derive c'.version method (σ.type u)
          (rename σ d)).pruned := by
      rw [h.alike.version]
      refine congrArg TypeDef.complex ((ComplexType.rename_pruned _).symm.trans ?_)
      exact congrArg ComplexType.pruned (ComplexType.rename_derive ..).symm
    rw [hct]
    exact .derived (h.types _ _ ht) (h.attributed huses) hderivation (h.named hbase) ih
  | @builtin k hk =>
    rw [h.builtin k hk, rename_definition]
    exact .builtin (h.subset hk)

/-- **An element gets the same type under other identifiers.** -/
theorem typedAs (h : Matched σ keys keys' c c') {d : ElementId} (htyped : TypedAs c keys d t) :
    TypedAs c' keys' (σ.element d) (σ.type t) := by
  induction htyped with
  | @given d e t he ht =>
    exact .given (h.elements _ _ he) (congrArg (rename σ) ht)
  | @referred d e t he ht hne href =>
    refine .referred (h.elements _ _ he) (congrArg (rename σ) ht) (fun heq => hne ?_)
      (h.referred href)
    change rename σ e.typeRef = _ at heq
    cases hr : e.typeRef with
    | unspecified => rfl
    | _ =>
      rw [hr] at heq
      cases heq
  | @led d head e t heads he ht href hheads _ ih =>
    have hheads' : c'.headsOf (rename σ e) = σ.element head :: heads.map σ.element := by
      rw [h.alike.headsOf, hheads, List.map_cons]
    exact .led (h.elements _ _ he) (congrArg (rename σ) ht) (congrArg (rename σ) href) hheads' ih
  | @untyped d e he ht huntyped hk =>
    rw [h.builtin _ hk]
    refine .untyped (h.elements _ _ he) (congrArg (rename σ) ht) ?_ (h.subset hk)
    rw [h.alike.isUntyped, huntyped]

end Matched

/-! ### One type for each element -/

theorem isUntyped_of_referred {e : ElementDecl} {t : TypeId} (hne : e.typeRef ≠ .unspecified)
    (h : Referred c keys e.typeRef (some t)) : c.isUntyped e = false := by
  rw [isUntyped]
  generalize e.typeRef = ref at h hne
  cases h with
  | definition t => rfl
  | named hn =>
    have hknown := hn.isSome
    dsimp only
    rw [← hknown]
    rfl

theorem isUntyped_of_led {e : ElementDecl} {head : ElementId} {heads : List ElementId}
    (href : e.typeRef = .unspecified) (hheads : c.headsOf e = head :: heads) :
    c.isUntyped e = false := by
  rw [isUntyped, href, hheads]
  rfl

/-- **An element gets one type only.** -/
theorem TypedAs.unique {d d' : ElementId} {t t' : TypeId} (h : TypedAs c keys d t)
    (h' : TypedAs c keys d' t') (hd : d = d') : t = t' := by
  induction h generalizing d' t' with
  | given he ht =>
    subst hd
    cases h' with
    | given he' ht' =>
      cases he.symm.trans he'
      exact Option.some.inj (ht.symm.trans ht')
    | referred he' ht' | led he' ht' | untyped he' ht' =>
      cases he.symm.trans he'
      cases ht.symm.trans ht'
  | referred he ht hne href =>
    subst hd
    cases h' with
    | given he' ht' =>
      cases he.symm.trans he'
      cases ht.symm.trans ht'
    | referred he' _ _ href' =>
      cases he.symm.trans he'
      exact Option.some.inj (href.unique href')
    | led he' _ href' =>
      cases he.symm.trans he'
      exact absurd href' hne
    | untyped he' _ huntyped =>
      cases he.symm.trans he'
      rw [isUntyped_of_referred hne href] at huntyped
      cases huntyped
  | led he ht href hheads _ ih =>
    subst hd
    cases h' with
    | given he' ht' =>
      cases he.symm.trans he'
      cases ht.symm.trans ht'
    | referred he' _ hne =>
      cases he.symm.trans he'
      exact absurd href hne
    | led he' _ _ hheads' htyped =>
      cases he.symm.trans he'
      exact ih htyped (List.cons.inj (hheads.symm.trans hheads')).1
    | untyped he' _ huntyped =>
      cases he.symm.trans he'
      rw [isUntyped_of_led href hheads] at huntyped
      cases huntyped
  | untyped he ht huntyped =>
    subst hd
    cases h' with
    | given he' ht' =>
      cases he.symm.trans he'
      cases ht.symm.trans ht'
    | referred he' _ hne href =>
      cases he.symm.trans he'
      rw [isUntyped_of_referred hne href] at huntyped
      cases huntyped
    | led he' _ href hheads =>
      cases he.symm.trans he'
      rw [isUntyped_of_led href hheads] at huntyped
      cases huntyped
    | untyped => rfl

/-! ### Everything looked up -/

theorem rename_withoutIdleGroup (d : TypeDef) :
    withoutIdleGroup (rename ρ d) = rename ρ (withoutIdleGroup d) := by
  cases d with
  | simple st => rfl
  | complex ct =>
    obtain ⟨name?, content, mixed, attributes, groups, derivation?, isAbstract, documentation?⟩ := ct
    cases content with
    | empty => rfl
    | simple t => rfl
    | group g =>
      have hidle : ((rename ρ g).elements.isEmpty && (rename ρ g).wildcards.isEmpty) =
          (g.elements.isEmpty && g.wildcards.isEmpty) := by
        rw [ModelGroup.isEmpty_elements_rename, ModelGroup.wildcards_rename]
      change (if (rename ρ g).elements.isEmpty && (rename ρ g).wildcards.isEmpty then _ else _) =
        rename ρ (if g.elements.isEmpty && g.wildcards.isEmpty then _ else _)
      rw [hidle]
      split <;> rfl

namespace Rearranged

variable {r r' : Components}

/-- The same built-in types have been called for, perhaps in another order. -/
theorem keys_perm (h : Rearranged ρ c c') (hr : Resolved c keys r) (hr' : Resolved c' keys' r') :
    keys'.Perm keys :=
  (List.perm_ext_iff_of_nodup hr'.nodup hr.nodup).2 fun k => by
    rw [hr'.mem_keys, hr.mem_keys, h.calls_perm.mem_iff]

theorem typeCount (h : Rearranged ρ c c') : c'.types.size = c.types.size :=
  congrArg Extent.types h.extent

theorem matched (h : Rearranged ρ c c') (hc : c.Intact) (hperm : keys'.Perm keys) :
    Matched (ρ.withBuiltins c.types.size keys keys') keys keys' c c' := by
  have hagree : Renaming.AgreesOn c.extent (ρ.withBuiltins c.types.size keys keys') ρ :=
    Renaming.withBuiltins_agreesOn (Nat.le_refl _)
  exact {
    alike := h.alike.congr hc hagree
    types := fun t d ht => by
      rw [hagree.type t (Array.getElem?_eq_some_iff.1 ht).1, h.types, ht,
        rename_congr hagree (hc.types d (Array.mem_of_getElem? ht))]
      rfl
    elements := fun d e he => by
      rw [hagree.element d (Array.getElem?_eq_some_iff.1 he).1, h.elements, he,
        rename_congr hagree (hc.elements e (Array.mem_of_getElem? he))]
      rfl
    subset := hperm.symm.subset
    builtin := fun k hk => by
      rw [builtinId, builtinId, h.typeCount]
      exact Renaming.withBuiltins_builtin hk }

end Rearranged

namespace Matched

variable {r r' : Components}

/-- The type of a document in the end, under another identifier. -/
theorem resolved_type (h : Matched σ keys keys' c c') (hr : Resolved c keys r)
    (hr' : Resolved c' keys' r') {t : TypeId} {d : TypeDef} (ht : c.types[t.index]? = some d) :
    r'.types[(σ.type t).index]? = rename σ r.types[t.index]? := by
  obtain ⟨d₁, hd₁, hderived⟩ := hr.types t d ht
  obtain ⟨d₂, hd₂, hderived'⟩ := hr'.types (σ.type t) _ (h.types t d ht)
  rw [hd₁, hd₂, hderived'.unique (h.derived hderived) rfl, rename_withoutIdleGroup]
  rfl

/-- A built-in type in the end, under another identifier. -/
theorem resolved_builtin (h : Matched σ keys keys' c c') (hr : Resolved c keys r)
    (hr' : Resolved c' keys' r') {k : String} (hk : k ∈ keys) :
    r'.types[(σ.type (c.builtinId keys k)).index]? =
      rename σ r.types[(c.builtinId keys k).index]? := by
  rw [h.builtin k hk, hr.builtins k hk, hr'.builtins k (h.subset hk)]
  exact congrArg some (rename_definition k).symm

/-- Any type in the end, under another identifier. -/
theorem resolved_types (h : Matched σ keys keys' c c') (hr : Resolved c keys r)
    (hr' : Resolved c' keys' r') (hσ : σ.Shuffles r.extent) (hsize : r'.types.size = r.types.size)
    (t : TypeId) : r'.types[(σ.type t).index]? = rename σ r.types[t.index]? := by
  cases ht : c.types[t.index]? with
  | some d => exact h.resolved_type hr hr' ht
  | none =>
    rcases Renaming.exists_builtin_or_ge keys hr.nodup (Array.getElem?_eq_none_iff.1 ht) with
      ⟨k, hk, rfl⟩ | hge
    · exact h.resolved_builtin hr hr' hk
    · have hbehind : r.types.size ≤ t.index := hr.typeCount.trans_le hge
      rw [hσ.type_fix t hbehind, Array.getElem?_eq_none hbehind,
        Array.getElem?_eq_none (hsize.trans_le hbehind)]
      rfl

/-- An element in the end, under another identifier. -/
theorem resolved_element (h : Matched σ keys keys' c c') (hr : Resolved c keys r)
    (hr' : Resolved c' keys' r') {d : ElementId} {e : ElementDecl}
    (he : c.elements[d.index]? = some e) :
    r'.elements[(σ.element d).index]? = rename σ r.elements[d.index]? := by
  obtain ⟨t, ht, htyped⟩ := hr.elements d e he
  obtain ⟨t', ht', htyped'⟩ := hr'.elements (σ.element d) _ (h.elements d e he)
  rw [ht, ht', htyped'.unique (h.typedAs htyped) rfl]
  rfl

/-- Any element in the end, under another identifier. -/
theorem resolved_elements (h : Matched σ keys keys' c c') (hr : Resolved c keys r)
    (hr' : Resolved c' keys' r') (hσ : σ.Shuffles r.extent)
    (hsize : r'.elements.size = r.elements.size) (d : ElementId) :
    r'.elements[(σ.element d).index]? = rename σ r.elements[d.index]? := by
  cases he : c.elements[d.index]? with
  | some e => exact h.resolved_element hr hr' he
  | none =>
    have hbehind : r.elements.size ≤ d.index :=
      hr.elementCount.trans_le (Array.getElem?_eq_none_iff.1 he)
    rw [hσ.element_fix d hbehind, Array.getElem?_eq_none hbehind,
      Array.getElem?_eq_none (hsize.trans_le hbehind)]
    rfl

end Matched

/-- Looking everything up adds the built-in types that have been called for. -/
theorem Resolved.extent {r : Components} (hr : Resolved c keys r) :
    r.extent = ⟨c.extent.elements, c.extent.types + keys.length, c.extent.documents⟩ := by
  rw [Components.extent, hr.typeCount, hr.elementCount, hr.frame.locations]
  rfl

/-- **Components that rearranged ones come to are rearranged.** -/
theorem Rearranged.resolved {r r' : Components} (h : Rearranged ρ c c') (hc : c.Intact)
    (hr : Resolved c keys r) (hr' : Resolved c' keys' r') :
    Rearranged (ρ.withBuiltins c.types.size keys keys') r r' := by
  have hperm := h.keys_perm hr hr'
  have hmatched : Matched (ρ.withBuiltins c.types.size keys keys') keys keys' c c' :=
    h.matched hc hperm
  have hagree : Renaming.AgreesOn c.extent (ρ.withBuiltins c.types.size keys keys') ρ :=
    Renaming.withBuiltins_agreesOn (Nat.le_refl _)
  have hshuffles := Renaming.withBuiltins_shuffles h.shuffles hr.nodup hperm
  change (ρ.withBuiltins c.types.size keys keys').Shuffles _ at hshuffles
  have hlocations (n : Nat) :
      c'.locations[(ρ.withBuiltins c.types.size keys keys').document n]? = c.locations[n]? :=
    h.locations n
  generalize ρ.withBuiltins c.types.size keys keys' = σ at *
  have hextent : r'.extent = r.extent := by
    rw [hr'.extent, hr.extent, h.extent, hperm.length_eq]
  have hσ : σ.Shuffles r.extent := hr.extent ▸ hshuffles
  exact {
    shuffles := hσ
    extent := hextent
    version := by rw [hr'.frame.version, hr.frame.version, h.version]
    limits := by rw [hr'.frame.limits, hr.frame.limits, h.limits]
    elements := hmatched.resolved_elements hr hr' hσ (congrArg Extent.elements hextent)
    types := hmatched.resolved_types hr hr' hσ (congrArg Extent.types hextent)
    locations := fun n => by
      rw [hr'.frame.locations, hr.frame.locations]
      exact hlocations n
    globalElements := fun n => by
      rw [hr'.frame.globalElements, hr.frame.globalElements]
      exact hmatched.alike.globalElements n
    globalTypes := fun n => by
      rw [hr'.frame.globalTypes, hr.frame.globalTypes]
      exact hmatched.alike.globalTypes n
    groups := fun n => by
      rw [hr'.frame.groups, hr.frame.groups, h.groups]
      cases hn : c.groups.find? n with
      | none => rfl
      | some g => exact congrArg some (rename_congr hagree (NameTable.sound_find? hc.groups hn)).symm
    attributeGroups := fun n => by
      rw [hr'.frame.attributeGroups, hr.frame.attributeGroups]
      exact hmatched.alike.attributeGroups n
    globalAttributes := fun n => by
      rw [hr'.frame.globalAttributes, hr.frame.globalAttributes]
      exact hmatched.alike.globalAttributes n
    elementEntries := by
      rw [hr'.frame.globalElements, hr.frame.globalElements,
        rename_congr hagree (α := List (Name × ElementId)) hc.globalElements]
      exact h.elementEntries
    typeEntries := by
      rw [hr'.frame.globalTypes, hr.frame.globalTypes,
        rename_congr hagree (α := List (Name × TypeId)) hc.globalTypes]
      exact h.typeEntries
    groupCount := by
      rw [hr'.frame.attributeGroups, hr.frame.attributeGroups]
      exact h.groupCount
    problems := hr'.problems.trans
      ((h.problems.append (h.faults_perm.map _)).trans hr.problems.symm) }

/-- **Rearranged components stay so when everything in them is looked up**, as long as neither types
nor elements lead back to themselves. -/
theorem exists_rearranged_resolve (h : Rearranged ρ c c') (hc : c.Intact) (hc' : c'.Intact)
    (hbuiltins : c.builtins = []) (hbuiltins' : c'.builtins = [])
    (htypes : ∀ t, ¬ TransGen (DerivesFrom c) t t)
    (helements : ∀ d, ¬ TransGen (StandsInFor c) d d)
    (htypes' : ∀ t, ¬ TransGen (DerivesFrom c') t t)
    (helements' : ∀ d, ¬ TransGen (StandsInFor c') d d) :
    ∃ σ, Rearranged σ (resolve.run c).2 (resolve.run c').2 := by
  obtain ⟨keys, hr⟩ := exists_resolved hc hbuiltins htypes helements
  obtain ⟨keys', hr'⟩ := exists_resolved hc' hbuiltins' htypes' helements'
  exact ⟨_, h.expandTypes.resolved (settled_expandTypes hc).intact hr hr'⟩

end Components
end SchemaAssist
