/-
# Looking up under other identifiers

Components may hold the same under the same names but for identifiers (`Components.Alike`).  Then
whatever is looked up by name in the one is found in the other under the new identifiers, and the
same references are wrong and the same built-in types called for.  Where tables are shuffled as well
(`Components.Rearranged`), all of this holds of the whole tables, but for the order.
-/

import SchemaAssist.Proofs.Arrangement
import SchemaAssist.Proofs.Conclusions

namespace SchemaAssist

open Referring (rename rename_append rename_congr)

/-! ### Uses of attributes -/

section Attributes

variable {ρ : Renaming} {a : AttributeUse} {uses own : List AttributeUse}

theorem AttributeUse.rename_without (n : Name) :
    without (rename ρ uses) n = rename ρ (without uses n) := List.filter_map

theorem AttributeUse.rename_override :
    override (rename ρ uses) (rename ρ a) = rename ρ (override uses a) := by
  have hlast : rename ρ [a] = [rename ρ a] := rfl
  unfold override
  change (if a.prohibited then without (rename ρ uses) a.name
    else without (rename ρ uses) a.name ++ [rename ρ a]) = _
  rw [rename_without]
  split
  · rfl
  · rw [rename_append, hlast]

theorem rename_mergeAttributes :
    mergeAttributes (rename ρ uses) (rename ρ own) = rename ρ (mergeAttributes uses own) := by
  induction own generalizing uses with
  | nil => rfl
  | cons a own ih =>
    change mergeAttributes (AttributeUse.override (rename ρ uses) (rename ρ a)) (rename ρ own) = _
    rw [AttributeUse.rename_override, ih]
    rfl

theorem Components.rename_ownUses :
    ownUses (rename ρ uses) (rename ρ own) = rename ρ (ownUses uses own) := by
  induction own generalizing uses with
  | nil => rfl
  | cons a own ih =>
    have hlast : rename ρ (AttributeUse.without uses a.name ++ [a]) =
        AttributeUse.without (rename ρ uses) a.name ++ [rename ρ a] := by
      rw [rename_append, AttributeUse.rename_without]
      rfl
    change ownUses (AttributeUse.without (rename ρ uses) a.name ++ [rename ρ a]) (rename ρ own) = _
    rw [← hlast, ih]
    rfl

end Attributes

namespace Components

variable {c c' : Components} {ρ σ : Renaming}

/-- What is declared under a name is the same but for identifiers. -/
structure Alike (ρ : Renaming) (c c' : Components) : Prop where
  version : c'.version = c.version
  globalElements : ∀ n, c'.globalElements.find? n = rename ρ (c.globalElements.find? n)
  globalTypes : ∀ n, c'.globalTypes.find? n = rename ρ (c.globalTypes.find? n)
  attributeGroups : ∀ n, c'.attributeGroups.find? n = rename ρ (c.attributeGroups.find? n)
  globalAttributes : ∀ n, c'.globalAttributes.find? n = rename ρ (c.globalAttributes.find? n)
  groupCount : c'.attributeGroups.entries.length = c.attributeGroups.entries.length

theorem Rearranged.alike (h : Rearranged ρ c c') : Alike ρ c c' := { h with }

theorem has_of_find? {α : Type} [Referring α] {t t' : NameTable α} {n : Name}
    (h : t'.find? n = rename ρ (t.find? n)) : t'.has n = t.has n := by
  rw [NameTable.has, NameTable.has, h]
  exact Option.isSome_map

namespace Alike

/-- Only the identifiers that components hold matter. -/
theorem congr (h : Alike ρ c c') (hc : c.Intact) (hσ : Renaming.AgreesOn c.extent σ ρ) :
    Alike σ c c' := by
  have hfind {α : Type} [Referring α] {t : NameTable α} (ht : Referring.Sound c.extent t)
      (n : Name) : rename ρ (t.find? n) = rename σ (t.find? n) := by
    cases hn : t.find? n with
    | none => rfl
    | some a => exact congrArg some (rename_congr hσ (NameTable.sound_find? ht hn)).symm
  exact {
    h with
    globalElements := fun n => (h.globalElements n).trans (hfind hc.globalElements n)
    globalTypes := fun n => (h.globalTypes n).trans (hfind hc.globalTypes n)
    attributeGroups := fun n => (h.attributeGroups n).trans (hfind hc.attributeGroups n)
    globalAttributes := fun n => (h.globalAttributes n).trans (hfind hc.globalAttributes n) }

/-! ### Names of types -/

theorem knows (h : Alike ρ c c') (n : Name) : c'.knows n = c.knows n := by
  rw [Components.knows, Components.knows, has_of_find? (h.globalTypes n)]

theorem called (h : Alike ρ c c') (n : Name) : c'.called n = c.called n := by
  rw [Components.called, Components.called, has_of_find? (h.globalTypes n)]

theorem typeFaults (h : Alike ρ c c') (referrer : Referrer) (ref : TypeRef) :
    c'.typeFaults referrer (rename ρ ref) = c.typeFaults referrer ref := by
  cases ref with
  | named n =>
    change (if c'.knows n then [] else [Fault.unknownType n referrer]) = _
    rw [h.knows]
    rfl
  | _ => rfl

theorem calledBy (h : Alike ρ c c') (ref : TypeRef) : c'.calledBy (rename ρ ref) = c.calledBy ref := by
  cases ref with
  | named n => exact h.called n
  | _ => rfl

/-! ### Attributes -/

theorem dereferenced (h : Alike ρ c c') (a : AttributeUse) :
    c'.dereferenced (rename ρ a) = rename ρ (c.dereferenced a) := by
  have href : (rename ρ a).reference? = a.reference? := rfl
  rw [Components.dereferenced, Components.dereferenced, href]
  cases a.reference? with
  | none => rfl
  | some n =>
    dsimp only
    rw [h.globalAttributes]
    cases c.globalAttributes.find? n <;> rfl

theorem referenceFaults (h : Alike ρ c c') (a : AttributeUse) :
    c'.referenceFaults (rename ρ a) = c.referenceFaults a := by
  have href : (rename ρ a).reference? = a.reference? := rfl
  rw [Components.referenceFaults, Components.referenceFaults, href]
  cases a.reference? with
  | none => rfl
  | some n =>
    dsimp only
    rw [has_of_find? (h.globalAttributes n)]

theorem useFaults (h : Alike ρ c c') (a : AttributeUse) :
    c'.useFaults (rename ρ a) = c.useFaults a := by
  rw [Components.useFaults, Components.useFaults, h.referenceFaults, h.dereferenced]
  exact congrArg (c.referenceFaults a ++ ·) (h.typeFaults _ _)

/-- Groups of attributes give the same uses in the same order. -/
theorem groupUses (h : Alike ρ c c') (room : Nat) (around refs : List Name) :
    Components.groupUses c'.attributeGroups room around refs =
      Prod.map (rename ρ) id (Components.groupUses c.attributeGroups room around refs) := by
  induction room generalizing around refs with
  | zero => rfl
  | succ room ih =>
    rw [Components.groupUses, Components.groupUses]
    change List.foldl _ (Prod.map (rename ρ) id (([], []) : List AttributeUse × List Fault)) _ = _
    refine List.foldl_hom _ fun found n => ?_
    obtain ⟨uses, faults⟩ := found
    dsimp only [Prod.map_apply]
    split
    · rfl
    · rw [h.attributeGroups]
      cases c.attributeGroups.find? n with
      | none => rfl
      | some g =>
        have hgroups : (rename ρ g).groups = g.groups := rfl
        change ((mergeAttributes (mergeAttributes (rename ρ uses) (Components.groupUses
          c'.attributeGroups room (n :: around) (rename ρ g).groups).1) (rename ρ g.attributes),
          faults ++ (Components.groupUses c'.attributeGroups room (n :: around)
            (rename ρ g).groups).2) : _ × _) = _
        rw [hgroups, ih, Prod.map_fst, rename_mergeAttributes, rename_mergeAttributes]
        rfl

theorem usesOfGroups (h : Alike ρ c c') (refs : List Name) :
    c'.usesOfGroups refs = Prod.map (rename ρ) id (c.usesOfGroups refs) := by
  rw [Components.usesOfGroups, h.groupCount]
  exact h.groupUses _ _ _

theorem usesToLookUp (h : Alike ρ c c') (own : List AttributeUse) (groups : List Name) :
    c'.usesToLookUp (rename ρ own) groups = rename ρ (c.usesToLookUp own groups) := by
  rw [Components.usesToLookUp, h.usesOfGroups, Prod.map_fst, rename_ownUses]
  rfl

theorem usesFaults (h : Alike ρ c c') (own : List AttributeUse) (groups : List Name) :
    c'.usesFaults (rename ρ own) groups = c.usesFaults own groups := by
  rw [Components.usesFaults, h.usesToLookUp, h.usesOfGroups, Prod.map_snd]
  change _ ++ (List.map (rename ρ) _).flatMap _ = _
  rw [List.flatMap_map, funext h.useFaults]
  rfl

theorem calledByUses (h : Alike ρ c c') (own : List AttributeUse) (groups : List Name) :
    c'.calledByUses (rename ρ own) groups = c.calledByUses own groups := by
  have hcalled (a : AttributeUse) : c'.calledBy (c'.dereferenced (rename ρ a)).typeRef =
      c.calledBy (c.dereferenced a).typeRef := by
    rw [h.dereferenced]
    exact h.calledBy _
  rw [Components.calledByUses, h.usesToLookUp]
  change (List.map (rename ρ) _).flatMap _ = _
  rw [List.flatMap_map, funext hcalled]
  rfl

/-! ### Types -/

theorem baseFaults (h : Alike ρ c c') (d : TypeDef) :
    c'.baseFaults (rename ρ d) = c.baseFaults d := by
  cases d with
  | simple st =>
    change (if st.builtin then [] else c'.typeFaults _ (rename ρ st.base)) = _
    rw [h.typeFaults]
    rfl
  | complex ct => rfl

theorem calledByBase (h : Alike ρ c c') (d : TypeDef) :
    c'.calledByBase (rename ρ d) = c.calledByBase d := by
  cases d with
  | simple st =>
    change (if st.builtin then [] else c'.calledBy (rename ρ st.base)) = _
    rw [h.calledBy]
    rfl
  | complex ct => rfl

theorem derivationFaults (h : Alike ρ c c') (d : TypeDef) :
    c'.derivationFaults (rename ρ d) = c.derivationFaults d := by
  cases d with
  | simple st => rfl
  | complex ct =>
    obtain ⟨name?, content, mixed, attributes, groups, derivation?, rest⟩ := ct
    have huses := h.usesFaults attributes groups
    cases derivation? with
    | none => exact congrArg (· ++ []) huses
    | some derivation =>
      exact congrArg₂ (fun (faults : List Fault) (known : Bool) => faults ++ if known then [] else _)
        huses (h.knows derivation.2)

theorem calledByDerivation (h : Alike ρ c c') (d : TypeDef) :
    c'.calledByDerivation (rename ρ d) = c.calledByDerivation d := by
  cases d with
  | simple st => rfl
  | complex ct =>
    obtain ⟨name?, content, mixed, attributes, groups, derivation?, rest⟩ := ct
    have huses := h.calledByUses attributes groups
    cases derivation? with
    | none => exact congrArg (· ++ []) huses
    | some derivation => exact congrArg₂ (· ++ ·) huses (h.called derivation.2)

/-! ### Elements -/

theorem headsOf (h : Alike ρ c c') (e : ElementDecl) :
    c'.headsOf (rename ρ e) = (c.headsOf e).map ρ.element := by
  change e.heads.filterMap c'.globalElements.find? = (e.heads.filterMap _).map _
  rw [List.map_filterMap]
  exact List.filterMap_congr fun n _ => h.globalElements n

theorem isUntyped (h : Alike ρ c c') (e : ElementDecl) :
    c'.isUntyped (rename ρ e) = c.isUntyped e := by
  have href : (rename ρ e).typeRef = rename ρ e.typeRef := rfl
  rw [Components.isUntyped, Components.isUntyped, h.headsOf, List.isEmpty_map, href]
  cases e.typeRef with
  | named n => exact congrArg (!·) (h.knows n)
  | _ => rfl

theorem elementFaults (h : Alike ρ c c') (e : ElementDecl) :
    c'.elementFaults (rename ρ e) = c.elementFaults e := by
  have htype : (rename ρ e).type?.isSome = e.type?.isSome := Option.isSome_map
  rw [Components.elementFaults, Components.elementFaults, htype]
  exact congrArg (if e.type?.isSome then [] else ·) (h.typeFaults _ _)

theorem calledByElement (h : Alike ρ c c') (e : ElementDecl) :
    c'.calledByElement (rename ρ e) = c.calledByElement e := by
  have htype : (rename ρ e).type?.isSome = e.type?.isSome := Option.isSome_map
  rw [Components.calledByElement, Components.calledByElement, htype, h.isUntyped]
  exact congrArg (fun called => if e.type?.isSome then [] else called ++ _) (h.calledBy _)

end Alike

/-! ### Shuffled tables -/

section Tables

variable {α β : Type} {as as' : Array α} {f : Nat → Nat} {g : α → α}

/-- Numbers below a bound that are shuffled are those numbers. -/
theorem map_range_perm {n : Nat} (hinj : f.Injective) (hlt : ∀ i, i < n → f i < n) :
    ((List.range n).map f).Perm (List.range n) := by
  refine List.Subperm.perm_of_length_le (List.Nodup.subperm (List.nodup_range.map hinj) ?_) ?_
  · intro j hj
    obtain ⟨i, hi, rfl⟩ := List.mem_map.1 hj
    exact List.mem_range.2 (hlt i (List.mem_range.1 hi))
  · rw [List.length_map]

/-- What comes from the entries of a shuffled table. -/
theorem flatMap_shuffled_perm (hsize : as'.size = as.size) (hinj : f.Injective)
    (hlt : ∀ i, i < as.size → f i < as.size) (h : ∀ i, as'[f i]? = as[i]?.map g)
    {k k' : α → List β} (hk : ∀ a ∈ as, k' (g a) = k a) :
    (as'.toList.flatMap k').Perm (as.toList.flatMap k) := by
  have hentry (i : Nat) : as'[f i]?.toList.flatMap k' = as[i]?.toList.flatMap k := by
    rw [h]
    cases ha : as[i]? with
    | none => rfl
    | some a => exact congrArg (· ++ []) (hk a (Array.mem_of_getElem? ha))
  rw [← flatMap_range_getElem? as', ← flatMap_range_getElem? as, hsize]
  refine ((map_range_perm hinj hlt).symm.flatMap_right _).trans (.of_eq ?_)
  rw [List.flatMap_map]
  exact List.flatMap_congr fun i _ => hentry i

end Tables

namespace Rearranged

variable {β : Type}

theorem flatMap_elements_perm (h : Rearranged ρ c c') {k k' : ElementDecl → List β}
    (hk : ∀ e ∈ c.elements, k' (rename ρ e) = k e) :
    (c'.elements.toList.flatMap k').Perm (c.elements.toList.flatMap k) :=
  flatMap_shuffled_perm (f := fun i => (ρ.element ⟨i⟩).index)
    (congrArg Extent.elements h.extent)
    (fun _ _ heq => congrArg ElementId.index
      (h.shuffles.element_inj _ _ (congrArg ElementId.mk heq)))
    (fun _ hi => h.shuffles.element_lt hi) (fun i => h.elements ⟨i⟩) hk

theorem flatMap_types_perm (h : Rearranged ρ c c') {k k' : TypeDef → List β}
    (hk : ∀ d ∈ c.types, k' (rename ρ d) = k d) :
    (c'.types.toList.flatMap k').Perm (c.types.toList.flatMap k) :=
  flatMap_shuffled_perm (f := fun i => (ρ.type ⟨i⟩).index) (congrArg Extent.types h.extent)
    (fun _ _ heq => congrArg TypeId.index (h.shuffles.type_inj _ _ (congrArg TypeId.mk heq)))
    (fun _ hi => h.shuffles.type_lt hi) (fun i => h.types ⟨i⟩) hk

/-- Rearranged components call for the same built-in types. -/
theorem calls_perm (h : Rearranged ρ c c') : c'.calls.Perm c.calls :=
  ((h.flatMap_types_perm fun d _ => h.alike.calledByBase d).append
    (h.flatMap_types_perm fun d _ => h.alike.calledByDerivation d)).append
      (h.flatMap_elements_perm fun e _ => h.alike.calledByElement e)

theorem headFaults_perm (h : Rearranged ρ c c') : c'.headFaults.Perm c.headFaults := by
  have hhas : (!c'.globalElements.has ·) = (!c.globalElements.has ·) :=
    funext fun n => congrArg (!·) (has_of_find? (h.globalElements n))
  refine h.flatMap_elements_perm fun e _ => ?_
  rw [hhas]
  rfl

/-- The same references of rearranged components are wrong. -/
theorem faults_perm (h : Rearranged ρ c c') : c'.faults.Perm c.faults :=
  (((h.flatMap_types_perm fun d _ => h.alike.baseFaults d).append
    (h.flatMap_types_perm fun d _ => h.alike.derivationFaults d)).append
      (h.flatMap_elements_perm fun e _ => h.alike.elementFaults e)).append h.headFaults_perm

end Rearranged
end Components
end SchemaAssist
