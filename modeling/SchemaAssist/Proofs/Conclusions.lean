/-
# What resolution comes to

When neither types nor elements lead back to themselves, resolution is settled by the components
alone (`Components.Resolved`): what every type comes to, which type every element gets, which
built-in types are called for, and what is reported, all but for the order.
-/

import SchemaAssist.Proofs.Outcomes
import SchemaAssist.Proofs.Typings

namespace SchemaAssist

open Relation (TransGen)

namespace Components

variable {c₀ c : Components} {keys : List String}

/-- The built-in types that components call for. -/
def calls (c : Components) : List String :=
  c.types.toList.flatMap c.calledByBase ++ c.types.toList.flatMap c.calledByDerivation ++
    c.elements.toList.flatMap c.calledByElement

/-- What is wrong with the references of components whose model groups have been expanded. -/
def faults (c : Components) : List Fault :=
  c.types.toList.flatMap c.baseFaults ++ c.types.toList.flatMap c.derivationFaults ++
    c.elements.toList.flatMap c.elementFaults ++ c.headFaults

/-- Components are what others come to when everything has been looked up. -/
structure Resolved (c₀ : Components) (keys : List String) (c : Components) : Prop where
  frame : Frame c₀ c
  nodup : keys.Nodup
  mem_keys : ∀ k, k ∈ keys ↔ k ∈ c₀.calls
  typeCount : c.types.size = c₀.types.size + keys.length
  types : ∀ (t : TypeId) d, c₀.types[t.index]? = some d →
    ∃ d', c.types[t.index]? = some (withoutIdleGroup d') ∧ Derived c₀ keys t d'
  builtins : ∀ k ∈ keys, c.types[(c₀.builtinId keys k).index]? = some (Builtin.definition k)
  elementCount : c.elements.size = c₀.elements.size
  elements : ∀ (d : ElementId) e, c₀.elements[d.index]? = some e →
    ∃ t, c.elements[d.index]? = some { e with type? := some t } ∧ TypedAs c₀ keys d t
  problems : c.problems.toList.Perm (c₀.problems.toList ++ c₀.faults.map Fault.problem)

/-- Going through the types that have been entered is going through all types. -/
theorem flatMap_atType_perm {entered : List TypeId}
    (h : entered.Perm ((List.range c.types.size).map TypeId.mk)) {α : Type} (f : TypeDef → List α) :
    (entered.flatMap (c.atType f)).Perm (c.types.toList.flatMap f) := by
  refine (h.flatMap_right _).trans (.of_eq ?_)
  rw [List.flatMap_map]
  exact flatMap_range_getElem? c.types f

/-- Types of elements do not matter to what is wrong with their heads. -/
theorem headFaults_congr (hglobal : c.globalElements = c₀.globalElements)
    (hsize : c.elements.size = c₀.elements.size)
    (h : ∀ (d : ElementId) e, c₀.elements[d.index]? = some e →
      ∃ t, c.elements[d.index]? = some { e with type? := some t }) :
    c.headFaults = c₀.headFaults := by
  have hmap : c.elements.map (fun e => (e.heads, e.name)) =
      c₀.elements.map fun e => (e.heads, e.name) := by
    refine Array.ext_getElem? fun i => ?_
    rw [Array.getElem?_map, Array.getElem?_map]
    cases he : c₀.elements[i]? with
    | none =>
      have hge : c.elements.size ≤ i := hsize ▸ Array.getElem?_eq_none_iff.1 he
      rw [Array.getElem?_eq_none hge]
    | some e =>
      obtain ⟨t, ht⟩ := h ⟨i⟩ e he
      rw [ht]
      rfl
  have hfaults (c : Components) : c.headFaults =
      (c.elements.map fun e => (e.heads, e.name)).toList.flatMap fun e =>
        (e.1.filter (!c.globalElements.has ·)).map fun head => .unknownHead head e.2 := by
    rw [headFaults, Array.toList_map, List.flatMap_map]
  rw [hfaults, hfaults, hmap, hglobal]

/-- The built-in types that bases of simple types call for. -/
def calledByBases (c : Components) : List String :=
  addAllNew [] (c.types.toList.flatMap c.calledByBase)

/-- Resolution is settled when all types have been derived and all elements have got their types. -/
theorem resolved_concluded {c₁ c₂ c₃ : Components} {T : Array TypeDef} {entered done : List TypeId}
    {typed : List ElementId}
    (hbased : c₁.problems.toList =
      c₀.problems.toList ++ (c₀.types.toList.flatMap c₀.baseFaults).map Fault.problem)
    (hstage : Stage c₀ c₁ c₀.calledByBases [] entered done c₂)
    (hentered : entered.Perm ((List.range c₀.types.size).map TypeId.mk))
    (hdone : ∀ t : TypeId, t.index < c₀.types.size → t ∈ done)
    (hderived : Midway c₀ T (c₀.calledAfter c₀.calledByBases entered) c₂)
    (htyping : Typing c₀ c₂ T (c₀.calledAfter c₀.calledByBases entered) typed c₃)
    (htyped : ∀ (d : ElementId) e, c₀.elements[d.index]? = some e → e.type? = none → d ∈ typed) :
    Resolved c₀ (c₀.calledByElements (c₀.calledAfter c₀.calledByBases entered) typed)
      c₃.concluded := by
  have hmidway := htyping.midway
  have hcalled := flatMap_atType_perm hentered c₀.calledByDerivation
  have hfaults := flatMap_atType_perm hentered c₀.derivationFaults
  have hcalled' := htyping.flatMap_perm htyped (f := c₀.calledByElement) fun e he => if_pos he
  have hfaults' := htyping.flatMap_perm htyped (f := c₀.elementFaults) fun e he => if_pos he
  have helementOf (d : ElementId) (e : ElementDecl) (he : c₀.elements[d.index]? = some e) :
      ∃ t, c₃.elements[d.index]? = some { e with type? := some t } ∧ TypedAs c₀
        (c₀.calledByElements (c₀.calledAfter c₀.calledByBases entered) typed) d t := by
    by_cases hd : d ∈ typed
    · exact htyping.elements d e he hd
    · cases htype : e.type? with
      | none => exact absurd (htyped d e he htype) hd
      | some t =>
        refine ⟨t, (htyping.untouched d hd).trans ?_, .given he htype⟩
        rw [he, ← htype]
  have hheadFaults := headFaults_congr hmidway.frame.globalElements htyping.size
    fun d e he => (helementOf d e he).imp fun _ h => h.1
  refine {
    frame := { hmidway.frame with }
    nodup := hmidway.nodup
    mem_keys := fun k => ?_
    typeCount := ?_
    types := fun t d ht => ?_
    builtins := fun k hk => ?_
    elementCount := htyping.size
    elements := helementOf
    problems := ?_ }
  · rw [calls, calledByElements, calledAfter, calledByBases, mem_addAllNew, mem_addAllNew,
      mem_addAllNew, hcalled.mem_iff, hcalled'.mem_iff, List.mem_append, List.mem_append]
    simp only [List.not_mem_nil, false_or]
  · rw [concluded, Array.size_map, hmidway.types, Array.size_append, hmidway.size]
    simp
  · have hlt := (Array.getElem?_eq_some_iff.1 ht).1
    obtain ⟨d', hd', hderivedAs⟩ := hstage.types t d ht
    rw [if_pos (hdone t hlt)] at hderivedAs
    refine ⟨d', ?_, hderivedAs.mono (prefix_addAllNew _ _)⟩
    rw [concluded, Array.getElem?_map, hmidway.getElem?_types hlt, ← hderived.getElem?_types hlt,
      hd', Option.map_some]
  · rw [concluded, Array.getElem?_map, hmidway.getElem?_builtin hk, Option.map_some,
      withoutIdleGroup_definition]
  · rw [concluded, Array.toList_append, hheadFaults, htyping.problems, hstage.problems, hbased,
      faults, List.map_append, List.map_append, List.map_append]
    simp only [List.append_assoc]
    refine .append_left _ (.append_left _ ((hfaults.map _).append ((hfaults'.map _).append_right _)))

/-- **Resolution is settled by the components alone.** -/
theorem exists_resolved (hc : c.Intact) (hbuiltins : c.builtins = [])
    (htypes : ∀ t, ¬ TransGen (DerivesFrom c) t t)
    (helements : ∀ d, ¬ TransGen (StandsInFor c) d d) :
    ∃ keys, Resolved (expandTypes.run c).2 keys (resolve.run c).2 := by
  have hintact := (settled_expandTypes hc).intact
  have hstart : Midway (expandTypes.run c).2 (expandTypes.run c).2.types []
      (expandTypes.run c).2 := by
    refine ⟨.refl _, rfl, by simp, fun k => ?_, List.nodup_nil⟩
    change c.builtins.lookup k = _
    rw [hbuiltins]
    rfl
  have hderives (t : TypeId) : ¬ TransGen (DerivesFrom (expandTypes.run c).2) t t :=
    fun h => htypes t (TransGen.mono (fun _ _ => derivesFrom_expandTypes) t t h)
  have hstands (d : ElementId) : ¬ TransGen (StandsInFor (expandTypes.run c).2) d d := helements d
  obtain ⟨T₁, hbased, hsame, hreported, hbases⟩ := exists_resolveBases hstart
  obtain ⟨entered, done, hstage, hentered, hdone⟩ := exists_deriveTypes hderives
    (fun _ _ => NameTable.sound_find? hintact.globalTypes) hbased fun t d => hbases t.index d
  obtain ⟨T₂, hderived⟩ := hstage.midway
  obtain ⟨typed, htyping, htyped⟩ := exists_typeElements hstands
    (fun _ _ => NameTable.sound_find? hintact.globalElements) hderived (hstage.elements.trans hsame)
  refine ⟨(expandTypes.run c).2.calledByElements ((expandTypes.run c).2.calledAfter
    (expandTypes.run c).2.calledByBases entered) typed, ?_⟩
  have hrun := run_bind resolveBases (fun _ => deriveTypes) (expandTypes.run c).2
  rw [run_resolve (congrArg Prod.snd hrun) rfl]
  exact resolved_concluded hreported hstage hentered hdone hderived htyping htyped

end Components
end SchemaAssist
