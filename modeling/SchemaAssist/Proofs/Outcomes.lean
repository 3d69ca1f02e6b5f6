/-
# What types are in the end

When no type derives from itself, every type of the documents is in the grammar as what it comes to
(`Components.Derived`), which is one thing only (`Components.Derived.unique`), but for a model group
that holds nothing; the built-in types stand behind (`Components.exists_outcomes`).  The steps after
derivation leave types alone: they only call for more of the built-in ones (`Components.Calls`).
-/

import SchemaAssist.Proofs.Derivations

namespace SchemaAssist

open Relation (TransGen)

namespace Components

variable {c₀ c : Components} {T : Array TypeDef} {keys keys' : List String} {α β : Type}

/-! ### One outcome -/

theorem Referred.unique {ref : TypeRef} {t? t?' : Option TypeId} (h : Referred c keys ref t?)
    (h' : Referred c keys ref t?') : t? = t?' := by
  cases h with
  | unspecified => cases h' with | unspecified => rfl
  | definition t => cases h' with | definition t => rfl
  | named h => cases h' with | named h' => exact h.unique h'

theorem Used.unique {a b b' : AttributeUse} (h : Used c keys a b) (h' : Used c keys a b') :
    b = b' := by
  obtain ⟨t?, ht, rfl⟩ := h
  obtain ⟨t?', ht', rfl⟩ := h'
  rw [ht.unique ht']

theorem Attributed.unique {ct : ComplexType} {uses uses' : List AttributeUse}
    (h : Attributed c keys ct uses) (h' : Attributed c keys ct uses') : uses = uses' :=
  List.right_unique_forall₂' (fun _ _ _ hb hb' => hb.unique hb') h h'

theorem Based.unique {d d' d'' : TypeDef} (h : Based c keys d d') (h' : Based c keys d d'') :
    d' = d'' := by
  cases d with
  | complex ct => exact h.trans h'.symm
  | simple st =>
    rw [Based] at h h'
    split at h
    · next hb =>
      rw [if_pos hb] at h'
      exact h.trans h'.symm
    · next hb =>
      rw [if_neg hb] at h'
      obtain ⟨b?, hb, rfl⟩ := h
      obtain ⟨b?', hb', rfl⟩ := h'
      rw [hb.unique hb']

/-- **A type comes to one thing only.** -/
theorem Derived.unique {t t' : TypeId} {d d' : TypeDef} (h : Derived c keys t d)
    (h' : Derived c keys t' d') (ht : t = t') : d = d' := by
  induction h generalizing t' d' with
  | simple hget hbased =>
    subst ht
    cases h' with
    | simple hget' hbased' =>
      cases hget.symm.trans hget'
      exact hbased.unique hbased'
    | alone hget' => cases hget.symm.trans hget'
    | derived hget' => cases hget.symm.trans hget'
    | builtin hk => exact absurd rfl (ne_builtinId hget _)
  | alone hget huses hbase =>
    subst ht
    cases h' with
    | simple hget' => cases hget.symm.trans hget'
    | alone hget' huses' =>
      cases hget.symm.trans hget'
      rw [huses.unique huses']
    | derived hget' _ hderivation hnamed =>
      cases hget.symm.trans hget'
      cases (hbase _ _ hderivation).unique hnamed
    | builtin hk => exact absurd rfl (ne_builtinId hget _)
  | derived hget huses hderivation hnamed _ ih =>
    subst ht
    cases h' with
    | simple hget' => cases hget.symm.trans hget'
    | alone hget' _ hbase =>
      cases hget.symm.trans hget'
      cases (hbase _ _ hderivation).unique hnamed
    | derived hget' huses' hderivation' hnamed' hderived' =>
      cases hget.symm.trans hget'
      cases hderivation.symm.trans hderivation'
      cases hnamed.unique hnamed'
      rw [huses.unique huses', ih hderived' rfl]
    | builtin hk => exact absurd rfl (ne_builtinId hget _)
  | builtin hk =>
    cases h' with
    | simple hget => exact absurd ht.symm (ne_builtinId hget _)
    | alone hget => exact absurd ht.symm (ne_builtinId hget _)
    | derived hget => exact absurd ht.symm (ne_builtinId hget _)
    | builtin hk' =>
      have hindex : keys.idxOf _ = keys.idxOf _ :=
        Nat.add_left_cancel (congrArg TypeId.index ht)
      rw [(List.idxOf_inj hk).1 hindex]

/-- The built-in types hold something, if they have a model group. -/
theorem withoutIdleGroup_definition (k : String) :
    withoutIdleGroup (Builtin.definition k) = Builtin.definition k := by
  rw [Builtin.definition]
  split
  · rfl
  · rfl

/-! ### Steps that call for built-in types -/

/-- A step that leaves types alone, but for built-in ones that it calls for. -/
def Calls (c₀ : Components) (T : Array TypeDef) (x : Building α) : Prop :=
  ∀ keys c, Midway c₀ T keys c → ∃ keys', keys <+: keys' ∧ Midway c₀ T keys' (x.run c).2

namespace Calls

theorem pure (a : α) : Calls c₀ T (pure a) := fun keys _ hc => ⟨keys, List.prefix_rfl, hc⟩

theorem bind {x : Building α} {f : α → Building β} (hx : Calls c₀ T x)
    (hf : ∀ a, Calls c₀ T (f a)) : Calls c₀ T (x >>= f) := by
  intro keys c hc
  obtain ⟨keys', hkeys, hc'⟩ := hx keys c hc
  obtain ⟨keys'', hkeys', hc''⟩ := hf (x.run c).1 keys' _ hc'
  exact ⟨keys'', hkeys.trans hkeys', hc''⟩

/-- A step that depends on the components. -/
theorem get_bind {f : Components → Building β} (hf : ∀ c, Calls c₀ T (f c)) :
    Calls c₀ T (get >>= f) := fun keys c hc => hf c keys c hc

theorem forM {f : α → Building PUnit} (h : ∀ a, Calls c₀ T (f a)) (as : List α) :
    Calls c₀ T (as.forM f) := by
  induction as with
  | nil => exact .pure _
  | cons a as ih => exact (h a).bind fun _ => ih

theorem findSomeM? {f : α → Building (Option β)} (h : ∀ a, Calls c₀ T (f a)) (as : List α) :
    Calls c₀ T (as.findSomeM? f) := by
  induction as with
  | nil => exact .pure none
  | cons a as ih =>
    refine (h a).bind fun b? => ?_
    cases b? with
    | none => exact ih
    | some b => exact .pure (some b)

end Calls

/-- Looking something up leaves types alone. -/
theorem Looks.calls {x : Building α} {found : List String → α → Prop} {faults : List Fault}
    {calls : List String} (hx : Looks c₀ x found faults calls) : Calls c₀ T x :=
  fun keys c hc => ⟨_, prefix_addAllNew keys calls, (hx T keys c hc).1⟩

theorem calls_setElementType (d : ElementId) (t : TypeId) : Calls c₀ T (setElementType d t) :=
  fun keys _ hc =>
    ⟨keys, List.prefix_rfl, { hc.frame with }, hc.size, hc.types, hc.builtins, hc.nodup⟩

theorem calls_elementType? (room : Nat) (path : List ElementId) (d : ElementId) :
    Calls c₀ T (elementType? room path d) := by
  induction room generalizing path d with
  | zero => exact .pure none
  | succ room ih =>
    rw [elementType?]
    refine Calls.bind (.get_bind fun _ => .pure _) fun decl? => ?_
    split
    · exact .pure none
    · split
      · exact .pure _
      · split
        · exact .pure none
        · extract_lets settle choose
          have hchoose (found? : Option TypeId) : Calls c₀ T (choose found?) := by
            have hsettle (t : TypeId) : Calls c₀ T (settle t) :=
              (calls_setElementType d t).bind fun _ => .pure _
            cases found? with
            | none => exact (looks_builtinType _).calls.bind hsettle
            | some t => exact hsettle t
          split
          · exact .get_bind fun _ => (Calls.findSomeM? (fun _ => ih _ _) _).bind hchoose
          · exact (looks_typeOf? _ _).calls.bind hchoose

theorem calls_typeElements : Calls c₀ T typeElements :=
  .get_bind fun _ => .forM (fun _ => (calls_elementType? _ _ _).bind fun _ => .pure _) _

/-! ### All steps -/

theorem Frame.refl (c : Components) : Frame c c := ⟨rfl, rfl, rfl, rfl, rfl, rfl, rfl, rfl, rfl⟩

/-- Reporting several faults. -/
theorem run_forM_report (faults : List Fault) (c : Components) : ((faults.forM report).run c).2 =
    { c with problems := c.problems ++ (faults.map Fault.problem).toArray } := by
  induction faults generalizing c with
  | nil =>
    change c = _
    simp
  | cons f faults ih =>
    have hcons : ((f :: faults).forM report).run c = (faults.forM report).run
        { c with problems := c.problems.push f.problem } := rfl
    rw [hcons, ih]
    simp

theorem types_expandTypes (c : Components) :
    (expandTypes.run c).2.types = c.types.map fun d => (c.expandType d).1 := by
  have htypes : (expandTypes.run c).2.types = (c.types.map c.expandType).map (·.1) := rfl
  rw [htypes, Array.map_map]
  rfl

theorem derivation?_expandType {ct own : ComplexType}
    (h : (c.expandType (.complex ct)).1 = .complex own) : own.derivation? = ct.derivation? := by
  rw [expandType] at h
  split at h
  · cases h
    rfl
  · cases h
    rfl

/-- Expansion leaves alone which types derive from which. -/
theorem derivesFrom_expandTypes {t u : TypeId} (h : DerivesFrom (expandTypes.run c).2 t u) :
    DerivesFrom c t u := by
  obtain ⟨own, method, base, hown, hderivation, hbase⟩ := h
  rw [types_expandTypes, Array.getElem?_map] at hown
  obtain ⟨d, hd, hexpand⟩ := Option.map_eq_some_iff.1 hown
  cases d with
  | simple st => cases hexpand
  | complex ct => exact ⟨ct, method, base, hd, derivation?_expandType hexpand ▸ hderivation, hbase⟩

/-- Components without model groups that hold nothing, with a report of the heads that are not
declared. -/
def concluded (c : Components) : Components :=
  { c with
    types := c.types.map withoutIdleGroup
    problems := c.problems ++ (c.headFaults.map Fault.problem).toArray }

theorem frame_concluded (c : Components) : Frame c c.concluded := { Frame.refl c with }

/-- Resolution after model groups have been expanded. -/
theorem run_resolve {c₁ c₂ : Components}
    (h₁ : ((resolveBases >>= fun _ => deriveTypes).run (expandTypes.run c).2).2 = c₁)
    (h₂ : (typeElements.run c₁).2 = c₂) : (resolve.run c).2 = c₂.concluded := by
  have hreport := run_forM_report c₂.headFaults { c₂ with types := c₂.types.map withoutIdleGroup }
  rw [resolve_eq, run_bind expandTypes, run_bind (resolveBases >>= _), run_bind typeElements, h₁, h₂]
  exact hreport

/-- Components all of whose references have been looked up. -/
def lookedUp (c : Components) : Components :=
  (typeElements.run ((resolveBases >>= fun _ => deriveTypes).run (expandTypes.run c).2).2).2

/-- The grammar of components is that of the types that are left once all references have been
looked up, without model groups that hold nothing. -/
theorem finish_of_build {g : Grammar} (h : c.build = .ok g) : c.lookedUp.concluded.finish = g := by
  rw [build] at h
  split at h
  · cases h
  · rw [run_resolve rfl rfl] at h
    exact Except.ok.inj h

end Components
end SchemaAssist
