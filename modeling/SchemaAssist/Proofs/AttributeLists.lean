/-
# The attributes that a type lists

A complex type of a grammar lists at most one attribute of a name, none that must not be there and
none that still refers to a global attribute (`ComplexType.Clean`), whatever groups of attributes
refer to each other, as long as its way up to its bases ends.  Under each name stands its own last
use, or else what its groups of attributes give, or else what its base lists (`Grammar.Lists`).  A
prohibited use goes before all others until the base has been looked at, and is left out then; names
may be compared before references are looked up because that changes no name.
-/

import SchemaAssist.Proofs.AnyOrder
import SchemaAssist.Proofs.Asking
import SchemaAssist.Proofs.Extensions
import SchemaAssist.Proofs.Faithful
import SchemaAssist.Proofs.Grounding

namespace SchemaAssist

open Relation (ReflTransGen TransGen)

/-! ### Lists of uses -/

section Uses

variable {uses uses' : List AttributeUse} {a : AttributeUse} {n : Name}

/-- A list of attributes that is ready for use. -/
structure ComplexType.Clean (ct : ComplexType) : Prop where
  nodup : (ct.attributes.map AttributeUse.name).Nodup
  allowed : ∀ a ∈ ct.attributes, a.prohibited = false
  plain : ∀ a ∈ ct.attributes, a.reference? = none

theorem ComplexType.Clean.of_eq {ct ct' : ComplexType} (h : ct.Clean)
    (hattributes : ct'.attributes = ct.attributes) : ct'.Clean := by
  obtain ⟨hnodup, hallowed, hplain⟩ := h
  rw [← hattributes] at hnodup hallowed hplain
  exact ⟨hnodup, hallowed, hplain⟩

/-- Where names are different, only the last use of a name matters to what is left without the
prohibited ones. -/
theorem lastUse?_filter (hnodup : (uses.map AttributeUse.name).Nodup) (n : Name) :
    lastUse? (uses.filter (!·.prohibited)) n = AttributeUse.over? (lastUse? uses n) none := by
  induction uses using List.reverseRecOn with
  | nil => rfl
  | append_singleton uses a ih =>
    rw [List.map_append, List.map_singleton, List.nodup_append] at hnodup
    have hrest := ih hnodup.1
    have hfresh : lastUse? uses a.name = none :=
      lastUse?_eq_none_iff.2 fun hmem => hnodup.2.2 _ hmem _ (List.mem_singleton_self _) rfl
    rw [List.filter_append, lastUse?_concat]
    by_cases hn : a.name = n
    · rw [if_pos hn]
      rw [← hn, hfresh] at hrest
      cases hp : a.prohibited with
      | true => simpa [hp, ← hn, AttributeUse.over?] using hrest
      | false => simp [hp, lastUse?_concat, hn, AttributeUse.over?]
    · rw [if_neg hn, ← hrest]
      cases hp : a.prohibited with
      | true => simp [hp]
      | false => simp [hp, lastUse?_concat, hn]

/-- What is related one by one, with the same names, is related name by name. -/
theorem rel_lastUse? {R : AttributeUse → AttributeUse → Prop} (h : List.Forall₂ R uses uses')
    (hname : ∀ a a', R a a' → a'.name = a.name) (n : Name) :
    Option.Rel R (lastUse? uses n) (lastUse? uses' n) := by
  rw [lastUse?, lastUse?]
  have hreverse := List.forall₂_reverse_iff.2 h
  generalize uses.reverse = xs at hreverse ⊢
  generalize uses'.reverse = ys at hreverse ⊢
  induction hreverse with
  | nil => exact .none
  | @cons a a' _ _ ha _ ih =>
    rw [List.find?_cons, List.find?_cons, hname a a' ha]
    split
    · exact .some ha
    · exact ih

/-- Uses with the names of others are as different as these. -/
theorem map_name_eq {R : AttributeUse → AttributeUse → Prop} (h : List.Forall₂ R uses uses')
    (hname : ∀ a a', R a a' → a'.name = a.name) :
    uses'.map AttributeUse.name = uses.map AttributeUse.name := by
  induction h with
  | nil => rfl
  | cons ha _ ih => rw [List.map_cons, List.map_cons, hname _ _ ha, ih]

end Uses

/-! ### What is listed -/

namespace Grammar

/-- A use of a grammar is what a declared one comes to: it takes on what a global attribute declares
and has the type that it refers to. -/
def LooksUp (g : Grammar) (c : Components) (a a' : AttributeUse) : Prop :=
  ∃ t?, g.RefersTo (c.dereferenced a).typeRef t? ∧ a' = { c.dereferenced a with type? := t? }

/-- What the base of a type lists under a name. -/
inductive Inherits (g : Grammar) (own : ComplexType) (n : Name) : Option AttributeUse → Prop
  | baseless : own.derivation? = none → Inherits g own n none
  | unknown {method : Derivation} {base : Name} : own.derivation? = some (method, base) →
    g.NamesType base none → Inherits g own n none
  | simple {method : Derivation} {base : Name} {b : TypeId} {st : SimpleType} :
    own.derivation? = some (method, base) → g.NamesType base (some b) →
      g.type? b = some (.simple st) → Inherits g own n none
  | complex {method : Derivation} {base : Name} {b : TypeId} {ct : ComplexType} :
    own.derivation? = some (method, base) → g.NamesType base (some b) →
      g.type? b = some (.complex ct) → Inherits g own n (lastUse? ct.attributes n)

/-- What a type lists under a name, where `given` is what its groups of attributes give. -/
inductive Lists (g : Grammar) (c : Components) (own : ComplexType)
    (given : Name → Option AttributeUse) (n : Name) : Option AttributeUse → Prop
  | prohibited {a : AttributeUse} : lastUse? own.attributes n = some a → a.prohibited = true →
    Lists g c own given n none
  | own {a a' : AttributeUse} : lastUse? own.attributes n = some a → a.prohibited = false →
    g.LooksUp c a a' → Lists g c own given n (some a')
  | given {a a' : AttributeUse} : lastUse? own.attributes n = none → given n = some a →
    a.prohibited = false → g.LooksUp c a a' → Lists g c own given n (some a')
  | inherited {a? : Option AttributeUse} : lastUse? own.attributes n = none → given n = none →
    g.Inherits own n a? → Lists g c own given n a?

end Grammar

namespace Components

variable {c c₀ c' final : Components} {keys : List String} {T : Array TypeDef} {t : TypeId}
  {ct own : ComplexType} {uses : List AttributeUse} {a a' : AttributeUse} {n : Name}

/-! ### Uses that have been looked up -/

/-- A use that has been looked up, with the name and the kind of use that it had. -/
def Found (c : Components) (keys : List String) (a a' : AttributeUse) : Prop :=
  Used c keys a a' ∧ a'.name = a.name ∧ a'.prohibited = a.prohibited ∧ a'.reference? = none

/-- What is to be looked up for a type bears the names of what it refers to. -/
theorem Faithful.usesToLookUp (h : c₀.Faithful) (hown : own.Faithful) :
    ∀ a ∈ c₀.usesToLookUp own.attributes own.attributeGroups, a.Faithful := by
  have hgroups : ∀ a ∈ (c₀.usesOfGroups own.attributeGroups).1, a.Faithful := by
    intro a ha
    obtain ⟨hnodup, hflattens⟩ := c₀.flattens_usesOfGroups own.attributeGroups
    obtain ⟨-, g, hg, hmem⟩ := hflattens.exists_declared (lastUse?_of_mem hnodup ha)
    obtain ⟨e, he, rfl⟩ := List.mem_map.1 hg
    exact h.attributeGroups e he a hmem
  rw [Components.usesToLookUp, ownUses]
  refine List.foldlRecOn (motive := fun uses : List AttributeUse => ∀ a ∈ uses, a.Faithful) _ _
    hgroups fun uses huses a ha => ?_
  refine List.forall_mem_append.2 ⟨fun b hb => ?_, List.forall_mem_singleton.2 (hown a ha)⟩
  exact huses b (List.mem_filter.1 hb).1

theorem Attributed.found (h : Attributed c₀ keys own uses) (hfaithful : c₀.Faithful)
    (hown : own.Faithful) : List.Forall₂ (Found c₀ keys)
      (c₀.usesToLookUp own.attributes own.attributeGroups) uses := by
  refine List.Forall₂.imp (fun a a' ⟨ha, hused⟩ => ⟨hused, ?_⟩)
    ((List.forall₂_and_left _ _).2 ⟨hfaithful.usesToLookUp hown, h⟩)
  obtain ⟨t?, -, rfl⟩ := hused
  obtain ⟨hname, huse, href⟩ := hfaithful.dereferenced ha
  exact ⟨hname, congrArg (fun u => decide (u = Use.prohibited)) huse, href⟩

theorem nodup_usesToLookUp (c : Components) (own : List AttributeUse) (groups : List Name) :
    ((c.usesToLookUp own groups).map AttributeUse.name).Nodup :=
  nodup_ownUses (c.flattens_usesOfGroups groups).1 own

/-- What is looked up for a type has different names and refers to nothing any more. -/
theorem Attributed.nodup (h : Attributed c₀ keys own uses) (hfaithful : c₀.Faithful)
    (hown : own.Faithful) :
    (uses.map AttributeUse.name).Nodup ∧ ∀ a ∈ uses, a.reference? = none := by
  have hfound := h.found hfaithful hown
  have hplain : List.Forall₂ (fun a' a => a'.reference? = none ∧ Found c₀ keys a a') uses _ :=
    List.Forall₂.flip (hfound.imp fun _ _ h => ⟨h.2.2.2, h⟩)
  refine ⟨?_, ((List.forall₂_and_left _ _).1 hplain).1⟩
  rw [map_name_eq hfound fun _ _ h => h.2.1]
  exact nodup_usesToLookUp ..

/-! ### Types that have been derived -/

/-- What is left of a list of different names without the prohibited uses. -/
theorem clean_pruned (hnodup : (ct.attributes.map AttributeUse.name).Nodup)
    (hplain : ∀ a ∈ ct.attributes, a.reference? = none) : ct.pruned.Clean where
  nodup := hnodup.sublist (List.filter_sublist.map _)
  allowed := fun a ha => by simpa using (List.mem_filter.1 ha).2
  plain := fun a ha => hplain a (List.mem_filter.1 ha).1

theorem attributes_derive_simple (version : Version) (ct : ComplexType) (method : Derivation)
    (b : TypeId) (st : SimpleType) :
    (ct.derive version method b (.simple st)).attributes = ct.attributes := by
  rw [ComplexType.derive]
  split <;> rfl

theorem attributes_derive_complex (version : Version) (ct : ComplexType) (method : Derivation)
    (b : TypeId) (base : ComplexType) :
    (ct.derive version method b (.complex base)).attributes =
      mergeAttributes base.attributes ct.attributes := by
  cases method <;> rfl

theorem clean_anyType : Builtin.anyType.Clean :=
  ⟨List.nodup_nil, fun _ h => absurd h List.not_mem_nil, fun _ h => absurd h List.not_mem_nil⟩

theorem eq_anyType_of_definition {k : String} (h : Builtin.definition k = .complex ct) :
    ct = Builtin.anyType := by
  rw [Builtin.definition] at h
  split at h
  · cases h
    rfl
  · cases h

/-- What a merged list has under a name comes from one of the two. -/
theorem mem_mergeAttributes {base : List AttributeUse} (h : a ∈ mergeAttributes base uses) :
    a ∈ base ∨ a ∈ uses := by
  have hmem : ∀ a ∈ mergeAttributes base uses, a ∈ base ∨ a ∈ uses := by
    refine List.foldlRecOn (motive := fun merged : List AttributeUse =>
      ∀ a ∈ merged, a ∈ base ∨ a ∈ uses) _ _ (fun a ha => .inl ha)
        fun merged hmerged b hb a ha => ?_
    rw [AttributeUse.override] at ha
    split at ha
    · exact hmerged a (List.mem_filter.1 ha).1
    · rcases List.mem_append.1 ha with ha | ha
      · exact hmerged a (List.mem_filter.1 ha).1
      · exact .inr (List.mem_singleton.1 ha ▸ hb)
  exact hmem a h

/-- **What a type comes to is ready for use**, its attributes as well as those that it takes on. -/
theorem Derived.clean {d : TypeDef} (h : Derived c₀ keys t d) (hfaithful : c₀.Faithful)
    (hd : d = .complex ct) : ct.Clean := by
  have hown {t : TypeId} {own : ComplexType} (ht : c₀.types[t.index]? = some (.complex own)) :
      own.Faithful := hfaithful.types own (Array.mem_of_getElem? ht)
  induction h generalizing ct with
  | @simple t st d ht hbased =>
    obtain ⟨_, rfl⟩ := hbased.exists_simple
    cases hd
  | alone ht huses =>
    cases hd
    obtain ⟨hnodup, hplain⟩ := huses.nodup hfaithful (hown ht)
    exact clean_pruned hnodup hplain
  | @derived t u own uses method base d ht huses _ _ _ ih =>
    cases hd
    obtain ⟨hnodup, hplain⟩ := huses.nodup hfaithful (hown ht)
    cases d with
    | simple st =>
      refine clean_pruned ?_ ?_
      · rw [attributes_derive_simple]
        exact hnodup
      · rw [attributes_derive_simple]
        exact hplain
    | complex before =>
      have hbefore := ih rfl
      refine clean_pruned ?_ fun a ha => ?_
      · rw [attributes_derive_complex]
        exact nodup_mergeAttributes hbefore.nodup _
      · rw [attributes_derive_complex] at ha
        exact (mem_mergeAttributes ha).elim (hbefore.plain a) (hplain a)
  | builtin => exact eq_anyType_of_definition hd ▸ clean_anyType

theorem attributes_of_withoutIdleGroup {before : ComplexType}
    (h : withoutIdleGroup (.complex before) = .complex ct) : ct.attributes = before.attributes := by
  rw [withoutIdleGroup] at h
  split at h
  · split at h <;> cases h <;> rfl
  · cases h
    rfl

section Outcome

variable (hmidway : Midway c₀ T keys c') (hframe : Frame c' final)
  (htypes : final.types = c'.types.map withoutIdleGroup)

include hmidway hframe htypes

theorem Used.looksUp (h : Used c₀ keys a a') : final.finish.LooksUp c₀ a a' := by
  obtain ⟨t?, ht, rfl⟩ := h
  refine ⟨t?, ?_, rfl⟩
  generalize (c₀.dereferenced a).typeRef = ref at ht
  cases ht with
  | unspecified => exact .unspecified
  | definition t => exact .definition t
  | named hn => exact .named (hn.namesType hmidway hframe htypes)

/-- What goes before what the base of a type lists. -/
theorem lists_of_over (hfound : List.Forall₂ (Found c₀ keys)
      (c₀.usesToLookUp own.attributes own.attributeGroups) uses) {inherited? : Option AttributeUse}
    (hinherits : final.finish.Inherits own n inherited?) :
    final.finish.Lists c₀ own (lastUse? (c₀.usesOfGroups own.attributeGroups).1) n
      (AttributeUse.over? (lastUse? uses n) inherited?) := by
  have hflattens := (c₀.flattens_usesOfGroups own.attributeGroups).2
  have hrel := rel_lastUse? hfound (fun _ _ h => h.2.1) n
  rw [usesToLookUp, lastUse?_ownUses] at hrel
  cases hown : lastUse? own.attributes n with
  | some a =>
    rw [hown] at hrel
    generalize lastUse? uses n = b? at hrel ⊢
    obtain ⟨hused, -, hprohibited, -⟩ := hrel
    rw [AttributeUse.over?, hprohibited]
    cases hp : a.prohibited with
    | true => exact .prohibited hown hp
    | false => exact .own hown hp (hused.looksUp hmidway hframe htypes)
  | none =>
    rw [hown, Option.none_or] at hrel
    cases hgiven : lastUse? (c₀.usesOfGroups own.attributeGroups).1 n with
    | some a =>
      rw [hgiven] at hrel
      generalize lastUse? uses n = b? at hrel ⊢
      obtain ⟨hused, -, hprohibited, -⟩ := hrel
      have hp := hflattens.not_prohibited hgiven
      rw [AttributeUse.over?, hprohibited, hp]
      exact .given hown hgiven hp (hused.looksUp hmidway hframe htypes)
    | none =>
      rw [hgiven] at hrel
      generalize lastUse? uses n = b? at hrel ⊢
      cases hrel
      exact .inherited hown hgiven hinherits

/-- **What a type lists under each name**, given that the types of its base are there as what they
come to. -/
theorem Derived.lists (hfaithful : c₀.Faithful) (h : Derived c₀ keys t (.complex ct))
    (ht : c₀.types[t.index]? = some (.complex own))
    (hbases : ∀ method base u d, own.derivation? = some (method, base) →
      Named c₀ keys base (some u) → Derived c₀ keys u d → c'.types[u.index]? = some d) (n : Name) :
    final.finish.Lists c₀ own (lastUse? (c₀.usesOfGroups own.attributeGroups).1) n
      (lastUse? ct.attributes n) := by
  have hown : own.Faithful := hfaithful.types own (Array.mem_of_getElem? ht)
  generalize hd : TypeDef.complex ct = d at h
  cases h with
  | simple ht' => cases ht.symm.trans ht'
  | builtin => exact absurd rfl (ne_builtinId ht _)
  | alone ht' huses hnone =>
    cases ht.symm.trans ht'
    cases hd
    have hnodup := (huses.nodup hfaithful hown).1
    change final.finish.Lists c₀ own _ n (lastUse? (List.filter _ _) n)
    rw [ComplexType.withUses, lastUse?_filter hnodup]
    refine lists_of_over hmidway hframe htypes (huses.found hfaithful hown) ?_
    cases hderivation : own.derivation? with
    | none => exact .baseless hderivation
    | some derivation =>
      exact .unknown hderivation ((hnone _ _ hderivation).namesType hmidway hframe htypes)
  | @derived _ u _ uses method base d ht' huses hderivation hnamed hbase =>
    cases ht.symm.trans ht'
    cases hd
    have hnodup := (huses.nodup hfaithful hown).1
    have hfound := huses.found hfaithful hown
    have hnames := hnamed.namesType hmidway hframe htypes
    have htype : final.finish.type? u = some (withoutIdleGroup d) := by
      rw [type?_finish htypes, hbases _ _ _ _ hderivation hnamed hbase, Option.map_some]
    change final.finish.Lists c₀ own _ n (lastUse? (List.filter _ _) n)
    cases d with
    | simple st =>
      rw [attributes_derive_simple, ComplexType.withUses, lastUse?_filter hnodup]
      exact lists_of_over hmidway hframe htypes hfound (.simple hderivation hnames htype)
    | complex before =>
      obtain ⟨base', hbase'⟩ := exists_withoutIdleGroup_complex before
      rw [hbase'] at htype
      have hclean := hbase.clean hfaithful rfl
      have hmerged := nodup_mergeAttributes hclean.nodup uses
      rw [attributes_derive_complex, ComplexType.withUses, lastUse?_filter hmerged,
        lastUse?_mergeAttributes]
      -- nothing that the base lists is prohibited, so that nothing else is left out
      have hover : AttributeUse.over? (AttributeUse.over? (lastUse? uses n)
          (lastUse? before.attributes n)) none =
            AttributeUse.over? (lastUse? uses n) (lastUse? before.attributes n) := by
        refine AttributeUse.over?_none fun a ha => ?_
        rcases AttributeUse.over?_eq_some.1 ha with ⟨-, hp⟩ | ⟨-, hinherited⟩
        · exact hp
        · exact hclean.allowed a (mem_of_lastUse? hinherited)
      rw [hover, ← attributes_of_withoutIdleGroup hbase']
      exact lists_of_over hmidway hframe htypes hfound (.complex hderivation hnames htype)

end Outcome

/-- Only a complex type comes to one. -/
theorem Derived.exists_own (h : Derived c₀ keys t (.complex ct)) (ht : t.index < c₀.types.size) :
    ∃ own, c₀.types[t.index]? = some (.complex own) := by
  generalize hd : TypeDef.complex ct = d at h
  cases h with
  | simple _ hbased =>
    obtain ⟨_, rfl⟩ := hbased.exists_simple
    cases hd
  | alone ht' => exact ⟨_, ht'⟩
  | derived ht' => exact ⟨_, ht'⟩
  | builtin => exact absurd rfl (ne_builtinId (Array.getElem?_eq_getElem ht) _)

/-- What stands behind the types of the documents is built in. -/
theorem Midway.exists_definition (hmidway : Midway c₀ T keys c') (ht : c₀.types.size ≤ t.index)
    {d : TypeDef} (hd : c'.types[t.index]? = some d) : ∃ k, d = Builtin.definition k := by
  rw [hmidway.types, Array.getElem?_append_right (by rw [hmidway.size]; exact ht),
    List.getElem?_toArray] at hd
  obtain ⟨k, -, hk⟩ := List.mem_map.1 (List.mem_of_getElem? hd)
  exact ⟨k, hk.symm⟩

/-! ### Grammars -/

/-- Expanding the model group of a type leaves its attributes and its base alone. -/
theorem exists_of_expandTypes (h : (expandTypes.run c).2.types[t.index]? = some (.complex ct)) :
    ∃ own, c.types[t.index]? = some (.complex own) ∧ ct.attributes = own.attributes ∧
      ct.attributeGroups = own.attributeGroups ∧ ct.derivation? = own.derivation? := by
  rw [types_expandTypes, Array.getElem?_map] at h
  obtain ⟨d, hd, hexpand⟩ := Option.map_eq_some_iff.1 h
  cases d with
  | simple st => cases hexpand
  | complex own =>
    refine ⟨own, hd, ?_⟩
    rw [expandType] at hexpand
    split at hexpand <;> cases hexpand <;> exact ⟨rfl, rfl, rfl⟩

theorem lists_of_expandTypes {g : Grammar}
    {given : Name → Option AttributeUse} {a? : Option AttributeUse}
    (h : g.Lists (expandTypes.run c).2 ct given n a?) (hattributes : ct.attributes = own.attributes)
    (hderivation : ct.derivation? = own.derivation?) : g.Lists c own given n a? := by
  cases h with
  | prohibited hown hp => exact .prohibited (hattributes ▸ hown) hp
  | own hown hp hlooked => exact .own (hattributes ▸ hown) hp hlooked
  | given hown hgiven hp hlooked => exact .given (hattributes ▸ hown) hgiven hp hlooked
  | inherited hown hgiven hinherits =>
    refine .inherited (hattributes ▸ hown) hgiven ?_
    cases hinherits with
    | baseless hbase => exact .baseless (hderivation ▸ hbase)
    | unknown hbase hnone => exact .unknown (hderivation ▸ hbase) hnone
    | simple hbase hnamed hb => exact .simple (hderivation ▸ hbase) hnamed hb
    | complex hbase hnamed hb => exact .complex (hderivation ▸ hbase) hnamed hb

/-- Expansion leads around no new circles. -/
theorem Grounded.expandTypes (h : Grounded c t) : Grounded (expandTypes.run c).2 t :=
  fun u hu hcircle => h u (hu.lift id fun _ _ => derivesFrom_expandTypes)
    (hcircle.lift id fun _ _ => derivesFrom_expandTypes)

/-- What all types are in the end: the types whose way up ends have come to what they come to, and
what is wrong with any of them is reported in one piece. -/
theorem exists_lookedUp (hc : c.Intact) (hbuiltins : c.builtins = []) :
    ∃ T keys, Midway (expandTypes.run c).2 T keys c.lookedUp ∧
      (∀ (t : TypeId) d, (expandTypes.run c).2.types[t.index]? = some d →
        Grounded (expandTypes.run c).2 t →
          ∃ d', c.lookedUp.types[t.index]? = some d' ∧ Derived (expandTypes.run c).2 keys t d') ∧
      ∀ (t : TypeId) ct, (expandTypes.run c).2.types[t.index]? = some (.complex ct) →
        ((expandTypes.run c).2.derivationFaults (.complex ct)).map Fault.problem <:+:
          c.lookedUp.problems.toList := by
  have hsettled := settled_expandTypes hc
  have hstart : Midway (expandTypes.run c).2 (expandTypes.run c).2.types []
      (expandTypes.run c).2 := by
    refine ⟨.refl _, rfl, by simp, fun k => ?_, List.nodup_nil⟩
    change c.builtins.lookup k = _
    rw [hbuiltins]
    rfl
  obtain ⟨done, keys, hcourse, hdone⟩ :=
    exists_course (fun _ _ => NameTable.sound_find? hsettled.intact.globalTypes) hstart
  obtain ⟨T, hT⟩ := hcourse.midway
  obtain ⟨keys', hkeys, hmidway⟩ := calls_typeElements _ _ hT
  have hgrows := (asksInTurn_typeElements
    ((resolveBases >>= fun _ => deriveTypes).run (expandTypes.run c).2).2).1.problems
  refine ⟨T, keys', hmidway, fun t d ht hgrounded => ?_, fun t ct ht => ?_⟩
  · have hlt := (Array.getElem?_eq_some_iff.1 ht).1
    obtain ⟨d', hd', hderived⟩ := hcourse.types t d ht
    rw [if_pos (hdone t hlt)] at hderived
    refine ⟨d', ?_, (hderived hgrounded).mono hkeys⟩
    rw [lookedUp, hmidway.getElem?_types hlt, ← hT.getElem?_types hlt, hd']
  · have hlt := (Array.getElem?_eq_some_iff.1 ht).1
    rw [lookedUp]
    exact (hcourse.reported t (hdone t hlt) ct ht).trans hgrows.isInfix

/-- What has been reported is among the problems of the grammar. -/
theorem prefix_problems_finish (c : Components) :
    c.problems.toList <+: c.concluded.finish.problems.toList := by
  rw [finish, concluded]
  simp only [Array.toList_append, Array.toList_appendList, List.append_assoc]
  exact List.prefix_append _ _

end Components

namespace Grammar

open Components (Grounded)

/-- **Lists of attributes are clean.**  References to groups of attributes come to something,
whatever the groups refer to, with one fault for each reference that closes a circle or leads to no
group.  And a complex type of a grammar whose way up to its bases ends lists different names,
nothing prohibited and no reference to a global attribute, and under each name what it is to list;
what is wrong with its references to groups is among the problems of the grammar. -/
theorem clean_of_build {version : Version} {limits : Limits} {docs : List Submission} {g : Grammar}
    (hg : ((Components.empty version limits).after docs).build = .ok g) :
    let c := (Components.empty version limits).after docs
    (∀ (c' : Components) refs, Flattens c'.attributeGroups [] refs
      (lastUse? (c'.usesOfGroups refs).1) (c'.usesOfGroups refs).2) ∧
    ∀ t ct, Grounded c t → g.type? t = some (.complex ct) → ct.Clean ∧
      ((∃ own given faults, c.types[t.index]? = some (.complex own) ∧
          Flattens c.attributeGroups [] own.attributeGroups given faults ∧
          faults.map Fault.problem <:+: g.problems.toList ∧
          ∀ n, g.Lists c own given n (lastUse? ct.attributes n)) ∨
        c.types.size ≤ t.index ∧ ct = Builtin.anyType) := by
  intro c
  refine ⟨fun c' refs => (c'.flattens_usesOfGroups refs).2, fun t ct hgrounded hct => ?_⟩
  obtain ⟨hintact, hgrows⟩ :=
    Components.intact_after (Components.intact_empty version limits) docs
  have hfaithful := (Components.faithful_after version limits docs).expandTypes
  have hsettled := Components.settled_expandTypes hintact
  obtain ⟨T, keys, hmidway, houtcomes, hreported⟩ :=
    Components.exists_lookedUp hintact hgrows.builtins
  have hframe := Components.frame_concluded c.lookedUp
  obtain rfl := Components.finish_of_build hg
  rw [Components.type?_finish rfl] at hct
  obtain ⟨d, hd, hidle⟩ := Option.map_eq_some_iff.1 hct
  obtain ⟨before, rfl⟩ := Components.exists_complex_of_withoutIdleGroup hidle
  have hattributes := Components.attributes_of_withoutIdleGroup hidle
  have hsize : (Components.expandTypes.run c).2.types.size = c.types.size := by
    rw [Components.types_expandTypes, Array.size_map]
  rcases Nat.lt_or_ge t.index (Components.expandTypes.run c).2.types.size with hlt | hge
  · obtain ⟨d', hd', hderived⟩ :=
      houtcomes t _ (Array.getElem?_eq_getElem hlt) hgrounded.expandTypes
    cases hd.symm.trans hd'
    obtain ⟨own₀, hown₀⟩ := hderived.exists_own hlt
    obtain ⟨own, hown, huses, hgroups, hderivation⟩ := Components.exists_of_expandTypes hown₀
    have hflattens := (c.flattens_usesOfGroups own.attributeGroups).2
    have hbases (method : Derivation) (base : Name) (u : TypeId) (d : TypeDef)
        (hbase : own₀.derivation? = some (method, base))
        (hnamed : Components.Named (Components.expandTypes.run c).2 keys base (some u))
        (hu : Components.Derived (Components.expandTypes.run c).2 keys u d) :
        c.lookedUp.types[u.index]? = some d := by
      cases hnamed with
      | global hn =>
        have hult := NameTable.sound_find? hsettled.intact.globalTypes hn
        obtain ⟨d', hd', hderived'⟩ := houtcomes u _ (Array.getElem?_eq_getElem hult)
          (hgrounded.expandTypes.base ⟨own₀, method, base, hown₀, hbase, hn⟩)
        rw [hd', hderived'.unique hu rfl]
      | builtin hn hbuiltin hk =>
        rw [hmidway.getElem?_builtin hk, (Components.Derived.builtin hk).unique hu rfl]
    refine ⟨(hderived.clean hfaithful rfl).of_eq hattributes, .inl ⟨own, _, _, hown, hflattens, ?_,
      fun n => ?_⟩⟩
    · have hfaults := hreported t own₀ hown₀
      rw [Components.derivationFaults, Components.usesFaults, hgroups, List.append_assoc,
        List.map_append] at hfaults
      exact ((List.prefix_append _ _).isInfix.trans hfaults).trans
        (Components.prefix_problems_finish _).isInfix
    · have hlists := hderived.lists hmidway hframe rfl hfaithful hown₀ hbases n
      rw [hgroups, ← hattributes] at hlists
      exact Components.lists_of_expandTypes hlists huses hderivation
  · obtain ⟨k, hk⟩ := hmidway.exists_definition hge hd
    rw [hk, Components.withoutIdleGroup_definition] at hidle
    have hany := Components.eq_anyType_of_definition hidle
    exact ⟨hany ▸ Components.clean_anyType, .inr ⟨hsize ▸ hge, hany⟩⟩

/-- A group of attributes that refers to itself, and a type that refers to it and takes an attribute
away. -/
def selfishGroup : Submission where
  text := "<s:schema xmlns:s='http://www.w3.org/2001/XMLSchema'>" ++
    "<s:attributeGroup name='G'><s:attribute name='b'/><s:attributeGroup ref='G'/>" ++
    "</s:attributeGroup><s:complexType name='T'><s:attribute name='a' use='prohibited'/>" ++
    "<s:attributeGroup ref='G'/></s:complexType></s:schema>"
  location := .path "selfish.xsd"

/-- The type lists the attribute of the group, and not the one that is taken away. -/
theorem clean_of_build_selfishGroup :
    let c := (Components.empty .v10 {}).after [selfishGroup]
    ∃ g ct, c.build = .ok g ∧ Grounded c ⟨0⟩ ∧ g.type? ⟨0⟩ = some (.complex ct) ∧
      ct.attributes.map (·.name.localName) = ["b"] ∧ ct.Clean := by
  have hsmall : ((Components.empty .v10 {}).after [selfishGroup]).Layered ∧
      ∃ g ∈ ((Components.empty .v10 {}).after [selfishGroup]).build.toOption,
        ((g.type? ⟨0⟩).bind (·.complex?)).map (·.attributes.map (·.name.localName)) =
          some ["b"] := by
    decide +kernel
  obtain ⟨hlayered, g, hbuild, hread⟩ := hsmall
  obtain ⟨ct, hct, hnames⟩ := Option.map_eq_some_iff.1 hread
  obtain ⟨d, hd, hcomplex⟩ := Option.bind_eq_some_iff.1 hct
  obtain rfl : d = .complex ct := by
    cases d with
    | simple st => cases hcomplex
    | complex ct' =>
      cases hcomplex
      rfl
  have hg := Components.build_of_mem hbuild
  have hgrounded : Grounded ((Components.empty .v10 {}).after [selfishGroup]) ⟨0⟩ :=
    fun u _ => hlayered.acyclic.types u
  exact ⟨g, ct, hg, hgrounded, hd, hnames, ((clean_of_build hg).2 ⟨0⟩ ct hgrounded hd).1⟩

end Grammar
end SchemaAssist
