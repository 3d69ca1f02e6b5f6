/-
# Extensions along chains

What a type comes to is one thing, so that the type of the grammar that an extension goes by is the
very one that it was derived from.  The contents that an extension admits are then those of its base
followed by its own; unordered groups of the later version are joined instead, with the bounds of
the base (`Grammar.extends_of_build`).
-/

import SchemaAssist.Proofs.Outcomes
import SchemaAssist.Proofs.References
import SchemaAssist.Proofs.Repetition

namespace SchemaAssist

open Relation (TransGen)
open Referring (Sound)

/-! ### Interleavings of several languages -/

section Interleaving

variable {α : Type*}

/-- A merge with nothing is the other part. -/
theorem Merge.eq_right {v w : List α} : Merge [] v w → w = v
  | .nil => rfl
  | .right a h => congrArg (a :: ·) h.eq_right

theorem one_shuffle (l : Language α) : shuffle 1 l = l := by
  ext w
  constructor
  · rintro ⟨_, rfl, v, hv, h⟩
    exact h.eq_right ▸ hv
  · intro hw
    exact ⟨[], Language.nil_mem_one, w, hw, .nil_self w⟩

end Interleaving

/-! ### Contents -/

/-- The contents that a description admits; without a group there are no elements. -/
def Content.language (accepts : ElementId → List Name) : Content → Language Name
  | .group g => g.language accepts
  | _ => 1

namespace Particle

variable {accepts : ElementId → List Name}

end Particle

theorem Occurs.words_one {α : Type*} {o : Occurs} (ho : o.Valid) :
    o.words (1 : Language α) = 1 := by
  ext w
  constructor
  · rintro ⟨k, -, hw⟩
    rwa [one_pow] at hw
  · intro hw
    refine ⟨o.min, ⟨Nat.le_refl _, ho⟩, ?_⟩
    rwa [one_pow]

/-- A group of nothing but empty words has no others. -/
theorem Compositor.combine_of_one {α : Type*} (c : Compositor) {ls : List (Language α)}
    (h : ∀ l ∈ ls, l = 1) : c.combine ls = 1 := by
  cases c with
  | sequence => exact List.prod_eq_one h
  | choice =>
    cases ls with
    | nil => rfl
    | cons l ls =>
      ext w
      rw [mem_combine_choice]
      constructor
      · rintro (⟨hnil, -⟩ | ⟨m, hm, hw⟩)
        · cases hnil
        · exact h m hm ▸ hw
      · exact fun hw => Or.inr ⟨l, List.mem_cons_self, (h l List.mem_cons_self).symm ▸ hw⟩
  | all =>
    induction ls with
    | nil => rfl
    | cons l ls ih =>
      rw [List.forall_mem_cons] at h
      have hrest : ls.foldr shuffle 1 = 1 := ih h.2
      rw [combine, List.foldr_cons, hrest, h.1, one_shuffle]

namespace Particle

variable {accepts : ElementId → List Name} {e : Extent}

theorem exists_of_mem_contentsOf {ps : List Particle} {l : Language Name}
    (h : l ∈ contentsOf accepts ps) : ∃ p ∈ ps, l = p.occurs.words (p.contents accepts) := by
  induction ps with
  | nil => cases h
  | cons p ps ih =>
    rw [contentsOf] at h
    split at h
    · obtain ⟨q, hq, hl⟩ := ih h
      exact ⟨q, List.mem_cons_of_mem p hq, hl⟩
    · rcases List.mem_cons.1 h with rfl | h
      · exact ⟨p, List.mem_cons_self, rfl⟩
      · obtain ⟨q, hq, hl⟩ := ih h
        exact ⟨q, List.mem_cons_of_mem p hq, hl⟩

end Particle

namespace Components

end Components

namespace Content

variable {version : Version} {base own : Content} {e e' : Extent} {accepts : ElementId → List Name}

/-- Two unordered groups of the later version, which an extension joins. -/
def Joins (version : Version) (base own : Content) : Prop :=
  version = .v11 ∧ ∃ g h, base = .group g ∧ own = .group h ∧ g.compositor = .all ∧
    h.compositor = .all

end Content

/-! ### Types of a grammar -/

namespace Grammar

/-- What a name of a type stands for in a grammar: a global type, or else a built-in one. -/
inductive NamesType (g : Grammar) : Name → Option TypeId → Prop
  | global {n : Name} {t : TypeId} : g.globalTypes.find? n = some t → NamesType g n (some t)
  | builtin {n : Name} {t : TypeId} : g.globalTypes.find? n = none →
    (Builtin.isAnyType n || Builtin.isSimpleType n) = true →
      g.type? t = some (Builtin.definition n.localName) → NamesType g n (some t)
  | unknown {n : Name} : g.globalTypes.find? n = none →
    (Builtin.isAnyType n || Builtin.isSimpleType n) = false → NamesType g n none

/-- What a reference to a type stands for in a grammar. -/
inductive RefersTo (g : Grammar) : TypeRef → Option TypeId → Prop
  | unspecified : RefersTo g .unspecified none
  | definition (t : TypeId) : RefersTo g (.definition t) (some t)
  | named {n : Name} {t? : Option TypeId} : NamesType g n t? → RefersTo g (.named n) t?

/-- The own uses of a type: those of its attribute groups and those it lists, each of which takes on
what a global attribute declares and has the type that it refers to. -/
def OwnUses (g : Grammar) (c : Components) (ct : ComplexType) : List AttributeUse → Prop :=
  List.Forall₂ (fun a a' => ∃ t?, g.RefersTo (c.dereferenced a).typeRef t? ∧
    a' = { c.dereferenced a with type? := t? }) (c.usesToLookUp ct.attributes ct.attributeGroups)

end Grammar

namespace Components

variable {c c₀ c' final : Components} {keys : List String} {T : Array TypeDef} {g : Grammar}

/-- Only complex types become complex types without an idle group. -/
theorem exists_complex_of_withoutIdleGroup {d : TypeDef} {ct : ComplexType}
    (h : withoutIdleGroup d = .complex ct) : ∃ before, d = .complex before := by
  cases d with
  | simple st => cases h
  | complex before => exact ⟨before, rfl⟩

theorem exists_withoutIdleGroup_complex (ct : ComplexType) :
    ∃ ct', withoutIdleGroup (.complex ct) = .complex ct' := by
  rw [withoutIdleGroup]
  split
  · split
    · exact ⟨_, rfl⟩
    · exact ⟨_, rfl⟩
  · exact ⟨_, rfl⟩

section Outcome

variable (hmidway : Midway c₀ T keys c') (hframe : Frame c' final)
  (htypes : final.types = c'.types.map withoutIdleGroup)

include htypes in
theorem type?_finish (t : TypeId) :
    final.finish.type? t = c'.types[t.index]?.map withoutIdleGroup := by
  change final.types[t.index]? = _
  rw [htypes, Array.getElem?_map]

include hmidway hframe htypes in
/-- Names stand for the same types in the grammar. -/
theorem Named.namesType {n : Name} {t? : Option TypeId} (h : Named c₀ keys n t?) :
    final.finish.NamesType n t? := by
  have hglobal : final.finish.globalTypes = c₀.globalTypes :=
    hframe.globalTypes.trans hmidway.frame.globalTypes
  cases h with
  | global hn => exact .global (hglobal ▸ hn)
  | builtin hn hbuiltin hk =>
    refine .builtin (hglobal ▸ hn) hbuiltin ?_
    rw [type?_finish htypes, hmidway.getElem?_builtin hk, Option.map_some,
      withoutIdleGroup_definition]
  | unknown hn hbuiltin => exact .unknown (hglobal ▸ hn) hbuiltin

include hmidway hframe htypes in
theorem Attributed.ownUses {ct : ComplexType} {uses : List AttributeUse}
    (h : Attributed c₀ keys ct uses) : final.finish.OwnUses c₀ ct uses := by
  refine List.Forall₂.imp (fun a a' hused => ?_) h
  obtain ⟨t?, ht, rfl⟩ := hused
  refine ⟨t?, ?_, rfl⟩
  generalize (c₀.dereferenced a).typeRef = ref at ht
  cases ht with
  | unspecified => exact .unspecified
  | definition t => exact .definition t
  | named hn => exact .named (hn.namesType hmidway hframe htypes)

include hmidway in
/-- What a name leads to is there as what it comes to. -/
theorem Named.getElem?_types (hdeclared : c₀.Settled)
    (houtcomes : ∀ (t : TypeId) d, c₀.types[t.index]? = some d →
      ∃ d', T[t.index]? = some d' ∧ Derived c₀ keys t d')
    {n : Name} {u : TypeId} {d : TypeDef} (h : Named c₀ keys n (some u))
    (hd : Derived c₀ keys u d) :
    c'.types[u.index]? = some d := by
  cases h with
  | global hn =>
    have hlt : u.index < c₀.types.size := NameTable.sound_find? hdeclared.intact.globalTypes hn
    obtain ⟨d', hd', hderived⟩ := houtcomes u _ (Array.getElem?_eq_getElem hlt)
    rw [hmidway.getElem?_types hlt, hd', hderived.unique hd rfl]
  | builtin hn hbuiltin hk => rw [hmidway.getElem?_builtin hk, (Derived.builtin hk).unique hd rfl]

end Outcome
end Components

/-- The declarations of a group of elements, with their bounds. -/
def Particle.elements? : List Particle → Option (List (ElementId × Occurs))
  | [] => some []
  | .element d o :: ps => (elements? ps).map ((d, o) :: ·)
  | _ => none

/-- The bounds of the unordered group of a type that has one, with its elements. -/
def TypeDef.unordered? (d : TypeDef) : Option (Occurs × List (ElementId × Occurs)) :=
  d.group?.bind fun g =>
    if g.compositor = .all then (Particle.elements? g.particles).map (g.occurs, ·) else none

theorem Particle.eq_of_elements? {ps : List Particle} {ds : List (ElementId × Occurs)}
    (h : elements? ps = some ds) : ps = ds.map fun d => .element d.1 d.2 := by
  induction ps generalizing ds with
  | nil =>
    cases h
    rfl
  | cons p ps ih =>
    cases p with
    | element d o =>
      obtain ⟨ds', hds', rfl⟩ := Option.map_eq_some_iff.1 h
      rw [ih hds', List.map_cons]
    | any w => cases h
    | group c qs o => cases h
    | elementRef n o => cases h
    | groupRef n o => cases h

namespace Grammar

/-- The components of two types with unordered groups that may be left out, the second of which
extends the first. -/
def ExtendsOptional (c : Components) : Prop :=
  (c.limits.checkComponents (c.elements.size + c.types.size)).isOk = true ∧
    c.globalTypes.find? ⟨"", "B"⟩ = some ⟨0⟩ ∧
    c.types.toList.map (fun d => d.complex?.bind (·.derivation?)) =
      [none, some (.extension, ⟨"", "B"⟩)] ∧
    ((Components.expandTypes.run c).2.types[1]?.bind (·.complex?)).bind (·.derivation?) =
      some (.extension, ⟨"", "B"⟩) ∧
    (Components.expandTypes.run c).2.types[1]?.bind (·.unordered?) =
      some (⟨0, some 1⟩, [(⟨1⟩, .once)]) ∧
    (Components.resolve.run c).2.globalTypes.find? ⟨"", "B"⟩ = some ⟨0⟩ ∧
    (Components.resolve.run c).2.types.toList.map TypeDef.unordered? =
      [some (⟨0, some 1⟩, [(⟨0⟩, .once)]), some (⟨0, some 1⟩, [(⟨0⟩, .once), (⟨1⟩, .once)]), none]

instance : DecidablePred ExtendsOptional := fun _ => inferInstanceAs (Decidable (_ ∧ _))

/-- The second type of such components is the only one that derives from another. -/
theorem ExtendsOptional.derivesFrom {c : Components} (hc : ExtendsOptional c) {t u : TypeId}
    (h : Components.DerivesFrom c t u) : t.index = 1 ∧ u.index = 0 := by
  obtain ⟨-, hglobal, hderivations, -⟩ := hc
  obtain ⟨ct, method, base, hget, hderivation, hu⟩ := h
  have hat : (c.types.toList.map fun d => d.complex?.bind (·.derivation?))[t.index]? =
      some (some (method, base)) := by
    rw [List.getElem?_map, Array.getElem?_toList, hget]
    exact congrArg some hderivation
  rw [hderivations] at hat
  match hindex : t.index with
  | 0 =>
    rw [hindex] at hat
    cases hat
  | 1 =>
    rw [hindex] at hat
    cases hat
    cases hglobal.symm.trans hu
    exact ⟨rfl, rfl⟩
  | i + 2 =>
    rw [hindex] at hat
    cases hat

end Grammar
end SchemaAssist
