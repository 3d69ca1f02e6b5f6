/-
# Identifiers and their renaming

Declarations, types and documents are referred to by their places in tables.  Data that may hold
such references (`Referring`) can be renamed, and it is sound as far as there are declarations, types
and documents (`Extent`) if everything that it refers to is there.  Bounds on occurrences, which
stand in the same data, are asked to be in order at the same time.  Renaming sees nothing but the
identifiers that sound data holds (`Referring.rename_congr`).
-/

import SchemaAssist.Proofs.Origins
import SchemaAssist.Schema.Document

namespace SchemaAssist

/-! ### What there is to refer to -/

/-- How many declarations, types and documents there are. -/
structure Extent where
  elements : Nat
  types : Nat
  documents : Nat

namespace Extent

instance : LE Extent :=
  ⟨fun e e' => e.elements ≤ e'.elements ∧ e.types ≤ e'.types ∧ e.documents ≤ e'.documents⟩

theorem le_refl (e : Extent) : e ≤ e := ⟨Nat.le_refl _, Nat.le_refl _, Nat.le_refl _⟩

theorem le_trans {e e' e'' : Extent} (h : e ≤ e') (h' : e' ≤ e'') : e ≤ e'' :=
  ⟨Nat.le_trans h.1 h'.1, Nat.le_trans h.2.1 h'.2.1, Nat.le_trans h.2.2 h'.2.2⟩

end Extent

/-- New identifiers for declarations, types and documents. -/
structure Renaming where
  element : ElementId → ElementId
  type : TypeId → TypeId
  document : Nat → Nat

namespace Renaming

/-- Every identifier stays. -/
def id : Renaming := ⟨fun d => d, fun t => t, fun n => n⟩

/-- One renaming after another. -/
def comp (ρ σ : Renaming) : Renaming :=
  ⟨fun d => ρ.element (σ.element d), fun t => ρ.type (σ.type t), fun n => ρ.document (σ.document n)⟩

/-- The identifiers behind those of an extent. -/
def shift (e : Extent) : Renaming :=
  ⟨fun d => ⟨e.elements + d.index⟩, fun t => ⟨e.types + t.index⟩, fun n => e.documents + n⟩

/-- Two renamings do the same to the identifiers of an extent. -/
structure AgreesOn (e : Extent) (ρ σ : Renaming) : Prop where
  element : ∀ d, d.index < e.elements → ρ.element d = σ.element d
  type : ∀ t, t.index < e.types → ρ.type t = σ.type t
  document : ∀ n, n < e.documents → ρ.document n = σ.document n

/-- A renaming takes what one extent has to what another one has. -/
structure Maps (ρ : Renaming) (e e' : Extent) : Prop where
  element : ∀ d, d.index < e.elements → (ρ.element d).index < e'.elements
  type : ∀ t, t.index < e.types → (ρ.type t).index < e'.types
  document : ∀ n, n < e.documents → ρ.document n < e'.documents

theorem maps_id {e e' : Extent} (h : e ≤ e') : Renaming.id.Maps e e' where
  element _ hd := Nat.lt_of_lt_of_le hd h.1
  type _ ht := Nat.lt_of_lt_of_le ht h.2.1
  document _ hn := Nat.lt_of_lt_of_le hn h.2.2

end Renaming

open Renaming (AgreesOn Maps)

/-! ### Data that may refer to something -/

/-- Data that may refer to declarations, types and documents. -/
class Referring (α : Type) where
  /-- The same with other identifiers. -/
  rename : Renaming → α → α
  /-- Everything that is referred to is there, and all bounds are in order. -/
  Sound : Extent → α → Prop
  sound_rename {e e' : Extent} {ρ : Renaming} {a : α} : ρ.Maps e e' → Sound e a → Sound e' (rename ρ a)
  rename_congr {e : Extent} {ρ σ : Renaming} {a : α} :
    AgreesOn e ρ σ → Sound e a → rename ρ a = rename σ a
  rename_rename (ρ σ : Renaming) (a : α) : rename ρ (rename σ a) = rename (ρ.comp σ) a
  rename_id (a : α) : rename .id a = a

namespace Referring

/-- Data that refers to nothing. -/
@[reducible] def inert (α : Type) : Referring α where
  rename _ a := a
  Sound _ _ := True
  sound_rename _ h := h
  rename_congr _ _ := rfl
  rename_rename _ _ _ := rfl
  rename_id _ := rfl

variable {α β : Type} [Referring α] [Referring β]

/-- What is there stays there if there is more. -/
theorem sound_mono {e e' : Extent} {a : α} (h : e ≤ e') (ha : Sound e a) : Sound e' a := by
  have hsound := sound_rename (Renaming.maps_id h) ha
  rwa [rename_id] at hsound

/-- A renaming that changes no identifier that data holds does not change the data. -/
theorem rename_eq_self {e : Extent} {ρ : Renaming} {a : α} (hρ : AgreesOn e ρ .id)
    (ha : Sound e a) : rename ρ a = a := by
  rw [rename_congr hρ ha, rename_id]

instance : Referring ElementId where
  rename ρ d := ρ.element d
  Sound e d := d.index < e.elements
  sound_rename h hd := h.element _ hd
  rename_congr h hd := h.element _ hd
  rename_rename _ _ _ := rfl
  rename_id _ := rfl

instance : Referring TypeId where
  rename ρ t := ρ.type t
  Sound e t := t.index < e.types
  sound_rename h ht := h.type _ ht
  rename_congr h ht := h.type _ ht
  rename_rename _ _ _ := rfl
  rename_id _ := rfl

instance : Referring PUnit := inert PUnit

instance : Referring String := inert String

instance : Referring Name := inert Name

instance : Referring Schema.Reference := inert Schema.Reference

instance : Referring Occurs where
  rename _ o := o
  Sound _ o := o.Valid
  sound_rename _ h := h
  rename_congr _ _ := rfl
  rename_rename _ _ _ := rfl
  rename_id _ := rfl

instance : Referring Wildcard where
  rename _ w := w
  Sound _ w := w.occurs.Valid
  sound_rename _ h := h
  rename_congr _ _ := rfl
  rename_rename _ _ _ := rfl
  rename_id _ := rfl

instance : Referring (Option α) where
  rename ρ a? := a?.map (rename ρ)
  Sound e a? := ∀ a ∈ a?, Sound e a
  sound_rename h ha b hmem := by
    obtain ⟨a, ha', rfl⟩ := Option.map_eq_some_iff.1 hmem
    exact sound_rename h (ha a ha')
  rename_congr {e ρ σ a?} h ha := by
    cases a? with
    | none => rfl
    | some a => exact congrArg some (rename_congr h (ha a rfl))
  rename_rename ρ σ a? := by
    cases a? with
    | none => rfl
    | some a => exact congrArg some (rename_rename ρ σ a)
  rename_id a? := by
    cases a? with
    | none => rfl
    | some a => exact congrArg some (rename_id a)

instance : Referring (List α) where
  rename ρ as := as.map (rename ρ)
  Sound e as := ∀ a ∈ as, Sound e a
  sound_rename h ha b hmem := by
    obtain ⟨a, ha', rfl⟩ := List.mem_map.1 hmem
    exact sound_rename h (ha a ha')
  rename_congr h ha := List.map_congr_left fun a hmem => rename_congr h (ha a hmem)
  rename_rename ρ σ as := by
    rw [List.map_map]
    exact List.map_congr_left fun a _ => rename_rename ρ σ a
  rename_id as := by
    have hmap : as.map (rename Renaming.id) = as.map fun a => a :=
      List.map_congr_left fun a _ => rename_id a
    rw [hmap, List.map_id']

section Collections

variable {e : Extent} {a : α} {as bs : List α}

theorem sound_none : Sound e (none : Option α) := nofun

theorem sound_some (ha : Sound e a) : Sound e (some a) := by
  rintro b ⟨⟩
  exact ha

theorem sound_nil : Sound e ([] : List α) := nofun

theorem sound_append (has : Sound e as) (hbs : Sound e bs) : Sound e (as ++ bs) := by
  intro a ha
  rcases List.mem_append.1 ha with ha | ha
  · exact has a ha
  · exact hbs a ha

theorem sound_toList {a? : Option α} (h : Sound e a?) : Sound e a?.toList := by
  intro a ha
  exact h a (Option.mem_toList.1 ha)

theorem rename_name? (ρ : Renaming) (n? : Option Name) : rename ρ n? = n? := by
  cases n? <;> rfl

theorem rename_names (ρ : Renaming) (ns : List Name) : rename ρ ns = ns := List.map_id' ns

theorem rename_append (ρ : Renaming) (as bs : List α) :
    rename ρ (as ++ bs) = rename ρ as ++ rename ρ bs := List.map_append

theorem rename_toList (ρ : Renaming) (a? : Option α) :
    rename ρ a?.toList = (rename ρ a?).toList := by
  cases a? <;> rfl

end Collections

instance : Referring (Array α) where
  rename ρ as := as.map (rename ρ)
  Sound e as := ∀ a ∈ as, Sound e a
  sound_rename h ha b hmem := by
    obtain ⟨a, ha', rfl⟩ := Array.mem_map.1 hmem
    exact sound_rename h (ha a ha')
  rename_congr h ha := Array.map_congr_left fun a hmem => rename_congr h (ha a hmem)
  rename_rename ρ σ as := by
    rw [Array.map_map]
    exact Array.map_congr_left fun a _ => rename_rename ρ σ a
  rename_id as := by
    have hmap : as.map (rename Renaming.id) = as.map fun a => a :=
      Array.map_congr_left fun a _ => rename_id a
    rw [hmap, Array.map_id']

instance : Referring (α × β) where
  rename ρ p := (rename ρ p.1, rename ρ p.2)
  Sound e p := Sound e p.1 ∧ Sound e p.2
  sound_rename h hp := ⟨sound_rename h hp.1, sound_rename h hp.2⟩
  rename_congr h hp := Prod.ext (rename_congr h hp.1) (rename_congr h hp.2)
  rename_rename ρ σ p := Prod.ext (rename_rename ρ σ p.1) (rename_rename ρ σ p.2)
  rename_id p := Prod.ext (rename_id p.1) (rename_id p.2)

instance : Referring (NameTable α) where
  rename ρ t := ⟨rename ρ t.entries⟩
  Sound e t := Sound e t.entries
  sound_rename h ht := sound_rename (α := List (Name × α)) h ht
  rename_congr h ht := congrArg NameTable.mk (rename_congr h ht)
  rename_rename ρ σ t := congrArg NameTable.mk (rename_rename ρ σ t.entries)
  rename_id t := congrArg NameTable.mk (rename_id t.entries)

/-! ### Types and attributes -/

instance : Referring TypeRef where
  rename ρ
    | .definition t => .definition (rename ρ t)
    | .named n => .named n
    | .unspecified => .unspecified
  Sound e
    | .definition t => Sound e t
    | _ => True
  sound_rename {e e' ρ a} h ha := by
    cases a with
    | definition t => exact sound_rename (α := TypeId) h ha
    | _ => trivial
  rename_congr {e ρ σ a} h ha := by
    cases a with
    | definition t => exact congrArg TypeRef.definition (rename_congr (α := TypeId) h ha)
    | _ => rfl
  rename_rename ρ σ a := by cases a <;> rfl
  rename_id a := by cases a <;> rfl

instance : Referring AttributeUse where
  rename ρ a := { a with typeRef := rename ρ a.typeRef, type? := rename ρ a.type? }
  Sound e a := Sound e a.typeRef ∧ Sound e a.type?
  sound_rename h ha := ⟨sound_rename h ha.1, sound_rename h ha.2⟩
  rename_congr h ha := by rw [rename_congr h ha.1, rename_congr h ha.2]
  rename_rename ρ σ a := by simp only [rename_rename]
  rename_id a := by simp only [rename_id]

instance : Referring AttributeGroup where
  rename ρ g := { g with attributes := rename ρ g.attributes }
  Sound e g := Sound e g.attributes
  sound_rename {e e' ρ g} h hg := sound_rename (α := List AttributeUse) h hg
  rename_congr h hg := by rw [rename_congr h hg]
  rename_rename ρ σ g := by simp only [rename_rename]
  rename_id g := by simp only [rename_id]

instance : Referring SimpleType where
  rename ρ t := { t with
    base := rename ρ t.base
    base? := rename ρ t.base?
    item := rename ρ t.item
    members := rename ρ t.members }
  Sound e t := Sound e t.base ∧ Sound e t.base? ∧ Sound e t.item ∧ Sound e t.members
  sound_rename h ht := ⟨sound_rename h ht.1, sound_rename h ht.2.1, sound_rename h ht.2.2.1,
    sound_rename h ht.2.2.2⟩
  rename_congr h ht := by
    rw [rename_congr h ht.1, rename_congr h ht.2.1, rename_congr h ht.2.2.1,
      rename_congr h ht.2.2.2]
  rename_rename ρ σ t := by simp only [rename_rename]
  rename_id t := by simp only [rename_id]

end Referring

theorem Occurs.valid_once : Occurs.once.Valid := by
  rintro max ⟨⟩
  exact Nat.le_refl 1

theorem Occurs.valid_anyNumber : Occurs.anyNumber.Valid := by
  rintro max ⟨⟩

/-! ### Particles -/

open Referring (rename Sound sound_mono sound_rename rename_congr rename_rename rename_id)

namespace Particle

mutual

/-- A particle with other identifiers for its elements. -/
def renamed (ρ : Renaming) : Particle → Particle
  | element d o => element (ρ.element d) o
  | any w => any w
  | group c ps o => group c (renamedAll ρ ps) o
  | elementRef n o => elementRef n o
  | groupRef n o => groupRef n o

/-- Particles with other identifiers for their elements. -/
def renamedAll (ρ : Renaming) : List Particle → List Particle
  | [] => []
  | p :: ps => renamed ρ p :: renamedAll ρ ps

end

theorem renamedAll_eq (ρ : Renaming) (ps : List Particle) :
    renamedAll ρ ps = ps.map (renamed ρ) := by
  induction ps with
  | nil => rfl
  | cons p ps ih => rw [renamedAll, ih, List.map_cons]

theorem renamed_group (ρ : Renaming) (c : Compositor) (ps : List Particle) (o : Occurs) :
    (group c ps o).renamed ρ = group c (ps.map (renamed ρ)) o := by
  rw [renamed, renamedAll_eq]

/-- An element is declared, as far as a particle is one. -/
def Declared (e : Extent) : Particle → Prop
  | element d _ => d.index < e.elements
  | _ => True

/-- Everything in a particle is declared, and all its bounds are in order. -/
def SoundIn (e : Extent) (p : Particle) : Prop :=
  ∀ q ∈ p.subtrees, q.occurs.Valid ∧ q.Declared e

theorem soundIn_group {e : Extent} {c : Compositor} {ps : List Particle} {o : Occurs} :
    (group c ps o).SoundIn e ↔ o.Valid ∧ ∀ p ∈ ps, p.SoundIn e := by
  constructor
  · intro h
    refine ⟨(h _ (self_mem_subtrees _)).1, fun p hp q hq => h q ?_⟩
    exact mem_subtrees_group.2 (Or.inr ⟨p, hp, hq⟩)
  · rintro ⟨ho, hps⟩ q hq
    rcases mem_subtrees_group.1 hq with rfl | ⟨p, hp, hq⟩
    · exact ⟨ho, trivial⟩
    · exact hps p hp q hq

theorem soundIn_element {e : Extent} {d : ElementId} {o : Occurs} :
    (element d o).SoundIn e ↔ o.Valid ∧ d.index < e.elements := by
  simp [SoundIn, subtrees, occurs, Declared]

theorem soundIn_any {e : Extent} {w : Wildcard} : (any w).SoundIn e ↔ w.occurs.Valid := by
  simp [SoundIn, subtrees, occurs, Declared]

theorem soundIn_elementRef {e : Extent} {n : Name} {o : Occurs} :
    (elementRef n o).SoundIn e ↔ o.Valid := by
  simp [SoundIn, subtrees, occurs, Declared]

theorem soundIn_groupRef {e : Extent} {n : Name} {o : Occurs} :
    (groupRef n o).SoundIn e ↔ o.Valid := by
  simp [SoundIn, subtrees, occurs, Declared]

theorem SoundIn.renamed {e e' : Extent} {ρ : Renaming} (h : ρ.Maps e e') (p : Particle)
    (hp : p.SoundIn e) : (p.renamed ρ).SoundIn e' := by
  induction p using induct with
  | element d o =>
    obtain ⟨ho, hd⟩ := soundIn_element.1 hp
    exact soundIn_element.2 ⟨ho, h.element d hd⟩
  | any w => exact soundIn_any.2 (soundIn_any.1 hp)
  | group c ps o ih =>
    obtain ⟨ho, hps⟩ := soundIn_group.1 hp
    rw [renamed_group]
    refine soundIn_group.2 ⟨ho, fun q hq => ?_⟩
    obtain ⟨p, hp, rfl⟩ := List.mem_map.1 hq
    exact ih p hp (hps p hp)
  | elementRef n o => exact soundIn_elementRef.2 (soundIn_elementRef.1 hp)
  | groupRef n o => exact soundIn_groupRef.2 (soundIn_groupRef.1 hp)

theorem renamed_congr {e : Extent} {ρ σ : Renaming} (h : AgreesOn e ρ σ) (p : Particle)
    (hp : p.SoundIn e) : p.renamed ρ = p.renamed σ := by
  induction p using induct with
  | element d o =>
    have hd : d.index < e.elements := (hp _ (self_mem_subtrees _)).2
    rw [renamed, renamed, h.element d hd]
  | group c ps o ih =>
    have hps := (soundIn_group.1 hp).2
    rw [renamed_group, renamed_group, List.map_congr_left fun p hmem => ih p hmem (hps p hmem)]
  | _ => rfl

theorem renamed_renamed (ρ σ : Renaming) (p : Particle) :
    (p.renamed σ).renamed ρ = p.renamed (ρ.comp σ) := by
  induction p using induct with
  | group c ps o ih =>
    have hps : ps.map (renamed ρ ∘ renamed σ) = ps.map (renamed (ρ.comp σ)) :=
      List.map_congr_left ih
    rw [renamed_group, renamed_group, renamed_group, List.map_map, hps]
  | _ => rfl

theorem renamed_id (p : Particle) : p.renamed .id = p := by
  induction p using induct with
  | group c ps o ih =>
    rw [renamed_group, List.map_congr_left ih, List.map_id']
  | _ => rfl

end Particle

namespace Referring

instance : Referring Particle where
  rename ρ p := p.renamed ρ
  Sound e p := p.SoundIn e
  sound_rename h hp := Particle.SoundIn.renamed h _ hp
  rename_congr h hp := Particle.renamed_congr h _ hp
  rename_rename ρ σ p := Particle.renamed_renamed ρ σ p
  rename_id p := p.renamed_id

instance : Referring ModelGroup where
  rename ρ g := { g with particles := rename ρ g.particles }
  Sound e g := Sound e g.toParticle
  sound_rename {e e' ρ g} h hg := by
    have hrenamed := sound_rename (α := Particle) h hg
    change (g.toParticle.renamed ρ).SoundIn e' at hrenamed
    rw [ModelGroup.toParticle, Particle.renamed_group] at hrenamed
    exact hrenamed
  rename_congr h hg := by
    rw [rename_congr h (α := List Particle) (Particle.soundIn_group.1 hg).2]
  rename_rename ρ σ g := by simp only [rename_rename]
  rename_id g := by simp only [rename_id]

/-! ### Components -/

instance : Referring Content where
  rename ρ
    | .empty => .empty
    | .simple t => .simple (rename ρ t)
    | .group g => .group (rename ρ g)
  Sound e
    | .empty => True
    | .simple t => Sound e t
    | .group g => Sound e g
  sound_rename {e e' ρ a} h ha := by
    cases a with
    | empty => trivial
    | simple t => exact sound_rename (α := TypeRef) h ha
    | group g => exact sound_rename (α := ModelGroup) h ha
  rename_congr {e ρ σ a} h ha := by
    cases a with
    | empty => rfl
    | simple t => exact congrArg Content.simple (rename_congr (α := TypeRef) h ha)
    | group g => exact congrArg Content.group (rename_congr (α := ModelGroup) h ha)
  rename_rename ρ σ a := by
    cases a with
    | empty => rfl
    | simple t => exact congrArg Content.simple (rename_rename ρ σ t)
    | group g => exact congrArg Content.group (rename_rename ρ σ g)
  rename_id a := by
    cases a with
    | empty => rfl
    | simple t => exact congrArg Content.simple (rename_id t)
    | group g => exact congrArg Content.group (rename_id g)

instance : Referring ComplexType where
  rename ρ t := { t with content := rename ρ t.content, attributes := rename ρ t.attributes }
  Sound e t := Sound e t.content ∧ Sound e t.attributes
  sound_rename h ht := ⟨sound_rename h ht.1, sound_rename h ht.2⟩
  rename_congr h ht := by rw [rename_congr h ht.1, rename_congr h ht.2]
  rename_rename ρ σ t := by simp only [rename_rename]
  rename_id t := by simp only [rename_id]

instance : Referring TypeDef where
  rename ρ
    | .simple t => .simple (rename ρ t)
    | .complex t => .complex (rename ρ t)
  Sound e
    | .simple t => Sound e t
    | .complex t => Sound e t
  sound_rename {e e' ρ a} h ha := by
    cases a with
    | simple t => exact sound_rename (α := SimpleType) h ha
    | complex t => exact sound_rename (α := ComplexType) h ha
  rename_congr {e ρ σ a} h ha := by
    cases a with
    | simple t => exact congrArg TypeDef.simple (rename_congr (α := SimpleType) h ha)
    | complex t => exact congrArg TypeDef.complex (rename_congr (α := ComplexType) h ha)
  rename_rename ρ σ a := by
    cases a with
    | simple t => exact congrArg TypeDef.simple (rename_rename ρ σ t)
    | complex t => exact congrArg TypeDef.complex (rename_rename ρ σ t)
  rename_id a := by
    cases a with
    | simple t => exact congrArg TypeDef.simple (rename_id t)
    | complex t => exact congrArg TypeDef.complex (rename_id t)

instance : Referring ElementDecl where
  rename ρ d := { d with
    typeRef := rename ρ d.typeRef
    type? := rename ρ d.type?
    document := ρ.document d.document }
  Sound e d := Sound e d.typeRef ∧ Sound e d.type? ∧ d.document < e.documents
  sound_rename h hd := ⟨sound_rename h hd.1, sound_rename h hd.2.1, h.document _ hd.2.2⟩
  rename_congr h hd := by
    rw [rename_congr h hd.1, rename_congr h hd.2.1, h.document _ hd.2.2]
  rename_rename ρ σ d := by simp only [rename_rename]; rfl
  rename_id d := by simp only [rename_id]; rfl

end Referring
end SchemaAssist
