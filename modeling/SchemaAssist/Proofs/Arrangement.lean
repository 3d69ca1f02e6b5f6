/-
# Components in another order

Components are rearranged (`Components.Rearranged`) if others hold the same up to identifiers, each
in its place.  What two sets of components contribute behind others is rearranged if they come in the
other order (`Components.rearranged_swap`), and so is what any number of them contribute in any
order (`Components.exists_rearranged_of_perm`), as long as no two of them declare anything in
common.
-/

import SchemaAssist.Proofs.Contributions

namespace SchemaAssist

open Referring (rename Sound sound_mono sound_rename sound_append rename_append rename_congr
  rename_rename rename_id rename_eq_self)

/-! ### Shuffled identifiers -/

namespace Renaming

variable {ρ σ : Renaming} {e e' : Extent}

/-- A renaming of what there is to refer to, which leaves the identifiers behind that. -/
structure Shuffles (ρ : Renaming) (e : Extent) : Prop where
  element_inj : ∀ d d', ρ.element d = ρ.element d' → d = d'
  type_inj : ∀ t t', ρ.type t = ρ.type t' → t = t'
  document_inj : ∀ n n', ρ.document n = ρ.document n' → n = n'
  element_fix : ∀ d, e.elements ≤ d.index → ρ.element d = d
  type_fix : ∀ t, e.types ≤ t.index → ρ.type t = t
  document_fix : ∀ n, e.documents ≤ n → ρ.document n = n

namespace Shuffles

theorem refl (e : Extent) : Shuffles .id e where
  element_inj _ _ h := h
  type_inj _ _ h := h
  document_inj _ _ h := h
  element_fix _ _ := rfl
  type_fix _ _ := rfl
  document_fix _ _ := rfl

theorem trans (h : ρ.Shuffles e) (h' : σ.Shuffles e) : (σ.comp ρ).Shuffles e where
  element_inj d d' hd := h.element_inj d d' (h'.element_inj _ _ hd)
  type_inj t t' ht := h.type_inj t t' (h'.type_inj _ _ ht)
  document_inj n n' hn := h.document_inj n n' (h'.document_inj _ _ hn)
  element_fix d hd := by
    rw [comp]
    dsimp only
    rw [h.element_fix d hd, h'.element_fix d hd]
  type_fix t ht := by
    rw [comp]
    dsimp only
    rw [h.type_fix t ht, h'.type_fix t ht]
  document_fix n hn := by
    rw [comp]
    dsimp only
    rw [h.document_fix n hn, h'.document_fix n hn]

theorem mono (h : ρ.Shuffles e) (he : e ≤ e') : ρ.Shuffles e' where
  element_inj := h.element_inj
  type_inj := h.type_inj
  document_inj := h.document_inj
  element_fix d hd := h.element_fix d (Nat.le_trans he.1 hd)
  type_fix t ht := h.type_fix t (Nat.le_trans he.2.1 ht)
  document_fix n hn := h.document_fix n (Nat.le_trans he.2.2 hn)

theorem element_lt (h : ρ.Shuffles e) {d : ElementId} (hd : d.index < e.elements) :
    (ρ.element d).index < e.elements := by
  by_contra hge
  have hfix := h.element_inj _ _ (h.element_fix _ (Nat.le_of_not_lt hge))
  rw [hfix] at hge
  exact hge hd

theorem type_lt (h : ρ.Shuffles e) {t : TypeId} (ht : t.index < e.types) :
    (ρ.type t).index < e.types := by
  by_contra hge
  have hfix := h.type_inj _ _ (h.type_fix _ (Nat.le_of_not_lt hge))
  rw [hfix] at hge
  exact hge ht

theorem document_lt (h : ρ.Shuffles e) {n : Nat} (hn : n < e.documents) :
    ρ.document n < e.documents := by
  by_contra hge
  have hfix := h.document_inj _ _ (h.document_fix _ (Nat.le_of_not_lt hge))
  rw [hfix] at hge
  exact hge hn

end Shuffles

/-- Two blocks of identifiers behind `start` ones change places: the first of `first` identifiers,
the second of `second`. -/
def swapIndex (start first second n : Nat) : Nat :=
  if n < start then n
  else if n < start + first then n + second
  else if n < start + first + second then n - first
  else n

/-- The identifiers of two extents behind a third change places. -/
def swap (start first second : Extent) : Renaming where
  element d := ⟨swapIndex start.elements first.elements second.elements d.index⟩
  type t := ⟨swapIndex start.types first.types second.types t.index⟩
  document n := swapIndex start.documents first.documents second.documents n

theorem swapIndex_inj {start first second n m : Nat}
    (h : swapIndex start first second n = swapIndex start first second m) : n = m := by
  unfold swapIndex at h
  grind

theorem swapIndex_start {start first second n : Nat} (h : n < start) :
    swapIndex start first second n = n := if_pos h

theorem swapIndex_first {start first second n : Nat} (h : n < first) :
    swapIndex start first second (start + n) = start + second + n := by
  unfold swapIndex
  grind

theorem swapIndex_second {start first second n : Nat} (h : n < second) :
    swapIndex start first second (start + first + n) = start + n := by
  unfold swapIndex
  grind

theorem swapIndex_fix {start first second n : Nat} (h : start + first + second ≤ n) :
    swapIndex start first second n = n := by
  unfold swapIndex
  grind

end Renaming

/-- What there is in two extents together. -/
def Extent.add (e e' : Extent) : Extent :=
  ⟨e.elements + e'.elements, e.types + e'.types, e.documents + e'.documents⟩

theorem Renaming.swap_shuffles (start first second : Extent) :
    (swap start first second).Shuffles ((start.add first).add second) where
  element_inj _ _ h := congrArg ElementId.mk (swapIndex_inj (congrArg ElementId.index h))
  type_inj _ _ h := congrArg TypeId.mk (swapIndex_inj (congrArg TypeId.index h))
  document_inj _ _ h := swapIndex_inj h
  element_fix _ h := congrArg ElementId.mk (swapIndex_fix h)
  type_fix _ h := congrArg TypeId.mk (swapIndex_fix h)
  document_fix _ h := swapIndex_fix h

namespace Components

variable {b b' c c' c'' x y : Components} {ρ σ : Renaming}

/-- The same components in another order. -/
structure Rearranged (ρ : Renaming) (c c' : Components) : Prop where
  shuffles : ρ.Shuffles c.extent
  extent : c'.extent = c.extent
  version : c'.version = c.version
  limits : c'.limits = c.limits
  elements : ∀ d : ElementId, c'.elements[(ρ.element d).index]? = rename ρ c.elements[d.index]?
  types : ∀ t : TypeId, c'.types[(ρ.type t).index]? = rename ρ c.types[t.index]?
  locations : ∀ n, c'.locations[ρ.document n]? = c.locations[n]?
  globalElements : ∀ n, c'.globalElements.find? n = rename ρ (c.globalElements.find? n)
  globalTypes : ∀ n, c'.globalTypes.find? n = rename ρ (c.globalTypes.find? n)
  groups : ∀ n, c'.groups.find? n = rename ρ (c.groups.find? n)
  attributeGroups : ∀ n, c'.attributeGroups.find? n = rename ρ (c.attributeGroups.find? n)
  globalAttributes : ∀ n, c'.globalAttributes.find? n = rename ρ (c.globalAttributes.find? n)
  elementEntries : c'.globalElements.entries.Perm (rename ρ c.globalElements.entries)
  typeEntries : c'.globalTypes.entries.Perm (rename ρ c.globalTypes.entries)
  groupCount : c'.attributeGroups.entries.length = c.attributeGroups.entries.length
  problems : c'.problems.toList.Perm c.problems.toList

namespace Rearranged

theorem refl (c : Components) : Rearranged .id c c where
  shuffles := .refl _
  extent := rfl
  version := rfl
  limits := rfl
  elements _ := (rename_id _).symm
  types _ := (rename_id _).symm
  locations _ := rfl
  globalElements _ := (rename_id _).symm
  globalTypes _ := (rename_id _).symm
  groups _ := (rename_id _).symm
  attributeGroups _ := (rename_id _).symm
  globalAttributes _ := (rename_id _).symm
  elementEntries := .of_eq (rename_id _).symm
  typeEntries := .of_eq (rename_id _).symm
  groupCount := rfl
  problems := .refl _

theorem trans (h : Rearranged ρ c c') (h' : Rearranged σ c' c'') :
    Rearranged (σ.comp ρ) c c'' where
  shuffles := h.shuffles.trans (h.extent ▸ h'.shuffles)
  extent := h'.extent.trans h.extent
  version := h'.version.trans h.version
  limits := h'.limits.trans h.limits
  elements d := by
    rw [← rename_rename, ← h.elements]
    exact h'.elements (ρ.element d)
  types t := by
    rw [← rename_rename, ← h.types]
    exact h'.types (ρ.type t)
  locations n := (h'.locations (ρ.document n)).trans (h.locations n)
  globalElements n := by rw [← rename_rename, ← h.globalElements, h'.globalElements]
  globalTypes n := by rw [← rename_rename, ← h.globalTypes, h'.globalTypes]
  groups n := by rw [← rename_rename, ← h.groups, h'.groups]
  attributeGroups n := by rw [← rename_rename, ← h.attributeGroups, h'.attributeGroups]
  globalAttributes n := by rw [← rename_rename, ← h.globalAttributes, h'.globalAttributes]
  elementEntries := by
    rw [← rename_rename]
    exact h'.elementEntries.trans (h.elementEntries.map _)
  typeEntries := by
    rw [← rename_rename]
    exact h'.typeEntries.trans (h.typeEntries.map _)
  groupCount := h'.groupCount.trans h.groupCount
  problems := h'.problems.trans h.problems

end Rearranged

/-! ### More components behind -/

section Tables

variable {α : Type} {as as' bs cs : Array α}

/-- More entries behind shuffled ones. -/
theorem getElem?_append_shuffled {f : Nat → Nat} {g : α → α} (hsize : as'.size = as.size)
    (hlt : ∀ i, i < as.size → f i < as.size) (hfix : ∀ i, as.size ≤ i → f i = i)
    (h : ∀ i, as'[f i]? = as[i]?.map g) (i : Nat) :
    (as' ++ bs.map g)[f i]? = (as ++ bs)[i]?.map g := by
  by_cases hi : i < as.size
  · rw [Array.getElem?_append_left (hsize ▸ hlt i hi), Array.getElem?_append_left hi, h]
  · have hge := Nat.le_of_not_lt hi
    rw [hfix i hge, Array.getElem?_append_right (hsize ▸ hge), Array.getElem?_append_right hge,
      Array.getElem?_map, hsize]

/-- Two blocks of entries change places. -/
theorem getElem?_append_swap (bs cs : Array α) {g : α → α} (has : ∀ a ∈ as, g a = a) (i : Nat) :
    (as ++ cs.map g ++ bs.map g)[Renaming.swapIndex as.size bs.size cs.size i]? =
      (as ++ bs ++ cs)[i]?.map g := by
  have hbs : (bs.map g).size = bs.size := Array.size_map
  have hcs : (cs.map g).size = cs.size := Array.size_map
  have hsize : (as ++ bs).size = as.size + bs.size := Array.size_append
  have hsize' : (as ++ cs.map g).size = as.size + cs.size := by rw [Array.size_append, hcs]
  unfold Renaming.swapIndex
  split
  · next hi =>
    rw [Array.getElem?_append_left (by omega), Array.getElem?_append_left hi,
      Array.getElem?_append_left (by omega), Array.getElem?_append_left hi,
      Array.getElem?_eq_getElem hi, Option.map_some, has _ (Array.getElem_mem hi)]
  · split
    · next hstart hi =>
      have hindex : i + cs.size - (as.size + cs.size) = i - as.size := by omega
      rw [Array.getElem?_append_right (by omega), Array.getElem?_append_left (by omega),
        Array.getElem?_append_right (Nat.le_of_not_lt hstart), Array.getElem?_map, hsize', hindex]
    · split
      · next hstart hfirst hi =>
        have hindex : i - bs.size - as.size = i - (as.size + bs.size) := by omega
        rw [Array.getElem?_append_left (by omega), Array.getElem?_append_right (by omega),
          Array.getElem?_append_right (by omega), Array.getElem?_map, hsize, hindex]
      · next hstart hfirst hi =>
        rw [Array.getElem?_eq_none (by rw [Array.size_append]; omega),
          Array.getElem?_eq_none (by rw [Array.size_append]; omega), Option.map_none]

end Tables

theorem extent_append (b x : Components) : (b.append x).extent = b.extent.add x.extent := by
  simp [extent, append, Extent.add, rename]

/-- What comes behind components of the same extent does so behind shuffled ones. -/
theorem rename_offset {α : Type} [Referring α] (hρ : ρ.Shuffles b.extent)
    (hextent : b'.extent = b.extent) (a : α) :
    rename ρ (rename b.offset a) = rename b'.offset a := by
  have hcomp : ρ.comp b.offset = b'.offset := by
    rw [offset, offset, hextent, Renaming.shift, Renaming.comp]
    congr 1
    · funext d
      exact hρ.element_fix _ (Nat.le_add_right _ _)
    · funext t
      exact hρ.type_fix _ (Nat.le_add_right _ _)
    · funext n
      exact hρ.document_fix _ (Nat.le_add_right _ _)
  rw [rename_rename, hcomp]

theorem find?_append_rearranged {α : Type} [Referring α] {t t' u : NameTable α}
    (hρ : ρ.Shuffles b.extent) (hextent : b'.extent = b.extent) {n : Name}
    (h : t'.find? n = rename ρ (t.find? n)) :
    (t'.append (rename b'.offset u)).find? n =
      rename ρ ((t.append (rename b.offset u)).find? n) := by
  rw [NameTable.find?_append, NameTable.find?_append, NameTable.find?_rename,
    NameTable.find?_rename, h]
  cases t.find? n with
  | some a => rfl
  | none =>
    cases u.find? n with
    | none => rfl
    | some a => exact congrArg some (rename_offset hρ hextent a).symm

/-- Entries behind others in another order. -/
theorem entries_append_perm {α : Type} [Referring α] {t t' u : NameTable α}
    (hρ : ρ.Shuffles b.extent) (hextent : b'.extent = b.extent)
    (h : t'.entries.Perm (rename ρ t.entries)) :
    (t'.append (rename b'.offset u)).entries.Perm
      (rename ρ (t.append (rename b.offset u)).entries) := by
  change (t'.entries ++ rename b'.offset u.entries).Perm
    (rename ρ (t.entries ++ rename b.offset u.entries))
  rw [rename_append, rename_offset hρ hextent]
  exact h.append_right _

/-- Components behind rearranged ones. -/
theorem Rearranged.append (h : Rearranged ρ b b') (x : Components) :
    Rearranged ρ (b.append x) (b'.append x) where
  shuffles := by
    rw [extent_append]
    exact h.shuffles.mono ⟨Nat.le_add_right _ _, Nat.le_add_right _ _, Nat.le_add_right _ _⟩
  extent := by rw [extent_append, extent_append, h.extent]
  version := congrArg (Version.later · x.version) h.version
  limits := h.limits
  elements d := by
    have hrest : rename b'.offset x.elements = (rename b.offset x.elements).map (rename ρ) :=
      (rename_offset h.shuffles h.extent x.elements).symm
    change (b'.elements ++ rename b'.offset x.elements)[_]? = _
    rw [hrest]
    exact getElem?_append_shuffled (f := fun i => (ρ.element ⟨i⟩).index)
      (congrArg Extent.elements h.extent) (fun i hi => h.shuffles.element_lt hi)
      (fun i hi => congrArg ElementId.index (h.shuffles.element_fix ⟨i⟩ hi))
      (fun i => h.elements ⟨i⟩) d.index
  types t := by
    have hrest : rename b'.offset x.types = (rename b.offset x.types).map (rename ρ) :=
      (rename_offset h.shuffles h.extent x.types).symm
    change (b'.types ++ rename b'.offset x.types)[_]? = _
    rw [hrest]
    exact getElem?_append_shuffled (f := fun i => (ρ.type ⟨i⟩).index)
      (congrArg Extent.types h.extent) (fun i hi => h.shuffles.type_lt hi)
      (fun i hi => congrArg TypeId.index (h.shuffles.type_fix ⟨i⟩ hi))
      (fun i => h.types ⟨i⟩) t.index
  locations n := by
    have hlocations (i : Nat) : b'.locations[ρ.document i]? = b.locations[i]?.map id :=
      (h.locations i).trans (congrFun Option.map_id _).symm
    have hshuffled : (b'.locations ++ x.locations.map id)[ρ.document n]? =
        (b.locations ++ x.locations)[n]?.map id :=
      getElem?_append_shuffled (congrArg Extent.documents h.extent)
        (fun i hi => h.shuffles.document_lt hi) (fun i hi => h.shuffles.document_fix i hi)
        hlocations n
    rw [Array.map_id, Option.map_id] at hshuffled
    exact hshuffled
  globalElements _ := find?_append_rearranged h.shuffles h.extent (h.globalElements _)
  globalTypes _ := find?_append_rearranged h.shuffles h.extent (h.globalTypes _)
  groups _ := find?_append_rearranged h.shuffles h.extent (h.groups _)
  attributeGroups _ := find?_append_rearranged h.shuffles h.extent (h.attributeGroups _)
  globalAttributes _ := find?_append_rearranged h.shuffles h.extent (h.globalAttributes _)
  elementEntries := entries_append_perm h.shuffles h.extent h.elementEntries
  typeEntries := entries_append_perm h.shuffles h.extent h.typeEntries
  groupCount := by
    change (_ ++ List.map _ _).length = (_ ++ List.map _ _).length
    rw [List.length_append, List.length_append, List.length_map, List.length_map, h.groupCount]
  problems := by
    change (b'.problems ++ x.problems).toList.Perm (b.problems ++ x.problems).toList
    rw [Array.toList_append, Array.toList_append]
    exact h.problems.append_right _

/-! ### The other order -/

section Swap

variable {α : Type} [Referring α]

theorem rename_swap_start {a : α} (ha : Sound b.extent a) :
    rename (Renaming.swap b.extent x.extent y.extent) a = a :=
  rename_eq_self ⟨fun _ hd => congrArg ElementId.mk (Renaming.swapIndex_start hd),
    fun _ ht => congrArg TypeId.mk (Renaming.swapIndex_start ht),
    fun _ hn => Renaming.swapIndex_start hn⟩ ha

/-- What comes behind components and a second block when it came before that one. -/
theorem rename_swap_first {a : α} (ha : Sound x.extent a) :
    rename (Renaming.swap b.extent x.extent y.extent) (rename b.offset a) =
      rename (b.append y).offset a := by
  rw [rename_rename, offset, offset, extent_append]
  exact rename_congr ⟨fun _ hd => congrArg ElementId.mk (Renaming.swapIndex_first hd),
    fun _ ht => congrArg TypeId.mk (Renaming.swapIndex_first ht),
    fun _ hn => Renaming.swapIndex_first hn⟩ ha

/-- What comes right behind components when it came behind a first block. -/
theorem rename_swap_second {a : α} (ha : Sound y.extent a) :
    rename (Renaming.swap b.extent x.extent y.extent) (rename (b.append x).offset a) =
      rename b.offset a := by
  rw [rename_rename, offset, offset, extent_append]
  exact rename_congr ⟨fun _ hd => congrArg ElementId.mk (Renaming.swapIndex_second hd),
    fun _ ht => congrArg TypeId.mk (Renaming.swapIndex_second ht),
    fun _ hn => Renaming.swapIndex_second hn⟩ ha

theorem getElem?_swap {as bs cs : Array α} (has : Sound b.extent as) (hbs : Sound x.extent bs)
    (hcs : Sound y.extent cs) (i : Nat) :
    (as ++ rename b.offset cs ++ rename (b.append y).offset bs)[Renaming.swapIndex as.size bs.size
      cs.size i]? = rename (Renaming.swap b.extent x.extent y.extent)
        (as ++ rename b.offset bs ++ rename (b.append x).offset cs)[i]? := by
  have hfirst := rename_swap_first (b := b) (y := y) hbs
  have hsecond := rename_swap_second (b := b) (x := x) hcs
  have hswap := getElem?_append_swap (rename b.offset bs) (rename (b.append x).offset cs)
    (g := rename (.swap b.extent x.extent y.extent))
    (fun a ha => rename_swap_start (x := x) (y := y) (has a ha)) i
  have hsize : (rename b.offset bs).size = bs.size := Array.size_map
  have hsize' : (rename (b.append x).offset cs).size = cs.size := Array.size_map
  rw [hsize, hsize'] at hswap
  rw [← hfirst, ← hsecond]
  exact hswap

theorem find?_swap {t u v : NameTable α} (ht : Sound b.extent t) (hu : Sound x.extent u)
    (hv : Sound y.extent v) {n : Name} (hapart : u.has n = true → v.has n = true → False) :
    ((t.append (rename b.offset v)).append (rename (b.append y).offset u)).find? n =
      rename (Renaming.swap b.extent x.extent y.extent)
        (((t.append (rename b.offset u)).append (rename (b.append x).offset v)).find? n) := by
  simp only [NameTable.find?_append, NameTable.find?_rename]
  cases hn : t.find? n with
  | some a =>
    exact congrArg some (rename_swap_start (NameTable.sound_find? ht hn)).symm
  | none =>
    cases hun : u.find? n with
    | some a =>
      have hvn : v.find? n = none := by
        rw [← Option.not_isSome_iff_eq_none]
        exact fun h => hapart (by rw [NameTable.has, hun]; rfl) h
      rw [hvn]
      exact congrArg some (rename_swap_first (NameTable.sound_find? hu hun)).symm
    | none =>
      cases hvn : v.find? n with
      | none => rfl
      | some a => exact congrArg some (rename_swap_second (NameTable.sound_find? hv hvn)).symm

theorem entries_swap {t u v : NameTable α} (ht : Sound b.extent t) (hu : Sound x.extent u)
    (hv : Sound y.extent v) :
    ((t.append (rename b.offset v)).append (rename (b.append y).offset u)).entries.Perm
      (rename (Renaming.swap b.extent x.extent y.extent)
        ((t.append (rename b.offset u)).append (rename (b.append x).offset v)).entries) := by
  change (t.entries ++ rename b.offset v.entries ++ rename (b.append y).offset u.entries).Perm
    (rename _ (t.entries ++ rename b.offset u.entries ++ rename (b.append x).offset v.entries))
  have hstart : rename (Renaming.swap b.extent x.extent y.extent) t.entries = t.entries :=
    rename_swap_start ht
  have hfirst : rename (Renaming.swap b.extent x.extent y.extent) (rename b.offset u.entries) =
      rename (b.append y).offset u.entries := rename_swap_first hu
  have hsecond : rename (Renaming.swap b.extent x.extent y.extent)
      (rename (b.append x).offset v.entries) = rename b.offset v.entries := rename_swap_second hv
  rw [rename_append, rename_append, hstart, hfirst, hsecond, List.append_assoc, List.append_assoc]
  exact List.perm_append_comm.append_left _

end Swap

theorem later_swap (v v' v'' : Version) : (v.later v').later v'' = (v.later v'').later v' := by
  cases v <;> cases v' <;> cases v'' <;> rfl

/-- **What two sets of components contribute is the same in either order**, but for identifiers. -/
theorem rearranged_swap (hb : b.Intact) (hx : x.Intact) (hy : y.Intact) (hapart : Unrelated x y) :
    Rearranged (.swap b.extent x.extent y.extent) ((b.append x).append y)
      ((b.append y).append x) where
  shuffles := by
    rw [extent_append, extent_append]
    exact Renaming.swap_shuffles _ _ _
  extent := by
    rw [extent_append, extent_append, extent_append, extent_append, Extent.add, Extent.add,
      Extent.add, Extent.add]
    congr 1 <;> simp only <;> omega
  version := later_swap _ _ _
  limits := rfl
  elements d := getElem?_swap hb.elements hx.elements hy.elements d.index
  types t := getElem?_swap hb.types hx.types hy.types t.index
  locations n := by
    have hswap : (b.locations ++ y.locations.map id ++ x.locations.map id)[Renaming.swapIndex
        b.locations.size x.locations.size y.locations.size n]? =
          (b.locations ++ x.locations ++ y.locations)[n]?.map id :=
      getElem?_append_swap _ _ (fun _ _ => rfl) n
    rw [Array.map_id, Array.map_id, Option.map_id] at hswap
    exact hswap
  globalElements n := find?_swap hb.globalElements hx.globalElements hy.globalElements
    (hapart .element n)
  globalTypes n := find?_swap hb.globalTypes hx.globalTypes hy.globalTypes (hapart .type n)
  groups n := find?_swap hb.groups hx.groups hy.groups (hapart .group n)
  attributeGroups n := find?_swap hb.attributeGroups hx.attributeGroups hy.attributeGroups
    (hapart .attributeGroup n)
  globalAttributes n := find?_swap hb.globalAttributes hx.globalAttributes hy.globalAttributes
    (hapart .attribute n)
  elementEntries := entries_swap hb.globalElements hx.globalElements hy.globalElements
  typeEntries := entries_swap hb.globalTypes hx.globalTypes hy.globalTypes
  groupCount := by
    change (_ ++ List.map _ _ ++ List.map _ _).length =
      (_ ++ List.map _ _ ++ List.map _ _).length
    simp only [List.length_append, List.length_map]
    omega
  problems := by
    change (b.problems ++ y.problems ++ x.problems).toList.Perm
      (b.problems ++ x.problems ++ y.problems).toList
    simp only [Array.toList_append, List.append_assoc]
    exact List.perm_append_comm.append_left _

/-! ### Any order -/

theorem extent_le_append (b x : Components) : b.extent ≤ (b.append x).extent := by
  rw [extent_append]
  exact ⟨Nat.le_add_right _ _, Nat.le_add_right _ _, Nat.le_add_right _ _⟩

/-- What refers to something still does behind other components. -/
theorem sound_rename_offset {α : Type} [Referring α] {a : α} (ha : Sound x.extent a) :
    Sound (b.append x).extent (rename b.offset a) := by
  refine sound_rename ?_ ha
  rw [extent_append]
  exact ⟨fun _ hd => Nat.add_lt_add_left hd _, fun _ ht => Nat.add_lt_add_left ht _,
    fun _ hn => Nat.add_lt_add_left hn _⟩

theorem intact_append (hb : b.Intact) (hx : x.Intact) : (b.append x).Intact := by
  have hb' := SoundIn.mono (extent_le_append b x) hb
  have harray {α : Type} [Referring α] {as bs : Array α} (has : Sound (b.append x).extent as)
      (hbs : Sound x.extent bs) : Sound (b.append x).extent (as ++ rename b.offset bs) := by
    intro a ha
    rcases Array.mem_append.1 ha with ha | ha
    · exact has a ha
    · exact sound_rename_offset hbs a ha
  have hlist {α : Type} [Referring α] {as bs : List α} (has : Sound (b.append x).extent as)
      (hbs : Sound x.extent bs) : Sound (b.append x).extent (as ++ rename b.offset bs) :=
    sound_append has (sound_rename_offset hbs)
  exact {
    elements := harray hb'.elements hx.elements
    types := harray hb'.types hx.types
    globalElements := hlist hb'.globalElements hx.globalElements
    globalTypes := hlist hb'.globalTypes hx.globalTypes
    groups := hlist hb'.groups hx.groups
    attributeGroups := hlist hb'.attributeGroups hx.attributeGroups
    globalAttributes := hlist hb'.globalAttributes hx.globalAttributes
    builtins := hlist hb'.builtins hx.builtins }

theorem Rearranged.foldl (h : Rearranged ρ b b') (xs : List Components) :
    Rearranged ρ (xs.foldl Components.append b) (xs.foldl Components.append b') := by
  induction xs generalizing b b' with
  | nil => exact h
  | cons x xs ih => exact ih (h.append x)

/-- **What several sets of components contribute is the same in any order**, but for identifiers. -/
theorem exists_rearranged_of_perm {xs ys : List Components} (hperm : xs.Perm ys)
    (hb : b.Intact) (hintact : ∀ x ∈ xs, x.Intact) (hapart : xs.Pairwise Unrelated) :
    ∃ ρ, Rearranged ρ (xs.foldl append b) (ys.foldl append b) := by
  have hsymm : ∀ x y : Components, Unrelated x y → Unrelated y x := fun x y h k n hy hx => h k n hx hy
  induction hperm generalizing b with
  | nil => exact ⟨.id, .refl b⟩
  | cons x _ ih =>
    rw [List.forall_mem_cons] at hintact
    exact ih (intact_append hb hintact.1) hintact.2 (List.pairwise_cons.1 hapart).2
  | swap x y xs =>
    simp only [List.forall_mem_cons] at hintact
    obtain ⟨hy, hx, -⟩ := hintact
    have hyx : Unrelated y x := (List.pairwise_cons.1 hapart).1 x List.mem_cons_self
    exact ⟨_, (rearranged_swap hb hy hx hyx).foldl xs⟩
  | trans hperm₁ _ ih₁ ih₂ =>
    obtain ⟨ρ, hρ⟩ := ih₁ hb hintact hapart
    obtain ⟨σ, hσ⟩ := ih₂ hb (fun x hx => hintact x (hperm₁.mem_iff.2 hx))
      (hperm₁.pairwise hapart fun h => hsymm _ _ h)
    exact ⟨_, hρ.trans hσ⟩

/-! ### Documents in any order -/

variable {limits : Limits} {ds ds' : List Submission}

/-- Whether a document is added does not depend on those before it. -/
theorem exists_ok_of_adds (hc : c.Intact) (hadds : Adds c ds) : ∀ d ∈ ds, ∀ c' : Components,
    c'.limits = c.limits → ∃ refs, ((submit d).run c').1 = .ok refs := by
  induction ds generalizing c with
  | nil => nofun
  | cons d ds ih =>
    obtain ⟨⟨refs, hd⟩, hadds⟩ := hadds
    obtain ⟨hintact, hgrows⟩ := intact_submit hc d
    refine List.forall_mem_cons.2 ⟨fun c' hlimits => ?_, fun d' hd' c' hlimits => ?_⟩
    · obtain ⟨root, cs, hrun⟩ := exists_run_submit hd
      exact ⟨refs, by rw [hrun c' hlimits]⟩
    · exact ih hintact hadds d' hd' c' (hlimits.trans hgrows.limits.symm)

theorem adds_of_forall_ok (hc : c.Intact) (h : ∀ d ∈ ds, ∀ c' : Components,
    c'.limits = c.limits → ∃ refs, ((submit d).run c').1 = .ok refs) : Adds c ds := by
  induction ds generalizing c with
  | nil => trivial
  | cons d ds ih =>
    rw [List.forall_mem_cons] at h
    obtain ⟨hintact, hgrows⟩ := intact_submit hc d
    exact ⟨h.1 c rfl, ih hintact fun d' hd' c' hlimits =>
      h.2 d' hd' c' (hlimits.trans hgrows.limits)⟩

theorem adds_of_perm (hc : c.Intact) (hadds : Adds c ds) (hperm : ds.Perm ds') : Adds c ds' :=
  adds_of_forall_ok hc fun d hd => exists_ok_of_adds hc hadds d (hperm.mem_iff.2 hd)

/-- **Documents that declare nothing in common leave the same behind in any order**, but for
identifiers. -/
theorem exists_rearranged_after (hc : c.Intact) (hadds : Adds c ds)
    (hbase : ∀ d ∈ ds, Unrelated c (contribution c.limits d))
    (hapart : ds.Pairwise fun d d' => Unrelated (contribution c.limits d) (contribution c.limits d'))
    (hperm : ds.Perm ds') : ∃ ρ, Rearranged ρ (c.after ds) (c.after ds') := by
  have hsymm : ∀ d d' : Submission, Unrelated (contribution c.limits d) (contribution c.limits d') →
      Unrelated (contribution c.limits d') (contribution c.limits d) :=
    fun d d' h k n hd' hd => h k n hd hd'
  have hafter {ds : List Submission} : ds.foldl (fun c' d => c'.append (contribution c.limits d)) c =
      (ds.map (contribution c.limits)).foldl append c := List.foldl_map.symm
  rw [after_eq rfl hadds hbase hapart, after_eq rfl (adds_of_perm hc hadds hperm)
    (fun d hd => hbase d (hperm.mem_iff.2 hd)) (hperm.pairwise hapart fun h => hsymm _ _ h),
    hafter, hafter]
  refine exists_rearranged_of_perm (hperm.map _) hc (fun x hx => ?_) (List.pairwise_map.2 hapart)
  obtain ⟨d, -, rfl⟩ := List.mem_map.1 hx
  exact (intact_submit (intact_empty _ _) d).1

end Components
end SchemaAssist
