/-
# Where listed values come from

A type that lists no values takes those of the type that it comes from, and so on: a simple type
comes from its base, a complex type with simple content from the type of its content.  This way
through the types may go in circles.  The values of a type are those of the first type on the way
that lists any, however far away that is (`Grammar.enumeration_listing`): no type comes twice before
it, so that it is less than as many steps away as there are types.
-/

import Mathlib.Data.Fintype.Card
import SchemaAssist.Proofs.Integrity

namespace SchemaAssist
namespace Grammar

variable {g : Grammar} {t u : TypeId} {i j k room : Nat}

/-- The type whose values a type takes if it lists none itself. -/
def source? (g : Grammar) (t : TypeId) : Option TypeId :=
  match g.type? t with
  | some (.simple st) => st.base?
  | some (.complex ct) =>
    match ct.content with
    | .simple (.definition base) => some base
    | _ => none
  | none => none

/-- The values that a type lists itself; only simple types do. -/
def ownValues (g : Grammar) (t : TypeId) : List String :=
  match g.type? t with
  | some (.simple st) => st.enumeration
  | _ => []

/-- The type that is some steps away from a type. -/
def sourceAt? (g : Grammar) : Nat → TypeId → Option TypeId
  | 0, t => some t
  | k + 1, t => (g.source? t).bind (g.sourceAt? k)

/-- The first type on the way from a type that lists values, and how far away it is. -/
structure ListsFirst (g : Grammar) (t : TypeId) (k : Nat) (u : TypeId) : Prop where
  reached : g.sourceAt? k t = some u
  lists : g.ownValues u ≠ []
  first : ∀ j < k, ∀ w, g.sourceAt? j t = some w → g.ownValues w = []

/-! ### Steps -/

theorem source?_of_type?_eq_none (h : g.type? t = none) : g.source? t = none := by
  rw [source?, h]

theorem ownValues_of_type?_eq_none (h : g.type? t = none) : g.ownValues t = [] := by
  rw [ownValues, h]

/-- The values of a type are its own, or else those of the type that it comes from. -/
theorem enumerationWithin_succ (g : Grammar) (room : Nat) (t : TypeId) :
    g.enumerationWithin (room + 1) t =
      if g.ownValues t = [] then ((g.source? t).map (g.enumerationWithin room)).getD []
      else g.ownValues t := by
  rw [enumerationWithin, ownValues, source?]
  cases g.type? t with
  | none => rfl
  | some d =>
    cases d with
    | simple st =>
      cases hvalues : st.enumeration with
      | nil => cases hbase : st.base? <;> simp [hvalues, hbase]
      | cons v vs => simp [hvalues]
    | complex ct =>
      cases hcontent : ct.content with
      | simple ref => cases ref <;> simp [hcontent]
      | _ => simp [hcontent]

/-- A way goes on from where its first part ends. -/
theorem sourceAt?_add (g : Grammar) (i k : Nat) (t : TypeId) :
    g.sourceAt? (i + k) t = (g.sourceAt? i t).bind (g.sourceAt? k) := by
  induction i generalizing t with
  | zero => rw [Nat.zero_add, sourceAt?, Option.bind_some]
  | succ i ih =>
    have hstep : g.sourceAt? (i + 1 + k) t = (g.source? t).bind (g.sourceAt? (i + k)) := by
      rw [Nat.add_right_comm, sourceAt?]
    rw [hstep, sourceAt?, Option.bind_assoc, funext ih]

namespace ListsFirst

/-- The way from the next type to the first one that lists values is one step shorter. -/
theorem next (h : g.ListsFirst t (k + 1) u) :
    g.ownValues t = [] ∧ ∃ w, g.source? t = some w ∧ g.ListsFirst w k u := by
  obtain ⟨w, hw, hreached⟩ := Option.bind_eq_some_iff.1 h.reached
  have hlater (j : Nat) : g.sourceAt? (j + 1) t = g.sourceAt? j w := by
    rw [sourceAt?, hw, Option.bind_some]
  refine ⟨h.first 0 (Nat.succ_pos k) t rfl, w, hw, hreached, h.lists, fun j hj x hx => ?_⟩
  exact h.first (j + 1) (Nat.succ_lt_succ hj) x ((hlater j).trans hx)

/-- The types before the first one that lists values, and that one, are there. -/
theorem exists_type (h : g.ListsFirst t k u) (hi : i ≤ k) :
    ∃ w, g.sourceAt? i t = some w ∧ w.index < g.types.size := by
  obtain ⟨m, rfl⟩ := Nat.exists_eq_add_of_le hi
  have hreached := h.reached
  rw [sourceAt?_add] at hreached
  obtain ⟨w, hw, hrest⟩ := Option.bind_eq_some_iff.1 hreached
  refine ⟨w, hw, Nat.lt_of_not_le fun hle => ?_⟩
  -- a type that is not there lists nothing and comes from nothing
  have hnone : g.type? w = none := Array.getElem?_eq_none hle
  cases m with
  | zero =>
    obtain rfl := Option.some.inj hrest
    exact h.lists (ownValues_of_type?_eq_none hnone)
  | succ m =>
    rw [sourceAt?, source?_of_type?_eq_none hnone] at hrest
    cases hrest

/-- No type comes twice before the first one that lists values: otherwise that one would have come
before, as many steps earlier as the two are apart. -/
theorem ne_of_lt (h : g.ListsFirst t k u) (hij : i < j) (hjk : j ≤ k) :
    g.sourceAt? i t ≠ g.sourceAt? j t := by
  intro heq
  obtain ⟨m, rfl⟩ := Nat.exists_eq_add_of_le hjk
  have hearlier : g.sourceAt? (i + m) t = some u := by
    rw [sourceAt?_add, heq, ← sourceAt?_add]
    exact h.reached
  exact h.lists (h.first (i + m) (by omega) u hearlier)

/-- **The first type that lists values is less than as many steps away as there are types.** -/
theorem lt_size (h : g.ListsFirst t k u) : k < g.types.size := by
  choose w hw hlt using fun i : Fin (k + 1) => h.exists_type (Nat.le_of_lt_succ i.isLt)
  have hinjective : Function.Injective fun i => (⟨(w i).index, hlt i⟩ : Fin g.types.size) := by
    intro i j hij
    have hsame : w i = w j := congrArg TypeId.mk (Fin.mk.inj hij)
    have hat : g.sourceAt? i t = g.sourceAt? j t := by rw [hw, hw, hsame]
    rcases Nat.lt_trichotomy i j with hlt | heq | hlt
    · exact absurd hat (h.ne_of_lt hlt (Nat.le_of_lt_succ j.isLt))
    · exact Fin.ext heq
    · exact absurd hat.symm (h.ne_of_lt hlt (Nat.le_of_lt_succ i.isLt))
  have hcard := Fintype.card_le_of_injective _ hinjective
  rwa [Fintype.card_fin, Fintype.card_fin] at hcard

/-- The values of a type are found if there is room for the way to the type that lists them. -/
theorem enumerationWithin_eq (h : g.ListsFirst t k u) (hroom : k < room) :
    g.enumerationWithin room t = g.ownValues u := by
  induction k generalizing t room with
  | zero =>
    obtain ⟨room, rfl⟩ := Nat.exists_eq_add_one_of_ne_zero (Nat.ne_of_gt hroom)
    obtain rfl := Option.some.inj h.reached
    rw [enumerationWithin_succ, if_neg h.lists]
  | succ k ih =>
    obtain ⟨room, rfl⟩ := Nat.exists_eq_add_one_of_ne_zero (Nat.ne_zero_of_lt hroom)
    obtain ⟨hempty, w, hw, hnext⟩ := h.next
    rw [enumerationWithin_succ, if_pos hempty, hw, Option.map_some, Option.getD_some]
    exact ih hnext (Nat.lt_of_succ_lt_succ hroom)

end ListsFirst

/-- Where no type on the way lists values, there are none, with any room. -/
theorem enumerationWithin_eq_nil (h : ∀ k u, g.sourceAt? k t = some u → g.ownValues u = []) :
    g.enumerationWithin room t = [] := by
  induction room generalizing t with
  | zero => rw [enumerationWithin]
  | succ room ih =>
    rw [enumerationWithin_succ, if_pos (h 0 t rfl)]
    cases hsource : g.source? t with
    | none => rfl
    | some w =>
      refine ih fun k u hu => h (k + 1) u ?_
      rw [sourceAt?, hsource]
      exact hu

/-- One of the types on the way lists values first, if any does. -/
theorem listsFirst_or_not (g : Grammar) (t : TypeId) :
    (∃ k u, g.ListsFirst t k u) ∨ ∀ k u, g.sourceAt? k t = some u → g.ownValues u = [] := by
  by_cases hany : ∃ k u, g.sourceAt? k t = some u ∧ g.ownValues u ≠ []
  · classical
    obtain ⟨u, hu, hlists⟩ := Nat.find_spec hany
    refine .inl ⟨_, u, hu, hlists, fun j hj w hw => ?_⟩
    by_contra hne
    exact Nat.find_min hany hj ⟨w, hw, hne⟩
  · refine .inr fun k u hu => ?_
    by_contra hne
    exact hany ⟨k, u, hu, hne⟩

/-- **The values of a type are those of the first type on the way that lists any**, in whatever
circles the way goes: there is such a type, which is less than as many steps away as there are types,
or no type on the way lists any, and then there are no values.  More room would change nothing. -/
theorem enumeration_listing (g : Grammar) (t : TypeId) :
    ((∃ k u, g.ListsFirst t k u ∧ k < g.types.size ∧ g.enumeration t = g.ownValues u) ∨
      (∀ k u, g.sourceAt? k t = some u → g.ownValues u = []) ∧ g.enumeration t = []) ∧
    (∀ k u, g.ListsFirst t k u → g.enumeration t = g.ownValues u) ∧
    ∀ room, g.types.size ≤ room → g.enumerationWithin room t = g.enumeration t := by
  have hfound {k : Nat} {u : TypeId} (h : g.ListsFirst t k u) : g.enumeration t = g.ownValues u :=
    h.enumerationWithin_eq (Nat.lt_succ_of_lt h.lt_size)
  rcases g.listsFirst_or_not t with ⟨k, u, h⟩ | hnone
  · refine ⟨.inl ⟨k, u, h, h.lt_size, hfound h⟩, fun _ _ => hfound, fun room hroom => ?_⟩
    rw [hfound h, h.enumerationWithin_eq (Nat.lt_of_lt_of_le h.lt_size hroom)]
  · have hempty : g.enumeration t = [] := enumerationWithin_eq_nil hnone
    refine ⟨.inr ⟨hnone, hempty⟩, fun _ _ => hfound, fun room _ => ?_⟩
    rw [hempty, enumerationWithin_eq_nil hnone]

/-- Two simple types that come from each other, and a complex type whose content comes from a list by
way of another type. -/
def shoeSizes : Submission where
  text := "<s:schema xmlns:s='http://www.w3.org/2001/XMLSchema'>" ++
    "<s:simpleType name='A'><s:restriction base='B'/></s:simpleType>" ++
    "<s:simpleType name='B'><s:restriction base='A'/></s:simpleType>" ++
    "<s:simpleType name='Size'><s:restriction base='s:string'>" ++
    "<s:enumeration value='small'/><s:enumeration value='large'/></s:restriction></s:simpleType>" ++
    "<s:simpleType name='Fit'><s:restriction base='Size'/></s:simpleType>" ++
    "<s:complexType name='Shoe'><s:simpleContent><s:extension base='Fit'/></s:simpleContent>" ++
    "</s:complexType></s:schema>"
  location := .path "sizes.xsd"

/-- The way from a type of a circle has no end, and there are no values; the values of the complex
type are those listed two steps away. -/
theorem enumeration_listing_shoeSizes :
    ∃ g, ((Components.empty .v10 {}).after [shoeSizes]).build = .ok g ∧
      (∀ k, (g.sourceAt? k ⟨0⟩).isSome) ∧ g.enumeration ⟨0⟩ = [] ∧
      g.ListsFirst ⟨4⟩ 2 ⟨2⟩ ∧ g.enumeration ⟨4⟩ = ["small", "large"] := by
  have hbuilt : ∃ g ∈ ((Components.empty .v10 {}).after [shoeSizes]).build.toOption,
      (g.source? ⟨0⟩ = some ⟨1⟩ ∧ g.source? ⟨1⟩ = some ⟨0⟩) ∧
      (g.source? ⟨4⟩ = some ⟨3⟩ ∧ g.source? ⟨3⟩ = some ⟨2⟩) ∧
      (g.ownValues ⟨0⟩ = [] ∧ g.ownValues ⟨1⟩ = []) ∧
      (g.ownValues ⟨4⟩ = [] ∧ g.ownValues ⟨3⟩ = []) ∧ g.ownValues ⟨2⟩ = ["small", "large"] := by
    decide +kernel
  obtain ⟨g, hg, ⟨hB, hA⟩, ⟨hFit, hSize⟩, ⟨hnoA, hnoB⟩, ⟨hnoShoe, hnoFit⟩, hlisted⟩ := hbuilt
  have hcircle (k : Nat) : (g.sourceAt? k ⟨0⟩ = some ⟨0⟩ ∨ g.sourceAt? k ⟨0⟩ = some ⟨1⟩) ∧
      (g.sourceAt? k ⟨1⟩ = some ⟨0⟩ ∨ g.sourceAt? k ⟨1⟩ = some ⟨1⟩) := by
    induction k with
    | zero => exact ⟨.inl rfl, .inr rfl⟩
    | succ k ih =>
      rw [sourceAt?, sourceAt?, hB, hA, Option.bind_some, Option.bind_some]
      exact ih.symm
  have hnone (k : Nat) (u : TypeId) (hu : g.sourceAt? k ⟨0⟩ = some u) : g.ownValues u = [] := by
    rcases (hcircle k).1 with h | h <;> obtain rfl := Option.some.inj (h.symm.trans hu)
    · exact hnoA
    · exact hnoB
  have hfirst : g.ListsFirst ⟨4⟩ 2 ⟨2⟩ := by
    have hone : g.sourceAt? 1 ⟨4⟩ = some ⟨3⟩ := by simp only [sourceAt?, hFit, Option.bind_some]
    refine ⟨by simp only [sourceAt?, hFit, hSize, Option.bind_some], by simp [hlisted], ?_⟩
    intro j hj w hw
    obtain rfl | rfl : j = 0 ∨ j = 1 := by omega
    · exact Option.some.inj hw ▸ hnoShoe
    · exact Option.some.inj (hone.symm.trans hw) ▸ hnoFit
  refine ⟨g, Components.build_of_mem hg, fun k => ?_, ?_, hfirst, ?_⟩
  · rcases (hcircle k).1 with h | h <;> rw [h] <;> rfl
  · obtain ⟨k, u, h, -, -⟩ | ⟨-, hempty⟩ := (enumeration_listing g ⟨0⟩).1
    · exact absurd (hnone k u h.reached) h.lists
    · exact hempty
  · rw [(enumeration_listing g ⟨4⟩).2.1 2 ⟨2⟩ hfirst, hlisted]

end Grammar
end SchemaAssist
