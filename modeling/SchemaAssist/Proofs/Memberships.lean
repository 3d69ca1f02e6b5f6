/-
# Members of substitution groups

The table of substitution groups is filled member by member.  What it holds in the end says nothing
of that: the members of a head are the elements that name it among their heads, in the order of
their declarations (`Components.members_substitutions`).
-/

import SchemaAssist.Schema.Substitution

namespace SchemaAssist

/-- The global elements that an element names as its heads. -/
def ElementDecl.headsIn (e : ElementDecl) (globals : NameTable ElementId) : List ElementId :=
  e.heads.filterMap globals.find?

namespace Substitutions

variable {s : Substitutions} {head : ElementId}

@[simp] theorem size_add (s : Substitutions) (h m : ElementId) : (s.add h m).size = s.size :=
  Array.size_modify

theorem size_foldl_add (s : Substitutions) (ms : List (ElementId × ElementId)) :
    (ms.foldl (fun s (h, m) => s.add h m) s).size = s.size := by
  induction ms generalizing s with
  | nil => rfl
  | cons p ms ih => rw [List.foldl_cons, ih, size_add]

theorem members_add (hhead : head.index < s.size) (h m : ElementId) :
    (s.add h m).members head = if head = h then addNew (s.members head) m else s.members head := by
  rw [members, add, Array.getElem?_modify]
  by_cases hh : head = h
  · subst hh
    rw [if_pos rfl, if_pos rfl, members, Array.getElem?_eq_getElem hhead]
    rfl
  · have hindex : h.index ≠ head.index := fun hindex => hh (congrArg ElementId.mk hindex.symm)
    rw [if_neg hindex, if_neg hh, members]

/-- A member is added to a head once, however often it names the head. -/
theorem members_foldl_heads (hhead : head.index < s.size) (heads : List ElementId) (m : ElementId) :
    ((heads.map fun h => (h, m)).foldl (fun s (h, m) => s.add h m) s).members head =
      if head ∈ heads then addNew (s.members head) m else s.members head := by
  induction heads generalizing s with
  | nil => rfl
  | cons h heads ih =>
    rw [List.map_cons, List.foldl_cons, ih (by simpa using hhead), members_add hhead]
    by_cases hh : head = h
    · have hagain : addNew (addNew (s.members head) m) m = addNew (s.members head) m :=
        if_pos (mem_addNew.2 (Or.inr rfl))
      rw [if_pos hh, hagain, ite_self, if_pos (List.mem_cons.2 (Or.inl hh))]
    · simp only [List.mem_cons, hh, false_or, if_false]

end Substitutions

namespace Components

variable {c : Components} {head d : ElementId}

/-- The elements of a list that name an element as one of their heads. -/
def membersAmong (globals : NameTable ElementId) (head : ElementId) (es : List (ElementDecl × Nat)) :
    List ElementId :=
  (es.filter fun (e, _) => head ∈ e.headsIn globals).map fun (_, i) => ⟨i⟩

theorem members_foldl_memberships (globals : NameTable ElementId) (s : Substitutions)
    (hhead : head.index < s.size) {es : List (ElementDecl × Nat)} (hes : (es.map (·.2)).Nodup)
    (hnew : ∀ p ∈ es, ⟨p.2⟩ ∉ s.members head) :
    ((es.flatMap fun (e, i) => (e.headsIn globals).map fun h => (h, ⟨i⟩)).foldl
      (fun s (h, m) => s.add h m) s).members head =
        s.members head ++ membersAmong globals head es := by
  induction es generalizing s with
  | nil => simp [membersAmong]
  | cons p es ih =>
    obtain ⟨e, i⟩ := p
    rw [List.map_cons, List.nodup_cons] at hes
    rw [List.forall_mem_cons] at hnew
    have hstep := Substitutions.members_foldl_heads hhead (e.headsIn globals) ⟨i⟩
    have hlater (p : ElementDecl × Nat) (hp : p ∈ es) : (⟨p.2⟩ : ElementId) ≠ ⟨i⟩ := by
      intro heq
      exact hes.1 (List.mem_map.2 ⟨p, hp, congrArg ElementId.index heq⟩)
    rw [List.flatMap_cons, List.foldl_append, ih _ (by rwa [Substitutions.size_foldl_add]) hes.2,
      hstep, membersAmong, membersAmong]
    · by_cases hmem : head ∈ e.headsIn globals
      · rw [if_pos hmem, List.filter_cons_of_pos (by simpa using hmem), addNew, if_neg hnew.1,
          List.map_cons, List.append_assoc, List.singleton_append]
      · rw [if_neg hmem, List.filter_cons_of_neg (by simpa using hmem)]
    · intro p hp
      rw [hstep]
      split
      · rw [mem_addNew, not_or]
        exact ⟨hnew.2 p hp, hlater p hp⟩
      · exact hnew.2 p hp

theorem size_substitutions (c : Components) : c.substitutions.size = c.elements.size := by
  rw [substitutions, Substitutions.size_foldl_add, Array.size_replicate]

/-- **The members of a head are the elements that name it, in the order of their declarations.** -/
theorem members_substitutions (hhead : head.index < c.elements.size) :
    c.substitutions.members head =
      membersAmong c.globalElements head c.elements.toList.zipIdx := by
  have hempty : Substitutions.members (Array.replicate c.elements.size []) head = [] := by
    rw [Substitutions.members, Array.getElem?_replicate, if_pos hhead, Option.getD_some]
  have hnodup : (c.elements.toList.zipIdx.map (·.2)).Nodup := by
    rw [List.zipIdx_map_snd]
    exact List.nodup_range'
  have hsize : head.index < Array.size (Array.replicate c.elements.size ([] : List ElementId)) := by
    rwa [Array.size_replicate]
  have hfold := members_foldl_memberships c.globalElements (Array.replicate c.elements.size [])
    hsize hnodup (by simp [hempty])
  rwa [hempty, List.nil_append] at hfold

theorem mem_members_substitutions : d ∈ c.substitutions.members head ↔
    head.index < c.elements.size ∧
      ∃ e, c.elements[d.index]? = some e ∧ head ∈ e.headsIn c.globalElements := by
  by_cases hhead : head.index < c.elements.size
  · simp only [members_substitutions hhead, membersAmong, hhead, true_and, List.mem_map,
      List.mem_filter, decide_eq_true_eq, Prod.exists, List.mem_zipIdx_iff_getElem?,
      Array.getElem?_toList]
    constructor
    · rintro ⟨e, i, ⟨he, hmem⟩, rfl⟩
      exact ⟨e, he, hmem⟩
    · rintro ⟨e, he, hmem⟩
      exact ⟨e, d.index, ⟨he, hmem⟩, rfl⟩
  · rw [Substitutions.members_eq_nil (by rw [size_substitutions]; omega)]
    simp [hhead]

end Components
end SchemaAssist
