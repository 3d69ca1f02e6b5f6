/-
# References to attributes

A use that refers to a global attribute bears its name, and a global attribute is kept under the
name that it bears.  So a use has the same name before and after its reference is looked up
(`Components.Faithful.dereferenced`), and uses may be put together by name before that.  All
components that documents have been read into are such (`Components.faithful_after`).
-/

import SchemaAssist.Proofs.Likeness
import SchemaAssist.Proofs.Outcomes

namespace SchemaAssist

namespace NameTable

variable {α : Type}

theorem mem_entries_put {t : NameTable α} {n : Name} {a : α} {e : Name × α}
    (he : e ∈ (t.put n a).entries) : e = (n, a) ∨ e ∈ t.entries := by
  rw [put] at he
  split at he
  · obtain ⟨e', he', hput⟩ := List.mem_map.1 he
    split at hput
    · exact .inl hput.symm
    · exact .inr (hput ▸ he')
  · exact (List.mem_append.1 he).elim .inr fun he => .inl (List.mem_singleton.1 he)

end NameTable

namespace Components

variable {c c' : Components} {a : AttributeUse}

/-- Components in which uses bear the names of what they refer to. -/
structure Faithful (c : Components) : Prop where
  types : ∀ ct, .complex ct ∈ c.types → ct.Faithful
  attributeGroups : ∀ e ∈ c.attributeGroups.entries, ∀ a ∈ e.2.attributes, a.Faithful
  globalAttributes : ∀ e ∈ c.globalAttributes.entries, e.2.name = e.1

/-- A use keeps its name when its reference is looked up. -/
theorem Faithful.dereferenced (h : c.Faithful) (ha : a.Faithful) :
    (c.dereferenced a).name = a.name ∧ (c.dereferenced a).use = a.use ∧
      (c.dereferenced a).reference? = none := by
  rw [Components.dereferenced]
  cases hr : a.reference? with
  | none => exact ⟨rfl, rfl, hr⟩
  | some r =>
    dsimp only
    cases hfind : c.globalAttributes.find? r with
    | none => exact ⟨rfl, rfl, rfl⟩
    | some declaration =>
      refine ⟨?_, rfl, rfl⟩
      change declaration.name = a.name
      rw [← ha r hr, h.globalAttributes _ (NameTable.mem_of_find? hfind)]

/-- Every step of reading keeps uses faithful. -/
theorem lockstep_faithful : Schema.Lockstep Eq fun c c' => c' = c ∧ c.Faithful where
  record := by
    rintro f _ p _ c rfl ⟨rfl, hc⟩
    exact ⟨rfl, { hc with }⟩
  requireLater := by
    rintro _ c ⟨rfl, hc⟩
    exact ⟨rfl, { hc with }⟩
  addElement := by
    rintro e _ c ⟨rfl, hc⟩
    exact ⟨rfl, rfl, { hc with }⟩
  addType := by
    rintro d _ c hd ⟨rfl, hc⟩
    refine ⟨rfl, rfl, { hc with types := fun ct hct => ?_ }⟩
    exact (Array.mem_push.1 hct).elim (hc.types ct) fun h => hd ct h.symm
  declareElement := by
    rintro n e _ c ⟨rfl, hc⟩
    refine ⟨rfl, ?_⟩
    rw [Schema.run_declareElement]
    split <;> exact { hc with }
  enterType := by
    rintro n t _ c ⟨rfl, hc⟩
    refine ⟨rfl, ?_⟩
    rw [run_enterType]
    split <;> exact { hc with }
  enterGroup := by
    rintro n g _ c ⟨rfl, hc⟩
    exact ⟨rfl, { hc with }⟩
  enterAttributeGroup := by
    rintro n g _ c hg ⟨rfl, hc⟩
    refine ⟨rfl, { hc with attributeGroups := fun e he => ?_ }⟩
    rcases NameTable.mem_entries_put he with rfl | he
    · exact hg
    · exact hc.attributeGroups e he
  enterAttribute := by
    rintro a _ c ⟨rfl, hc⟩
    refine ⟨rfl, { hc with globalAttributes := fun e he => ?_ }⟩
    rcases NameTable.mem_entries_put he with rfl | he
    · rfl
    · exact hc.globalAttributes e he

/-- **Whatever documents are read, uses bear the names of what they refer to.** -/
theorem faithful_after (version : Version) (limits : Limits) (docs : List Submission) :
    ((empty version limits).after docs).Faithful := by
  refine keeps_after lockstep_faithful (fun _ _ _ _ hc => { hc with }) docs ?_
  exact ⟨fun _ h => absurd h (Array.not_mem_empty _), fun _ h => absurd h List.not_mem_nil,
    fun _ h => absurd h List.not_mem_nil⟩

/-- Expanding model groups leaves attributes alone. -/
theorem Faithful.expandTypes (h : c.Faithful) : (expandTypes.run c).2.Faithful := by
  refine { h with types := fun ct hct => ?_ }
  rw [types_expandTypes] at hct
  obtain ⟨d, hd, hexpand⟩ := Array.mem_map.1 hct
  cases d with
  | simple st => cases hexpand
  | complex own =>
    have hown := h.types own hd
    rw [expandType] at hexpand
    split at hexpand
    · cases hexpand
      exact hown
    · cases hexpand
      exact hown

end Components
end SchemaAssist
