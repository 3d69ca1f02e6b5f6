/-
# The order of declarations

Elements are numbered as they are declared, and a global element is entered right after it has been
numbered, unless there is one of its name (`Components.Ordered`).  So the global elements of a
grammar come in the order of their declarations, as do the members of a substitution group, and
either list has all of them (`Grammar.globals_spec`, `Grammar.members_spec`).
-/

import SchemaAssist.Proofs.AttributeLists
import SchemaAssist.Proofs.StandIns

namespace SchemaAssist

/-- Elements that come in the order of their declarations, each once. -/
def Ascending (ds : List ElementId) : Prop := ds.Pairwise fun d d' => d.index < d'.index

instance (ds : List ElementId) : Decidable (Ascending ds) :=
  inferInstanceAs (Decidable (ds.Pairwise _))

namespace NameTable

variable {α : Type} {t : NameTable α} {n : Name} {a : α}

theorem values_add (t : NameTable α) (n : Name) (a : α) : (t.add n a).values = t.values ++ [a] :=
  List.map_append

theorem nodup_names_add (h : t.names.Nodup) (hn : t.has n = false) : (t.add n a).names.Nodup := by
  have hnames : (t.add n a).names = t.names ++ [n] := List.map_append
  rw [hnames, List.nodup_append]
  refine ⟨h, List.nodup_singleton n, fun m hm m' hm' => ?_⟩
  obtain rfl := List.mem_singleton.1 hm'
  rintro rfl
  obtain ⟨a', ha'⟩ := exists_find? hm
  rw [has, ha'] at hn
  cases hn

/-- Where no name has two entries, every entry is found by its name. -/
theorem mem_values_iff (h : t.names.Nodup) : a ∈ t.values ↔ ∃ n, t.find? n = some a := by
  simp only [find?, lookup_eq_some_iff_mem h, values, List.mem_map, Prod.exists, exists_eq_right]

end NameTable

namespace Components

variable {c : Components}

/-- The global elements come in the order of their declarations, and no name has two. -/
structure Ordered (c : Components) : Prop where
  numbered : ∀ d ∈ c.globalElements.values, d.index < c.elements.size
  ascending : Ascending c.globalElements.values
  names : c.globalElements.names.Nodup

theorem Ordered.addElement (h : c.Ordered) (e : ElementDecl) :
    Ordered { c with elements := c.elements.push e } where
  numbered d hd := by
    rw [Array.size_push]
    exact Nat.lt_succ_of_lt (h.numbered d hd)
  ascending := h.ascending
  names := h.names

/-- An element that is entered right after it has been numbered comes last. -/
theorem Ordered.declareElement (h : c.Ordered) (e : ElementDecl) {n : Name}
    (hn : c.globalElements.has n = false) :
    Ordered { c with
      elements := c.elements.push e
      globalElements := c.globalElements.add n ⟨c.elements.size⟩ } where
  numbered d hd := by
    rw [NameTable.values_add] at hd
    rw [Array.size_push]
    rcases List.mem_append.1 hd with hd | hd
    · exact Nat.lt_succ_of_lt (h.numbered d hd)
    · obtain rfl := List.mem_singleton.1 hd
      exact Nat.lt_succ_self _
  ascending := by
    rw [NameTable.values_add, Ascending, List.pairwise_append]
    refine ⟨h.ascending, List.pairwise_singleton _ _, fun d hd d' hd' => ?_⟩
    obtain rfl := List.mem_singleton.1 hd'
    exact h.numbered d hd
  names := NameTable.nodup_names_add h.names hn

/-- Every step of reading keeps the order. -/
theorem lockstep_ordered : Schema.Lockstep Eq fun c c' => c' = c ∧ c.Ordered where
  record := by
    rintro f _ p _ c rfl ⟨rfl, hc⟩
    exact ⟨rfl, { hc with }⟩
  requireLater := by
    rintro _ c ⟨rfl, hc⟩
    exact ⟨rfl, { hc with }⟩
  addElement := by
    rintro e _ c ⟨rfl, hc⟩
    exact ⟨rfl, rfl, hc.addElement e⟩
  addType := by
    rintro d _ c - ⟨rfl, hc⟩
    exact ⟨rfl, rfl, { hc with }⟩
  declareElement := by
    rintro n e _ c ⟨rfl, hc⟩
    refine ⟨rfl, ?_⟩
    rw [Schema.run_declareElement]
    split
    · exact { hc.addElement e with }
    · next hn => exact hc.declareElement e (Bool.eq_false_iff.2 hn)
  enterType := by
    rintro n t _ c ⟨rfl, hc⟩
    refine ⟨rfl, ?_⟩
    rw [run_enterType]
    split <;> exact { hc with }
  enterGroup := by
    rintro n g _ c ⟨rfl, hc⟩
    exact ⟨rfl, { hc with }⟩
  enterAttributeGroup := by
    rintro n g _ c - ⟨rfl, hc⟩
    exact ⟨rfl, { hc with }⟩
  enterAttribute := by
    rintro a _ c ⟨rfl, hc⟩
    exact ⟨rfl, { hc with }⟩

/-- Whatever documents are read, global elements come in the order of their declarations. -/
theorem ordered_after (version : Version) (limits : Limits) (docs : List Submission) :
    ((empty version limits).after docs).Ordered :=
  keeps_after lockstep_ordered (fun _ _ _ _ hc => { hc with }) docs
    ⟨fun _ h => absurd h List.not_mem_nil, List.Pairwise.nil, List.nodup_nil⟩

/-- The global elements of a grammar are those that its documents declare. -/
theorem globalElements_of_build {g : Grammar} (hc : c.Intact) (hbuiltins : c.builtins = [])
    (hg : c.build = .ok g) : g.globalElements = c.globalElements := by
  obtain ⟨T, keys, hmidway, -⟩ := exists_lookedUp hc hbuiltins
  have hlooked : c.lookedUp.globalElements = c.globalElements := hmidway.frame.globalElements
  have hconcluded : c.lookedUp.concluded.globalElements = c.lookedUp.globalElements :=
    (frame_concluded c.lookedUp).globalElements
  have hfinish (c : Components) : c.finish.globalElements = c.globalElements := rfl
  rw [← finish_of_build hg, hfinish, hconcluded, hlooked]

/-- Elements of a list that is numbered in order come in the order of their numbers. -/
theorem ascending_membersAmong (globals : NameTable ElementId) (head : ElementId)
    (es : List ElementDecl) : Ascending (membersAmong globals head es.zipIdx) := by
  have hnumbers : es.zipIdx.Pairwise fun p q => p.2 < q.2 := by
    rw [← List.pairwise_map (f := Prod.snd) (R := (· < ·)), List.zipIdx_map_snd]
    exact List.pairwise_lt_range'
  exact List.pairwise_map.2 (hnumbers.filter _)

end Components

namespace Grammar

variable {version : Version} {limits : Limits} {g : Grammar} {docs : List Submission}

/-- The global elements of a grammar, in the order of their declarations. -/
theorem globals_spec (hg : ((Components.empty version limits).after docs).build = .ok g) :
    Ascending g.globals ∧ ∀ d, d ∈ g.globals ↔ ∃ n, g.globalElements.find? n = some d := by
  obtain ⟨hintact, hgrows⟩ := Components.intact_after (Components.intact_empty version limits) docs
  have hordered := Components.ordered_after version limits docs
  have hsame := Components.globalElements_of_build hintact hgrows.builtins hg
  rw [globals, hsame]
  exact ⟨hordered.ascending, fun d => NameTable.mem_values_iff hordered.names⟩

/-- The direct members of a substitution group, in the order of their declarations. -/
theorem members_spec (hg : ((Components.empty version limits).after docs).build = .ok g)
    (head : ElementId) :
    Ascending (g.members head) ∧ ∀ d, d ∈ g.members head ↔ g.Joins d head := by
  obtain ⟨hintact, -⟩ := Components.intact_after (Components.intact_empty version limits) docs
  obtain ⟨c, hsettled, -, rfl⟩ := Components.exists_settled_of_build hintact hg
  refine ⟨?_, fun d => Components.mem_members_iff_joins hsettled.intact⟩
  have hmembers : c.finish.members head = c.finish.joining head :=
    Components.members_eq_joining hsettled.intact head
  rw [hmembers]
  exact Components.ascending_membersAmong _ _ _

end Grammar
end SchemaAssist
